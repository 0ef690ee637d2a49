import PropAccord.Path.Basic
import PropAccord.Text.Lower

/-!
# Languages

Documents are in one of four languages, named as editors name them. The language of a file can be
told from its suffix.
-/

namespace PropAccord.Language

set_option autoImplicit false

def supported : List Text :=
  ["javascriptreact".toList, "typescriptreact".toList, "javascript".toList, "typescript".toList]

def bySuffix : List (Text × Text) :=
  [(".js".toList, "javascript".toList), (".jsx".toList, "javascriptreact".toList),
    (".ts".toList, "typescript".toList), (".tsx".toList, "typescriptreact".toList)]

def ofPath? (p : Path) : Option Text := bySuffix.lookup p.suffix.toLower

end PropAccord.Language
