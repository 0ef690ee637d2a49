import PropAccord.Component.Definition
import PropAccord.Component.Tag
import PropAccord.Fault
import PropAccord.Language

/-!
# Scanners and their registry

A scanner finds the definitions and tags of components in a text. Scanners are registered for
languages and for file suffixes, in lower case; the built-in one serves all supported languages.
-/

namespace PropAccord

set_option autoImplicit false

structure Scanner where
  tag : Text
  definitions : Text → List Definition
  usages : Text → List Usage
  findDefinition? : (text name : Text) → Option Definition
  findTags : (text name : Text) → List Tag

def Scanner.lexical : Scanner where
  tag := "regex".toList
  definitions := Definition.scanAll
  usages := Usage.scan
  findDefinition? := Definition.find?
  findTags text name := Tag.scan (.exactly name) text

/-- Scanners by language and by suffix; the one registered last comes first. -/
structure Registry where
  byLanguage : List (Text × Scanner)
  bySuffix : List (Text × Scanner)
  /-- The scanner for documents that nothing else is known about, unless one is registered for the
  language it stands under. -/
  fallback : Scanner

namespace Registry

def register (r : Registry) (scanner : Scanner) (languages suffixes : List Text) : Registry :=
  { r with
    byLanguage := (languages.map fun l => (l.toLower, scanner)).reverse ++ r.byLanguage
    bySuffix := (suffixes.map fun s => (s.toLower, scanner)).reverse ++ r.bySuffix }

def standard : Registry :=
  (Registry.mk [] [] .lexical).register .lexical Language.supported
    (Language.bySuffix.map (·.1))

def forLanguage? (r : Registry) (language : Text) : Option Scanner :=
  if language.isEmpty then none else r.byLanguage.lookup language.toLower

def forSuffix? (r : Registry) (suffix : Text) : Option Scanner := r.bySuffix.lookup suffix.toLower

def default (r : Registry) : Scanner :=
  (r.byLanguage.lookup "typescriptreact".toList).getD r.fallback

/-- The scanner for a language if one is given, and else for a path. -/
def resolve (r : Registry) (path : Option Path) (language : Option Text) : Except Fault Scanner :=
  match language with
  | some l =>
    match r.forLanguage? l with
    | some scanner => .ok scanner
    | none => .error (.unknownLanguage l)
  | none => .ok ((path.bind fun p => r.forSuffix? p.suffix).getD r.default)

end Registry

end PropAccord
