import PropAccord.Language
import PropAccord.Text.Blank
import PropAccord.Value.Basic

/-!
# Settings

Which files take part, which languages are handled, what is put in for a missing attribute and how
a parameter list is widened. Settings are read leniently from a table: whatever is missing, blank
or of the wrong kind has its default.
-/

namespace PropAccord

set_option autoImplicit false

/-- How a parameter list is widened: written anew, or added to. -/
inductive WidenMode where
  | canonical
  | append
deriving DecidableEq, Repr

namespace WidenMode

def label : WidenMode → Text
  | .canonical => "canonical".toList
  | .append => "append".toList

/-- The way to widen that a name stands for; unknown names stand for the canonical one. -/
def ofText (t : Text) : WidenMode := if t = "append".toList then .append else .canonical

end WidenMode

structure Settings where
  includes : Text := "**/*.\x7btsx,jsx,ts,js\x7d".toList
  excludes : Text := "**/node_modules/**".toList
  placeholder : Text := "\x7b/* TODO: completar */\x7d".toList
  languages : List Text := Language.supported
  widenMode : WidenMode := .canonical
deriving DecidableEq, Repr

namespace Settings

def accepts (s : Settings) (language : Text) : Bool :=
  !language.isEmpty && s.languages.contains language.toLower

/-- A text that is not blank, stripped; the default otherwise. -/
def textOr (default : Text) : Option Value → Text
  | some (.text t) => if t.allBlank then default else t.strip
  | _ => default

/-- The names that are not blank, stripped and in lower case. -/
def cleanNames (names : List Text) : List Text :=
  (names.filter fun name => !Text.allBlank name).map fun name => (Text.strip name).toLower

def languageNames : Option Value → List Text
  | some (.text t) => cleanNames (t.splitOn ',')
  | some (.list items) => cleanNames (items.filterMap Value.text?)
  | _ => []

/-- The languages that a section asks for, as far as they are supported; all of them when it asks
for none. -/
def languagesOf (value : Value) : List Text :=
  let kept := (languageNames (value.field? "languages")).filter (Language.supported.contains ·)
  if kept.isEmpty then Language.supported else kept

def ofSection (value : Value) : Settings :=
  match value with
  | .table fields =>
    let field (key : String) := Table.get? fields key.toList
    let defaults : Settings := {}
    { includes := textOr defaults.includes (field "include")
      excludes := textOr defaults.excludes (field "exclude")
      placeholder := match field "placeholder" with
        | some (.text t) => if t.allBlank then defaults.placeholder else t
        | _ => defaults.placeholder
      languages := languagesOf value
      widenMode := .ofText (textOr "canonical".toList (field "definition_rewrite")).toLower }
  | _ => {}

end Settings

end PropAccord
