import PropAccord.Text.Blank

/-!
# Prop names of a parameter list

The parameter of a component destructures its props: `title, size = 3, onClick?: Handler`. This
module reads the bare names out of the text between the braces, and merges two lists of names.
A comma always separates two elements, also inside a default value; nothing here looks at nesting.
-/

namespace PropAccord.Props

set_option autoImplicit false

/-- The name without the mark of an optional prop, which is one final question mark. -/
def dropOptionalMark (name : Text) : Text :=
  if name.getLast? = some '?' then name.dropLast else name

/-- The bare name of one element: what stands before its default value and its annotation. -/
def nameOf (element : Text) : Text :=
  (dropOptionalMark ((element.before '=').before ':').strip).strip

/-- The names in a parameter list, in order and with repetitions. -/
def namesIn (raw : Text) : List Text :=
  (((raw.splitOn ',').filter fun element => !Text.allBlank element).map nameOf).filter (· ≠ [])

/-- The names of the definition, then those that only its usages have. -/
def merge (defined used : List Text) : List Text := (defined ++ used).eraseDups

/-- The names of `wanted` that are not `present`, each once. -/
def missing (present wanted : List Text) : List Text :=
  (wanted.filter (· ∉ present)).eraseDups

end PropAccord.Props
