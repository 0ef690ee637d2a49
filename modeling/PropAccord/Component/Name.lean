import PropAccord.Text.Basic
import PropAccord.Text.Word

/-!
# Component names

A component name is an ASCII capital followed by ASCII letters, digits and underscores. A scan
either takes any component name or looks for one given text, which need not be such a name.
-/

namespace PropAccord

set_option autoImplicit false

def isNameChar (c : Char) : Bool := c.isAlphanum || c == '_'

def isComponentName : Text → Bool
  | [] => false
  | c :: rest => c.isUpper && rest.all isNameChar

def isIdentifier : Text → Bool
  | [] => false
  | c :: rest => (c.isAlpha || c == '_') && rest.all isNameChar

inductive NamePattern where
  | anyComponent
  | exactly (name : Text)
deriving DecidableEq, Repr

/-- Reads a name off the front of a text and returns it with the rest. A component name is read
as long as it goes. -/
def NamePattern.read? : NamePattern → Text → Option (Text × Text)
  | .anyComponent, [] => none
  | .anyComponent, c :: rest =>
    if c.isUpper then some (c :: rest.takeWhile isNameChar, rest.dropWhile isNameChar) else none
  | .exactly name, text => (Text.after? name text).map fun rest => (name, rest)

theorem NamePattern.eq_append_of_read? {pattern : NamePattern} {text name rest : Text}
    (h : pattern.read? text = some (name, rest)) : text = name ++ rest := by
  cases pattern with
  | anyComponent =>
    cases text with
    | nil => simp [NamePattern.read?] at h
    | cons c t =>
      simp only [NamePattern.read?] at h
      split at h
      · simp only [Option.some.injEq, Prod.mk.injEq] at h
        rw [← h.1, ← h.2, List.cons_append, List.takeWhile_append_dropWhile]
      · simp at h
  | exactly n =>
    simp only [NamePattern.read?, Option.map_eq_some_iff, Prod.mk.injEq] at h
    obtain ⟨r, hr, rfl, rfl⟩ := h
    exact Text.after?_eq_some_iff.1 hr

theorem NamePattern.length_read? {pattern : NamePattern} {text name rest : Text}
    (h : pattern.read? text = some (name, rest)) : text.length = name.length + rest.length := by
  rw [eq_append_of_read? h, List.length_append]

end PropAccord
