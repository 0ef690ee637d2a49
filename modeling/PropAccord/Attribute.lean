import PropAccord.Component.Name
import PropAccord.Text.Blank

/-!
# Attribute names of a tag

The attributes of a tag are read off the characters between its name and its end: an identifier
that starts at a word boundary and is followed by an equals sign, with blanks allowed between, is
the name of an attribute. Quotes and braces are not looked at.
-/

namespace PropAccord.Attribute

set_option autoImplicit false

/-- Reads an attribute at the front of a text: its name and what follows the equals sign. The
first argument is the character before the text. -/
def read? (previous : Option Char) : Text → Option (Text × Text)
  | [] => none
  | c :: rest =>
    if isBoundary previous (some c) && (c.isAlpha || c == '_') then
      match (rest.dropWhile isNameChar).dropWhile isBlank with
      | '=' :: after => some (c :: rest.takeWhile isNameChar, after)
      | _ => none
    else none

theorem length_rest_lt {previous : Option Char} {c : Char} {t name after : Text}
    (h : read? previous (c :: t) = some (name, after)) : after.length < (c :: t).length := by
  have h₁ := Text.length_dropWhile_le isNameChar t
  have h₂ := Text.length_dropWhile_le isBlank (t.dropWhile isNameChar)
  simp only [read?] at h
  split at h
  · split at h
    · rename_i heq
      rw [heq] at h₂
      simp only [Option.some.injEq, Prod.mk.injEq] at h
      simp only [List.length_cons] at h₂ ⊢
      rw [← h.2]
      omega
    · simp at h
  · simp at h

/-- The attributes of a text in order, with repetitions. The search goes on behind the equals
sign of the attribute found last. -/
def occurrences (previous : Option Char) : Text → List Text
  | [] => []
  | c :: rest =>
    match _h : read? previous (c :: rest) with
    | some (name, after) => name :: occurrences (some '=') after
    | none => occurrences (some c) rest
termination_by text => text.length
decreasing_by
  · exact length_rest_lt _h
  · simp

theorem occurrences_nil (previous : Option Char) : occurrences previous [] = [] := by
  rw [occurrences]

theorem occurrences_of_read? {previous : Option Char} {c : Char} {rest name after : Text}
    (h : read? previous (c :: rest) = some (name, after)) :
    occurrences previous (c :: rest) = name :: occurrences (some '=') after := by
  rw [occurrences]
  split
  · rename_i h'
    rw [h] at h'
    cases h'
    rfl
  · rename_i h'
    rw [h] at h'
    cases h'

theorem occurrences_of_read?_eq_none {previous : Option Char} {c : Char} {rest : Text}
    (h : read? previous (c :: rest) = none) :
    occurrences previous (c :: rest) = occurrences (some c) rest := by
  rw [occurrences]
  split
  · rename_i h'
    rw [h] at h'
    cases h'
  · rfl

/-- The attribute names of a text, each once and in the order of their first occurrence. -/
def names (text : Text) : List Text := (occurrences none text).eraseDups

end PropAccord.Attribute
