import PropAccord.Text.Quoted

/-!
# Texts for a terminal

Words that a user has typed are shown in messages with their control characters as codes. What is
printed is freed from the sequences that would style a terminal: an escape character, an opening
bracket, digits, semicolons and question marks, and a letter.
-/

namespace PropAccord.Text

set_option autoImplicit false

def isControl (c : Char) : Bool := c.toNat < 0x20 || (0x7F ≤ c.toNat && c.toNat < 0xA0)

def withCodes (t : Text) : Text :=
  t.flatMap fun c => if isControl c then '\\' :: 'x' :: hex 2 c.toNat else [c]

def isStyleParameter (c : Char) : Bool := c.isDigit || c == ';' || c == '?'

def afterStyle? : Text → Option Text
  | '\x1b' :: '[' :: rest =>
    match rest.dropWhile isStyleParameter with
    | c :: after => if c.isAlpha then some after else none
    | [] => none
  | _ => none

theorem length_afterStyle?_lt {text after : Text} (h : afterStyle? text = some after) :
    after.length < text.length := by
  unfold afterStyle? at h
  split at h
  · rename_i rest
    have hle := length_dropWhile_le isStyleParameter rest
    split at h
    · rename_i c tail heq
      rw [heq, List.length_cons] at hle
      split at h
      · cases h
        simp only [List.length_cons]
        omega
      · simp at h
    · simp at h
  · simp at h

/-- The text without the sequences that style a terminal. -/
def unstyled : Text → Text
  | [] => []
  | c :: rest =>
    match _h : afterStyle? (c :: rest) with
    | some after => unstyled after
    | none => c :: unstyled rest
termination_by text => text.length
decreasing_by
  · exact length_afterStyle?_lt _h
  · simp

end PropAccord.Text
