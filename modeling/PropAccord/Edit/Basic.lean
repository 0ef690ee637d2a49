import PropAccord.Fault

/-!
# Edits

An edit puts a text in the place of a span. Edits are all given against the same text: they are
ordered by their spans, must lie inside the text and must not overlap, and are then carried out
from the last to the first, so that the spans of the others stay where they are. Insertions at one
place keep their order.
-/

namespace PropAccord

set_option autoImplicit false

/-- A text in the place of the characters from `start` up to `stop`. -/
structure Edit where
  start : Int
  stop : Int
  text : Text
deriving DecidableEq, Repr

namespace Edit

def le (a b : Edit) : Bool := a.start < b.start || (a.start == b.start && a.stop ≤ b.stop)

/-- The edits in order; those with the same span keep their places. -/
def sort (edits : List Edit) : List Edit := edits.mergeSort Edit.le

/-- Checks ordered edits against a text of the given length, the edits before them reaching up to
`previous`. -/
def check (length : Nat) (previous : Int) : List Edit → Except Fault Unit
  | [] => .ok ()
  | e :: rest =>
    if e.start < 0 ∨ e.stop < e.start ∨ length < e.stop then
      .error (.editOutside e.start e.stop length)
    else if e.start < previous then .error (.overlap e.start e.stop)
    else check length e.stop rest

/-- One edit carried out. What lies behind the end of the text counts as its end. -/
def replace (e : Edit) (text : Text) : Text :=
  text.take e.start.toNat ++ e.text ++ text.drop e.stop.toNat

def apply (edits : List Edit) (text : Text) : Except Fault Text := do
  check text.length 0 (sort edits)
  return (sort edits).foldr replace text

end Edit

end PropAccord
