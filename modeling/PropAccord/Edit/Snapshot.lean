import PropAccord.Digest
import PropAccord.Fault

/-!
# Snapshots and positions

A snapshot is the text of one document as it was read. Offsets count characters from its start;
positions count lines, and columns within a line, from zero.
-/

namespace PropAccord

set_option autoImplicit false

structure Position where
  line : Nat
  column : Nat
deriving DecidableEq, Repr

/-- The text of one document, and its version where an editor keeps one. -/
structure Snapshot where
  path : Path
  text : Text
  version : Option Int := none
deriving DecidableEq, Repr

namespace Snapshot

def digest (s : Snapshot) : Text := Digest.ofText s.text

def placeOf (text : Text) (offset : Nat) : Position where
  line := (text.take offset).count '\n'
  column := ((text.take offset).reverse.takeWhile (· ≠ '\n')).length

/-- The position of an offset, which must not lie outside the text. -/
def positionAt (s : Snapshot) (offset : Int) : Except Fault Position :=
  if offset < 0 ∨ s.text.length < offset then .error (.offsetOutside s.path offset)
  else .ok (placeOf s.text offset.toNat)

end Snapshot

end PropAccord
