/-!
# Classes of characters by code point

A property of characters that no formula gives is a list of closed ranges of code points. The
lists themselves stand in the modules named for the property.
-/

namespace PropAccord

set_option autoImplicit false

/-- Closed ranges of code points, in increasing order. -/
abbrev Ranges := List (Nat × Nat)

def Ranges.contains (ranges : Ranges) (c : Char) : Bool :=
  ranges.any fun (first, last) => first ≤ c.toNat && c.toNat ≤ last

end PropAccord
