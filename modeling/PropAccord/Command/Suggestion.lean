import PropAccord.Text.Basic

/-!
# Suggestions for mistyped words

How alike two words are is measured by the longest part they share, together with what the pieces to
its left and to its right share in turn. Words that are alike enough are suggested, the most alike
first.
-/

namespace PropAccord.Suggestion

set_option autoImplicit false

def commonStart : Text → Text → Nat
  | a :: s, b :: t => if a = b then commonStart s t + 1 else 0
  | _, _ => 0

/-- A part that two texts share: where it begins in each, and its length. -/
structure Shared where
  left : Nat
  right : Nat
  size : Nat

def longer (best next : Shared) : Shared := if best.size < next.size then next else best

/-- The longest shared part; of several the one that begins first in the left text, then in the right
one. -/
def longestShared (a b : Text) : Shared :=
  (List.range a.length).foldl (fun best i =>
    (List.range b.length).foldl (fun best j =>
      longer best ⟨i, j, commonStart (a.drop i) (b.drop j)⟩) best) ⟨0, 0, 0⟩

def sharedCount : (fuel : Nat) → Text → Text → Nat
  | 0, _, _ => 0
  | fuel + 1, a, b =>
    let part := longestShared a b
    if part.size = 0 then 0
    else part.size + sharedCount fuel (a.take part.left) (b.take part.right) +
      sharedCount fuel (a.drop (part.left + part.size)) (b.drop (part.right + part.size))

/-- How alike two words are: twice the shared characters over all characters. -/
def likeness (a b : Text) : Nat × Nat :=
  (2 * sharedCount (a.length + b.length) a b, a.length + b.length)

/-- At most three of the known words that are alike enough, the most alike first. -/
def closest (known : List Text) (word : Text) : List Text :=
  let scored := (known.map fun k => (likeness k word, k)).filter fun ((n, d), _) => 3 * d ≤ 5 * n
  let better (x y : (Nat × Nat) × Text) : Bool :=
    let left := x.1.1 * y.1.2
    let right := y.1.1 * x.1.2
    right < left || (left == right && Text.le y.2 x.2)
  ((scored.mergeSort better).take 3).map (·.2)

end PropAccord.Suggestion
