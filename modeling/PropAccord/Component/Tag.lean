import PropAccord.Attribute
import PropAccord.Props

/-!
# Tags

A tag opens with `<` and a name that ends at a word boundary, and runs to the first `>` behind the
name. A slash directly before that `>` makes it self-closing. Tags are found from left to right
and do not overlap; what a tag contains is not searched again.
-/

namespace PropAccord

set_option autoImplicit false

structure Tag where
  component : Text
  start : Nat
  stop : Nat
  /-- Offset of the end mark, before which attributes are inserted. -/
  insertAt : Nat
  attributes : List Text
  selfClosing : Bool
deriving DecidableEq, Repr

namespace Tag

/-- The characters up to the nearest end mark, whether that is `/>`, and what follows it. -/
def closing? : Text → Option (Text × Bool × Text)
  | [] => none
  | '/' :: '>' :: rest => some ([], true, rest)
  | '>' :: rest => some ([], false, rest)
  | c :: rest => (closing? rest).map fun (region, closed, after) => (c :: region, closed, after)

structure Reading where
  component : Text
  region : Text
  selfClosing : Bool
  after : Text

def Reading.length (r : Reading) : Nat :=
  1 + r.component.length + r.region.length + if r.selfClosing then 2 else 1

def Reading.tag (r : Reading) (start : Nat) : Tag where
  component := r.component
  start := start
  stop := start + r.length
  insertAt := start + (1 + r.component.length + r.region.length)
  attributes := Attribute.names r.region
  selfClosing := r.selfClosing

def read? (pattern : NamePattern) : Text → Option Reading
  | '<' :: text => do
    let (name, rest) ← pattern.read? text
    if isBoundary (('<' :: name).getLast?) rest.head? then
      let (region, selfClosing, after) ← closing? rest
      return { component := name, region, selfClosing, after }
    else none
  | _ => none

theorem length_closing {text region after : Text} {closed : Bool}
    (h : closing? text = some (region, closed, after)) : after.length < text.length := by
  induction text using closing?.induct generalizing region after with
  | case1 => simp [closing?] at h
  | case2 rest =>
    simp only [closing?, Option.some.injEq, Prod.mk.injEq] at h
    rw [← h.2.2, List.length_cons, List.length_cons]
    omega
  | case3 rest =>
    simp only [closing?, Option.some.injEq, Prod.mk.injEq] at h
    rw [← h.2.2, List.length_cons]
    omega
  | case4 c rest h₁ h₂ ih =>
    rw [closing?] at h
    · obtain ⟨⟨region', closed', after'⟩, h', heq⟩ := Option.map_eq_some_iff.1 h
      simp only [Prod.mk.injEq] at heq
      obtain ⟨_, rfl, rfl⟩ := heq
      have := ih h'
      simp only [List.length_cons]
      omega
    · exact h₁
    · exact h₂

theorem length_after_lt {pattern : NamePattern} {text : Text} {r : Reading}
    (h : read? pattern text = some r) : r.after.length < text.length := by
  unfold read? at h
  split at h
  · rename_i t
    simp only [Option.bind_eq_bind, Option.bind_eq_some_iff, Prod.exists] at h
    obtain ⟨name, rest, hn, h⟩ := h
    split at h
    · simp only [Option.bind_eq_some_iff, Prod.exists] at h
      obtain ⟨region, closed, after, hc, hr⟩ := h
      have h₁ := NamePattern.length_read? hn
      have h₂ := length_closing hc
      cases hr
      simp only [List.length_cons]
      omega
    · simp at h
  · simp at h

def scanFrom (pattern : NamePattern) (offset : Nat) : Text → List Tag
  | [] => []
  | c :: rest =>
    match _h : read? pattern (c :: rest) with
    | some r => r.tag offset :: scanFrom pattern (offset + r.length) r.after
    | none => scanFrom pattern (offset + 1) rest
termination_by text => text.length
decreasing_by
  · exact length_after_lt _h
  · simp

theorem scanFrom_nil (pattern : NamePattern) (offset : Nat) : scanFrom pattern offset [] = [] := by
  rw [scanFrom]

theorem scanFrom_of_read? {pattern : NamePattern} {c : Char} {rest : Text} {r : Reading}
    (offset : Nat) (h : read? pattern (c :: rest) = some r) :
    scanFrom pattern offset (c :: rest) =
      r.tag offset :: scanFrom pattern (offset + r.length) r.after := by
  rw [scanFrom]
  split
  · rename_i r' h'
    rw [h] at h'
    cases h'
    rfl
  · rename_i h'
    rw [h] at h'
    cases h'

theorem scanFrom_of_read?_eq_none {pattern : NamePattern} {c : Char} {rest : Text}
    (offset : Nat) (h : read? pattern (c :: rest) = none) :
    scanFrom pattern offset (c :: rest) = scanFrom pattern (offset + 1) rest := by
  rw [scanFrom]
  split
  · rename_i h'
    rw [h] at h'
    cases h'
  · rfl

def scan (pattern : NamePattern) (text : Text) : List Tag := scanFrom pattern 0 text

def missing (tag : Tag) (wanted : List Text) : List Text := Props.missing tag.attributes wanted

end Tag

structure Usage where
  component : Text
  props : List Text
deriving DecidableEq, Repr

namespace Usage

/-- The usages of a text: its tags of any component that have an attribute. -/
def scan (text : Text) : List Usage :=
  ((Tag.scan .anyComponent text).filter fun tag => !tag.attributes.isEmpty).map fun tag =>
    ⟨tag.component, tag.attributes⟩

end Usage

end PropAccord
