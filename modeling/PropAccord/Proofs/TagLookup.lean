import PropAccord.Component.Scanner
import PropAccord.Proofs.TagPieces

/-!
# Tags of any component and tags of one

Tags are looked for in two ways: those of any component, to learn what a text uses, and those of one
component, to edit them. At any one place both ways read the same tag. They part only where a tag of
another component is passed over: the one way goes on behind it, while the other finds the tags that
stand inside. Since both of these tags end at the same bracket, the two ways meet again there.
-/

namespace PropAccord

set_option autoImplicit false

namespace Tag

/-- Where a tag of any component is read, it is the one that is read for its name. -/
theorem read?_anyComponent_iff {s : Text} {r : Reading} :
    read? .anyComponent s = some r ↔
      isComponentName r.component = true ∧ read? (.exactly r.component) s = some r := by
  constructor
  · intro h
    obtain ⟨text, rest, rfl, hname, hboundary, hclosing⟩ := read?_eq_some_iff.1 h
    refine ⟨isComponentName_of_read? hname, read?_eq_some_iff.2 ⟨text, rest, rfl, ?_, hboundary,
      hclosing⟩⟩
    rw [NamePattern.read?, Text.after?_eq_some_iff.2 (NamePattern.eq_append_of_read? hname)]
    rfl
  · rintro ⟨hcomponent, h⟩
    obtain ⟨text, rest, rfl, hname, hboundary, hclosing⟩ := read?_eq_some_iff.1 h
    refine read?_eq_some_iff.2 ⟨text, rest, rfl, ?_, hboundary, hclosing⟩
    rw [isBoundary_after_componentName hcomponent, Bool.not_eq_true'] at hboundary
    rw [NamePattern.eq_append_of_read? hname]
    refine NamePattern.read?_anyComponent hcomponent fun c hc => ?_
    rw [Option.mem_def.1 hc, Option.any_some] at hboundary
    exact Bool.eq_false_iff.2 fun hchar => by
      rw [isWordChar_of_isNameChar hchar] at hboundary
      cases hboundary

theorem opened?_of_inPiece? {name piece body : Text} (h : inPiece? name piece = some (0, body)) :
    opened? name piece = some body := by
  cases piece with
  | nil => cases h
  | cons c piece =>
    rw [inPiece?] at h
    split at h
    · rename_i body' hbody
      obtain ⟨-, rfl⟩ := Prod.mk.inj (Option.some.inj h)
      exact hbody
    · obtain ⟨found, -, heq⟩ := Option.map_eq_some_iff.1 h
      exact absurd (Prod.mk.inj heq).1 (Nat.succ_ne_zero _)

section

variable {name : Text} (hname : isComponentName name = true)
include hname

/-- Where a tag of any component is passed over, the tags of one component are that tag, or the first
one that stands inside it, and then those that follow. -/
theorem exists_scanFrom_of_read? {s : Text} {r : Reading} (h : read? .anyComponent s = some r)
    (offset : Nat) :
    ∃ first : Option Tag, scanFrom (.exactly name) offset s =
        first.toList ++ scanFrom (.exactly name) (offset + r.length) r.after ∧
      (r.component = name → first = some (r.tag offset)) ∧
      (r.component ≠ name →
        ∀ tag ∈ first, offset < tag.start ∧ tag.start < offset + r.length) := by
  obtain ⟨other, region, closed, rest⟩ := r
  obtain ⟨hother, hown⟩ := read?_anyComponent_iff.1 h
  obtain ⟨piece, body, _, hpiece, hbody, rfl, hr⟩ := exists_piece_of_read? hother hown
  cases hr
  have hlength : Reading.length ⟨other, stem body, slashed body, rest⟩ = _ := length_of_opened? hbody
  have hscan := scanFrom_append hname hpiece offset rest
  rw [Nat.add_assoc, ← hlength] at hscan
  refine ⟨_, hscan, ?_, ?_⟩
  · rintro rfl
    obtain ⟨c, piece, rfl⟩ := List.exists_cons_of_ne_nil (l := piece) (by rintro rfl; cases hbody)
    rw [inPiece?, hbody]
    rfl
  · intro hne tag htag
    obtain ⟨⟨n, inner⟩, hfound, rfl⟩ := Option.map_eq_some_iff.1 htag
    obtain ⟨before, hbefore, hpieces⟩ := inPiece?_eq_some hfound
    have hinside : n < piece.length := by
      rw [hpieces, List.length_append, List.length_append, List.length_cons]
      omega
    -- At the very start of the piece only the tag that was read can stand.
    have hlater : n ≠ 0 := by
      rintro rfl
      have hread := read?_append hname hpiece rest
      rw [opened?_of_inPiece? hfound, Option.map_some] at hread
      have hsame := h.symm.trans
        (read?_anyComponent_iff (r := ⟨name, stem inner, slashed inner, rest⟩).2 ⟨hname, hread⟩)
      exact hne (congrArg Reading.component (Option.some.inj hsame))
    rw [hlength]
    simp only [Reading.tag]
    omega

theorem read?_eq_none_of_anyComponent {s : Text} (h : read? .anyComponent s = none) :
    read? (.exactly name) s = none := by
  cases hread : read? (.exactly name) s with
  | none => rfl
  | some r =>
    obtain ⟨text, rest, -, hr, -⟩ := read?_eq_some_iff.1 hread
    obtain ⟨_, -, heq⟩ := Option.map_eq_some_iff.1 hr
    obtain rfl : name = r.component := congrArg Prod.fst heq
    rw [read?_anyComponent_iff.2 ⟨hname, hread⟩] at h
    cases h

/-- The tags of a component that are found among those of all components are found for its name, in
the same order. -/
theorem sublist_scanFrom (offset : Nat) (t : Text) :
    ((scanFrom .anyComponent offset t).filter fun tag => tag.component = name).Sublist
      (scanFrom (.exactly name) offset t) := by
  induction offset, t using scanFrom.induct .anyComponent with
  | case1 offset => simp [scanFrom_nil]
  | case2 offset c rest r hr ih =>
    obtain ⟨first, hscan, hown, -⟩ := exists_scanFrom_of_read? hname hr offset
    rw [scanFrom_of_read? offset hr, hscan]
    by_cases hcomponent : (r.tag offset).component = name
    · rw [hown hcomponent, List.filter_cons_of_pos (by simpa using hcomponent)]
      exact ih.cons_cons (r.tag offset)
    · rw [List.filter_cons_of_neg (by simpa using hcomponent)]
      exact ih.trans (List.sublist_append_right _ _)
  | case3 offset c rest hr ih =>
    rw [scanFrom_of_read?_eq_none offset hr,
      scanFrom_of_read?_eq_none offset (read?_eq_none_of_anyComponent hname hr)]
    exact ih

/-- A tag that is found only for its name stands inside a tag of another component. -/
theorem inside_of_mem_scanFrom (offset : Nat) (t : Text) :
    ∀ tag ∈ scanFrom (.exactly name) offset t, tag ∉ scanFrom .anyComponent offset t →
      ∃ outer ∈ scanFrom .anyComponent offset t, outer.component ≠ name ∧
        outer.start < tag.start ∧ tag.start < outer.stop := by
  induction offset, t using scanFrom.induct .anyComponent with
  | case1 offset => simp [scanFrom_nil]
  | case2 offset c rest r hr ih =>
    obtain ⟨first, hscan, hown, hinner⟩ := exists_scanFrom_of_read? hname hr offset
    rw [scanFrom_of_read? offset hr, hscan]
    intro tag htag hnot
    rw [List.mem_cons, not_or] at hnot
    rcases List.mem_append.1 htag with hfirst | hlater
    · have hcomponent : r.component ≠ name := by
        intro heq
        rw [hown heq, Option.toList_some, List.mem_singleton] at hfirst
        exact hnot.1 hfirst
      exact ⟨r.tag offset, List.mem_cons_self, hcomponent,
        hinner hcomponent tag (Option.mem_toList.1 hfirst)⟩
    · obtain ⟨outer, houter, hinside⟩ := ih tag hlater hnot.2
      exact ⟨outer, List.mem_cons_of_mem _ houter, hinside⟩
  | case3 offset c rest hr ih =>
    rw [scanFrom_of_read?_eq_none offset hr,
      scanFrom_of_read?_eq_none offset (read?_eq_none_of_anyComponent hname hr)]
    exact ih

end

end Tag

/-- What a text uses of a component are tags that are found for its name. All other tags that are
found for the name stand inside tags of other components. -/
theorem Usage.tags_found_for_name {name : Text} (hname : isComponentName name = true) (t : Text) :
    ((Tag.scan .anyComponent t).filter fun tag => tag.component = name).Sublist
        (Scanner.lexical.findTags t name) ∧
    (∀ tag ∈ Scanner.lexical.findTags t name, tag ∉ Tag.scan .anyComponent t →
      ∃ outer ∈ Tag.scan .anyComponent t, outer.component ≠ name ∧
        outer.start < tag.start ∧ tag.start < outer.stop) ∧
    ∀ usage ∈ Scanner.lexical.usages t, usage.component = name → usage.props ≠ [] ∧
      ∃ tag ∈ Scanner.lexical.findTags t name, tag ∈ Tag.scan .anyComponent t ∧
        tag.attributes = usage.props := by
  have hsublist := Tag.sublist_scanFrom hname 0 t
  refine ⟨hsublist, Tag.inside_of_mem_scanFrom hname 0 t, ?_⟩
  rintro usage husage rfl
  obtain ⟨tag, htag, rfl⟩ := List.mem_map.1 husage
  obtain ⟨hscan, hattributes⟩ := List.mem_filter.1 htag
  refine ⟨by simpa using hattributes, tag, ?_, hscan, rfl⟩
  exact hsublist.subset (List.mem_filter.2 ⟨hscan, decide_eq_true rfl⟩)

/-- A tag of the component by itself and two inside tags of another component; the name that goes on
with a letter outside ASCII is none. -/
theorem Usage.tags_found_for_name_nested :
    let t := "<A x=1 <Box y=2/>\n<Boxé z=3 <A <Box w=4 />\n<Box v=5>".toList
    isComponentName "Box".toList = true ∧
      (Scanner.lexical.findTags t "Box".toList).map Tag.start = [7, 31, 43] ∧
      ((Tag.scan .anyComponent t).filter fun tag => tag.component = "Box".toList).Sublist
        (Scanner.lexical.findTags t "Box".toList) ∧
      ∃ outer ∈ Tag.scan .anyComponent t, outer.component ≠ "Box".toList ∧
        outer.start < 31 ∧ 31 < outer.stop := by
  intro t
  have hname : isComponentName "Box".toList = true := by decide
  have hstarts : (Scanner.lexical.findTags t "Box".toList).map Tag.start = [7, 31, 43] := by
    decide +kernel
  have hnested : ∀ tag ∈ Scanner.lexical.findTags t "Box".toList, tag.start = 31 →
      tag ∉ Tag.scan .anyComponent t := by decide +kernel
  obtain ⟨hsublist, hinside, -⟩ := Usage.tags_found_for_name hname t
  obtain ⟨tag, htag, hstart⟩ := List.mem_map.1 (hstarts ▸ (by simp) : 31 ∈
    (Scanner.lexical.findTags t "Box".toList).map Tag.start)
  exact ⟨hname, hstarts, hsublist, hstart ▸ hinside tag htag (hnested tag htag hstart)⟩

end PropAccord
