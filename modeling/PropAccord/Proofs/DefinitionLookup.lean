import PropAccord.Component.Scanner
import PropAccord.Proofs.DefinitionHeads

/-!
# Definitions of any component and definitions of one

Definitions are looked for in two ways: those of any component, to learn what a text defines, and the
first one of a given component, to widen it. At any one place both ways read the same definition, for
the name of a head is its last word. They part only where a definition of another component is passed
over: the one way goes on behind it, while the other may find its first definition inside.
-/

namespace PropAccord

set_option autoImplicit false

/-! ## The name of a head -/

/-- The characters of names at the end of a text, up to what follows them. -/
def Text.lastWord (t : Text) : Text :=
  ((t.reverse.dropWhile fun c => !isNameChar c).takeWhile isNameChar).reverse

theorem Text.lastWord_append {c : Char} (hc : isNameChar c = false) {word tail : Text}
    (hword : ∀ a ∈ word, isNameChar a = true) (hne : word ≠ [])
    (htail : ∀ a ∈ tail, isNameChar a = false) (front : Text) :
    lastWord (front ++ c :: (word ++ tail)) = word := by
  have hreverse : (front ++ c :: (word ++ tail)).reverse =
      tail.reverse ++ (word.reverse ++ c :: front.reverse) := by simp
  have hdrop : (word.reverse ++ c :: front.reverse).dropWhile (fun a => !isNameChar a) =
      word.reverse ++ c :: front.reverse := by
    obtain ⟨a, rest, hrest⟩ := List.exists_cons_of_ne_nil (List.reverse_ne_nil_iff.2 hne)
    have ha : isNameChar a = true := hword a (List.mem_reverse.1 (hrest ▸ List.mem_cons_self))
    rw [hrest, List.cons_append, List.dropWhile_cons_of_neg (by simp [ha])]
  have htake : (word.reverse ++ c :: front.reverse).takeWhile isNameChar = word.reverse := by
    rw [List.takeWhile_append_of_pos fun a ha => hword a (List.mem_reverse.1 ha),
      List.takeWhile_cons_of_neg (by simp [hc]), List.append_nil]
  rw [lastWord, hreverse, List.dropWhile_append_of_pos, hdrop, htake, List.reverse_reverse]
  intro a ha
  rw [htail a (List.mem_reverse.1 ha)]
  rfl

namespace Definition

/-- The name of a head has a blank before it. -/
theorem exists_blank_of_mem_rests {form : Form} {t rest : Text}
    (h : rest ∈ (afterQualifier t).flatMap (afterKeyword form)) :
    ∃ front c, t = front ++ c :: rest ∧ isBlank c = true := by
  obtain ⟨q, -, word, -, gap, hgap, rfl⟩ := mem_rests_iff.1 h
  refine ⟨q ++ (word ++ gap.dropLast), gap.getLast hgap.nonempty, ?_, ?_⟩
  · conv_lhs => rw [← List.dropLast_append_getLast hgap.nonempty]
    simp
  · exact List.all_eq_true.1 hgap.blank _ (List.getLast_mem hgap.nonempty)

theorem isNameChar_eq_false_of_isNamedHead {form : Form} {t : Text}
    (h : isNamedHead form [] t = true) : ∀ c ∈ t, isNameChar c = false := by
  obtain ⟨u, b, rfl, hb, hu⟩ := exists_of_isNamedHead h
  intro c hc
  rcases List.mem_append.1 hc with hc | hc
  · rcases hu c hc with hblank | rfl
    · exact isNameChar_eq_false_of_isBlank hblank
    · rfl
  · rcases List.mem_cons.1 hc with rfl | hc
    · rfl
    · exact isNameChar_eq_false_of_isBlank (List.all_eq_true.1 hb c hc)

section

variable {form : Form} {name t : Text}

theorem lastWord_of_mem_rests {behind : Text} (hname : isComponentName name = true)
    (hrest : name ++ behind ∈ (afterQualifier t).flatMap (afterKeyword form))
    (hhead : isNamedHead form [] behind = true) : t.lastWord = name := by
  obtain ⟨front, c, rfl, hc⟩ := exists_blank_of_mem_rests hrest
  exact Text.lastWord_append (isNameChar_eq_false_of_isBlank hc) (isNameChar_of_mem_componentName hname)
    (identifier_ne_nil (isIdentifier_of_isComponentName hname))
    (isNameChar_eq_false_of_isNamedHead hhead) front

theorem isHead_iff : isHead form name t = true ↔ ∃ behind,
    name ++ behind ∈ (afterQualifier t).flatMap (afterKeyword form) ∧
      isNamedHead form [] behind = true := by
  rw [isHead, List.any_eq_true]
  constructor
  · rintro ⟨rest, hrest, hnamed⟩
    rw [isNamedHead_of_after?, Option.any_eq_true] at hnamed
    obtain ⟨behind, hbehind, hhead⟩ := hnamed
    rw [Text.after?_eq_some_iff.1 hbehind] at hrest
    exact ⟨behind, hrest, hhead⟩
  · rintro ⟨behind, hrest, hhead⟩
    refine ⟨_, hrest, ?_⟩
    rw [isNamedHead_of_after?, Text.after?_eq_some_iff.2 rfl]
    exact hhead

theorem isHead_of_headName? (h : headName? form .anyComponent t = some name) :
    isHead form name t = true := by
  obtain ⟨rest, hrest, hnamed⟩ := List.exists_of_findSome?_eq_some h
  obtain ⟨⟨name', behind⟩, hread, hnamed⟩ := Option.bind_eq_some_iff.1 hnamed
  simp only at hnamed
  split at hnamed
  · rename_i hhead
    obtain rfl := Option.some.inj hnamed
    rw [NamePattern.eq_append_of_read? hread] at hrest
    exact isHead_iff.2 ⟨behind, hrest, hhead⟩
  · cases hnamed

/-- The name of a head is its last word, so a text is the head of one component at most. -/
theorem headName?_anyComponent_eq_some_iff (hname : isComponentName name = true) :
    headName? form .anyComponent t = some name ↔ isHead form name t = true := by
  refine ⟨isHead_of_headName?, fun h => ?_⟩
  obtain ⟨behind, hrest, hhead⟩ := isHead_iff.1 h
  have hread : NamePattern.anyComponent.read? (name ++ behind) = some (name, behind) :=
    NamePattern.read?_anyComponent hname fun c hc =>
      isNameChar_eq_false_of_isNamedHead hhead c (List.mem_of_mem_head? hc)
  have hnamed : namedHead? form .anyComponent (name ++ behind) = some name := by
    rw [namedHead?, hread]
    exact if_pos hhead
  obtain ⟨other, hother⟩ : ∃ other, headName? form .anyComponent t = some other := by
    rw [← Option.isSome_iff_exists, headName?, List.findSome?_isSome_iff]
    exact ⟨_, hrest, by rw [hnamed]; rfl⟩
  obtain ⟨behind', hrest', hhead'⟩ := isHead_iff.1 (isHead_of_headName? hother)
  rw [hother, ← lastWord_of_mem_rests hname hrest hhead,
    lastWord_of_mem_rests (isComponentName_of_headName? hother) hrest' hhead']

end

/-- Where a definition of one component is read, it is the one that is read for any component. -/
theorem read?_exactly_iff {form : Form} {name : Text} (hname : isComponentName name = true) {s : Text}
    {r : Reading} :
    read? form (.exactly name) s = some r ↔ read? form .anyComponent s = some r ∧ r.name = name := by
  have hfree : '{' ∉ name := not_mem_of_isComponentName hname (by decide)
  by_cases hbrace : '{' ∈ s
  · obtain ⟨head, inside, rfl, hhead⟩ := List.eq_append_cons_of_mem hbrace
    rw [read?_exactly_append form hhead inside hfree, read?_append form hhead inside opens_anyComponent]
    constructor
    · intro h
      split at h
      · rename_i hnamed
        obtain ⟨after, hafter, rfl⟩ := Option.map_eq_some_iff.1 h
        rw [(headName?_anyComponent_eq_some_iff hname).2 hnamed, hafter]
        exact ⟨rfl, rfl⟩
      · cases h
    · rintro ⟨h, rfl⟩
      obtain ⟨name, hnamed, h⟩ := Option.bind_eq_some_iff.1 h
      obtain ⟨after, hafter, rfl⟩ := Option.map_eq_some_iff.1 h
      rw [if_pos (isHead_of_headName? hnamed), hafter]
      rfl
  · simp only [read?_eq_none_of_not_mem form _ hbrace, reduceCtorEq, false_and]

/-! ## Where definitions are found -/

/-- The scan of a text that stands `offset` characters into the whole finds the definition in the
characters from `first` up to `stop`. -/
inductive FoundAt (form : Form) (pattern : NamePattern) :
    (offset : Nat) → Text → Definition → (first stop : Nat) → Prop
  | here {offset : Nat} {s : Text} {r : Reading} : read? form pattern s = some r →
    FoundAt form pattern offset s (ofReading form offset s r) offset
      (offset + (s.length - r.after.length))
  | behind {offset : Nat} {s : Text} {r : Reading} {d : Definition} {first stop : Nat} :
    read? form pattern s = some r →
    FoundAt form pattern (offset + (s.length - r.after.length)) r.after d first stop →
    FoundAt form pattern offset s d first stop
  | later {offset : Nat} {c : Char} {s : Text} {d : Definition} {first stop : Nat} :
    read? form pattern (c :: s) = none → FoundAt form pattern (offset + 1) s d first stop →
    FoundAt form pattern offset (c :: s) d first stop

/-- The definition that is found for the name begins strictly inside one of the same form and of another
component, which is found among all definitions. -/
def BeginsInside (name t : Text) (m : Definition) : Prop :=
  ∃ first stop outer first' stop', FoundAt m.form (.exactly name) 0 t m first stop ∧
    outer ∈ scanAll t ∧ FoundAt m.form .anyComponent 0 t outer first' stop' ∧ outer.name ≠ name ∧
    first' < first ∧ first < stop'

theorem FoundAt.of_skips {form : Form} {pattern : NamePattern} {before s : Text} {offset : Nat}
    {d : Definition} {first stop : Nat} (hskips : Skips form pattern before s)
    (h : FoundAt form pattern (offset + before.length) s d first stop) :
    FoundAt form pattern offset (before ++ s) d first stop := by
  induction before generalizing offset with
  | nil => exact h
  | cons c before ih =>
    refine .later hskips.1 (ih hskips.2 ?_)
    rwa [Nat.add_assoc, Nat.add_comm 1, ← List.length_cons]

theorem mem_scanFrom_iff {form : Form} {pattern : NamePattern} {offset : Nat} {t : Text}
    {d : Definition} :
    d ∈ scanFrom form pattern offset t ↔ ∃ first stop, FoundAt form pattern offset t d first stop := by
  constructor
  · intro h
    induction offset, t using scanFrom.induct form pattern with
    | case1 offset =>
      rw [scanFrom_nil] at h
      cases h
    | case2 offset c rest r hr ih =>
      rw [scanFrom_of_read? offset hr] at h
      rcases List.mem_cons.1 h with rfl | h
      · exact ⟨_, _, .here hr⟩
      · obtain ⟨first, stop, hfound⟩ := ih h
        exact ⟨first, stop, .behind hr hfound⟩
    | case3 offset c rest hr ih =>
      rw [scanFrom_of_read?_eq_none offset hr] at h
      obtain ⟨first, stop, hfound⟩ := ih h
      exact ⟨first, stop, .later hr hfound⟩
  · rintro ⟨first, stop, h⟩
    induction h with
    | here hr =>
      rw [scanFrom_of_reading hr]
      exact List.mem_cons_self
    | behind hr _ ih =>
      rw [scanFrom_of_reading hr]
      exact List.mem_cons_of_mem _ ih
    | later hr _ ih =>
      rw [scanFrom_of_read?_eq_none _ hr]
      exact ih

section

variable {form : Form} {name : Text} (hname : isComponentName name = true)
include hname

theorem read?_exactly_eq_none {s : Text} (h : read? form .anyComponent s = none) :
    read? form (.exactly name) s = none := by
  cases hread : read? form (.exactly name) s with
  | none => rfl
  | some r =>
    rw [((read?_exactly_iff hname).1 hread).1] at h
    cases h

/-- A component that has a definition among all of them has one that is found for its name. -/
theorem scanFrom_exactly_ne_nil {offset : Nat} {t : Text}
    (h : ∃ d ∈ scanFrom form .anyComponent offset t, d.name = name) :
    scanFrom form (.exactly name) offset t ≠ [] := by
  induction offset, t using scanFrom.induct form .anyComponent with
  | case1 offset => simp [scanFrom_nil] at h
  | case2 offset c rest r hr ih =>
    by_cases hown : r.name = name
    · rw [scanFrom_of_read? offset ((read?_exactly_iff hname).2 ⟨hr, hown⟩)]
      exact List.cons_ne_nil _ _
    · obtain ⟨d, hd, hd'⟩ := h
      rw [scanFrom_of_read? offset hr] at hd
      have hlater := (List.mem_cons.1 hd).resolve_left (by rintro rfl; exact hown hd')
      -- Were there none from here on, there would be none behind the definition that was passed.
      intro hnil
      obtain ⟨hinside, hafter⟩ := suffix_of_read? hr
      obtain ⟨passed, hpassed⟩ := hafter.trans hinside
      rw [← hpassed, scanFrom_eq_nil_iff, skips_append] at hnil
      exact ih ⟨d, hlater, hd'⟩ (scanFrom_eq_nil_iff.2 hnil.2)
  | case3 offset c rest hr ih =>
    rw [scanFrom_of_read?_eq_none offset hr] at h
    rw [scanFrom_of_read?_eq_none offset (read?_exactly_eq_none hname hr)]
    exact ih h

/-- Where a definition of another component is passed over, the first definition of a component begins
inside it, or it is the first one that is found from behind it on. -/
theorem head?_scanFrom_of_passed {offset : Nat} {t : Text} {r : Reading} {m : Definition}
    (hr : read? form .anyComponent t = some r) (hother : r.name ≠ name)
    (h : (scanFrom form (.exactly name) offset t).head? = some m) :
    (∃ first stop, FoundAt form (.exactly name) offset t m first stop ∧ offset < first ∧
        first < offset + (t.length - r.after.length)) ∨
      (scanFrom form (.exactly name) (offset + (t.length - r.after.length)) r.after).head? = some m ∧
        ∀ first stop, FoundAt form (.exactly name) (offset + (t.length - r.after.length)) r.after m
          first stop → FoundAt form (.exactly name) offset t m first stop := by
  obtain ⟨hinside, hafter⟩ := suffix_of_read? hr
  obtain ⟨passed, hpassed⟩ := hafter.trans hinside
  have hlength : t.length - r.after.length = passed.length := by
    rw [← hpassed, List.length_append, Nat.add_sub_cancel]
  rw [hlength]
  obtain ⟨before, s, r', hs, hskips, hr', hm⟩ := head?_scanFrom_eq_some_iff.1 h
  by_cases hlt : before.length < passed.length
  · left
    have hne : before ≠ [] := by
      rintro rfl
      rw [hs, List.nil_append] at hr
      obtain ⟨hany, hown⟩ := (read?_exactly_iff hname).1 hr'
      rw [hr] at hany
      exact hother (Option.some.inj hany ▸ hown)
    obtain ⟨stop, hfound⟩ : ∃ stop,
        FoundAt form (.exactly name) offset t m (offset + before.length) stop := by
      rw [hs, hm]
      exact ⟨_, .of_skips hskips (.here hr')⟩
    exact ⟨_, stop, hfound, Nat.lt_add_of_pos_right (List.length_pos_iff.2 hne),
      Nat.add_lt_add_left hlt offset⟩
  · right
    obtain ⟨between, rfl⟩ := List.prefix_of_prefix_length_le ⟨r.after, hpassed⟩ ⟨s, hs.symm⟩
      (Nat.le_of_not_lt hlt)
    have hrest : r.after = between ++ s := by
      rw [← hpassed, List.append_assoc] at hs
      exact List.append_cancel_left hs
    obtain ⟨hskips, hskips'⟩ := skips_append.1 hskips
    rw [List.length_append, ← Nat.add_assoc] at hm
    refine ⟨head?_scanFrom_eq_some_iff.2 ⟨between, s, r', hrest, hskips', hr', hm⟩, ?_⟩
    intro first stop hfound
    rw [← hpassed]
    exact .of_skips (hrest ▸ hskips) hfound

/-- The first definition that is found for a name is the first one of that name among all, or it begins
inside a definition of another component. -/
theorem find?_scanFrom_or_inside {offset : Nat} {t : Text} {m : Definition}
    (h : (scanFrom form (.exactly name) offset t).head? = some m) :
    (scanFrom form .anyComponent offset t).find? (fun d => d.name = name) = some m ∨
      ∃ first stop outer first' stop', FoundAt form (.exactly name) offset t m first stop ∧
        FoundAt form .anyComponent offset t outer first' stop' ∧ outer.name ≠ name ∧
        first' < first ∧ first < stop' := by
  induction offset, t using scanFrom.induct form .anyComponent with
  | case1 offset =>
    rw [scanFrom_nil] at h
    cases h
  | case2 offset c rest r hr ih =>
    rw [scanFrom_of_read? offset hr]
    by_cases hown : r.name = name
    · rw [head?_scanFrom_of_read? ((read?_exactly_iff hname).2 ⟨hr, hown⟩)] at h
      left
      rw [List.find?_cons_of_pos (by simpa using hown)]
      exact h
    · rw [List.find?_cons_of_neg (by simpa using hown)]
      rcases head?_scanFrom_of_passed hname hr hown h with
        ⟨first, stop, hfound, hlt, hlt'⟩ | ⟨hhead, hlift⟩
      · exact Or.inr ⟨first, stop, _, offset, _, hfound, .here hr, hown, hlt, hlt'⟩
      · refine (ih hhead).imp id ?_
        rintro ⟨first, stop, outer, first', stop', hfound, houter, hplaces⟩
        exact ⟨first, stop, outer, first', stop', hlift first stop hfound, .behind hr houter, hplaces⟩
  | case3 offset c rest hr ih =>
    rw [scanFrom_of_read?_eq_none offset (read?_exactly_eq_none hname hr)] at h
    rw [scanFrom_of_read?_eq_none offset hr]
    refine (ih h).imp id ?_
    rintro ⟨first, stop, outer, first', stop', hfound, houter, hplaces⟩
    exact ⟨first, stop, outer, first', stop', .later (read?_exactly_eq_none hname hr) hfound,
      .later hr houter, hplaces⟩

end

theorem form_of_head?_scan {form : Form} {pattern : NamePattern} {t : Text} {d : Definition}
    (h : (scan form pattern t).head? = some d) : d.form = form := by
  obtain ⟨before, s, r, -, -, -, rfl⟩ := head?_scan_eq_some_iff.1 h
  rfl

end Definition

/-- A component that has a definition among all of a text is found in it. What is found is the first
definition of that name among all, functions before arrows, or it begins strictly inside a definition
of the same form and of another component. -/
theorem Definition.found_for_name {name : Text} (hname : isComponentName name = true) (t : Text) :
    ((∃ d ∈ Scanner.lexical.definitions t, d.name = name) →
      ∃ m, Scanner.lexical.findDefinition? t name = some m) ∧
    ∀ m, Scanner.lexical.findDefinition? t name = some m →
      (Scanner.lexical.definitions t).find? (fun d => d.name = name) = some m ∨
        m.BeginsInside name t := by
  constructor
  · rintro ⟨d, hd, hdname⟩
    rw [← Option.isSome_iff_exists, Option.isSome_iff_ne_none]
    intro hnone
    obtain ⟨hfunction, harrow⟩ := find?_eq_none_iff.1 hnone
    rcases List.mem_append.1 hd with hd | hd
    · exact scanFrom_exactly_ne_nil hname ⟨d, hd, hdname⟩ hfunction
    · exact scanFrom_exactly_ne_nil hname ⟨d, hd, hdname⟩ harrow
  · intro m hm
    have hform : ∀ form, (scan form (.exactly name) t).head? = some m →
        scan form .anyComponent t ⊆ scanAll t →
        (scan form .anyComponent t).find? (fun d => d.name = name) = some m ∨
          m.BeginsInside name t := by
      intro form hhead hsubset
      refine (find?_scanFrom_or_inside hname hhead).imp id ?_
      rintro ⟨first, stop, outer, first', stop', hfound, houter, hplaces⟩
      obtain rfl := form_of_head?_scan hhead
      exact ⟨first, stop, outer, first', stop', hfound,
        hsubset (mem_scanFrom_iff.2 ⟨first', stop', houter⟩), houter, hplaces⟩
    rcases cases_of_find? hm with hfunction | ⟨hnil, harrow⟩
    · refine (hform .function hfunction (List.subset_append_left _ _)).imp (fun hfind => ?_) id
      exact (List.find?_append ..).trans (by rw [hfind]; rfl)
    · have hnone : (scan .function .anyComponent t).find? (fun d => d.name = name) = none := by
        rw [List.find?_eq_none]
        intro d hd hdname
        exact scanFrom_exactly_ne_nil hname ⟨d, hd, of_decide_eq_true hdname⟩ hnil
      refine (hform .arrow harrow (List.subset_append_right _ _)).imp (fun hfind => ?_) id
      exact (List.find?_append ..).trans (by rw [hnone, hfind]; rfl)

/-- The definition of the second component stands inside the parameter list of the first one, and only
a search for its name finds it. -/
theorem Definition.found_for_name_inside :
    let t := "function A({ a = function B({ b }) }) {}".toList
    isComponentName ['B'] = true ∧
      (Scanner.lexical.definitions t).map Definition.name = [['A']] ∧
      ∃ m, Scanner.lexical.findDefinition? t ['B'] = some m ∧ m.raw = " b ".toList ∧
        m.BeginsInside ['B'] t := by
  intro t
  have hname : isComponentName ['B'] = true := by decide
  have hall : (Scanner.lexical.definitions t).map Definition.name = [['A']] := by decide +kernel
  have hfound : (Scanner.lexical.findDefinition? t ['B']).map Definition.raw = some " b ".toList := by
    decide +kernel
  have hnone : (Scanner.lexical.definitions t).find? (fun d => d.name = ['B']) = none := by
    decide +kernel
  obtain ⟨m, hm, hraw⟩ := Option.map_eq_some_iff.1 hfound
  have hinside := ((Definition.found_for_name hname t).2 m hm).resolve_left (by rw [hnone]; nofun)
  exact ⟨hname, hall, m, hm, hraw, hinside⟩

end PropAccord
