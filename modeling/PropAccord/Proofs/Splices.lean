import Mathlib.Data.List.Pairwise
import PropAccord.Proofs.Edits

/-!
# Edits as a splice

Edits are sorted, each one is held against the one before it, and they are carried out from the last
to the first. Here this is compared with what is meant by it: edits are refused unless they lie inside
the text and no two of them overlap, and else all their spans are exchanged at once, from left to
right. Sorted spans that do not overlap come one behind the other, so it is enough to look at
neighbours. The order in which edits with different spans are given does not count; a file plan sorts
its edits before they are sorted again.
-/

namespace PropAccord

set_option autoImplicit false

namespace Edit

/-- The spans share a character, or one of them lies strictly inside the other. -/
def Overlaps (a b : Edit) : Prop := a.start < b.stop ∧ b.start < a.stop

/-- The edits lie inside a text of the given length and no two of them overlap. -/
structure WellFormed (length : Nat) (edits : List Edit) : Prop where
  inside : ∀ e ∈ edits, 0 ≤ e.start ∧ e.start ≤ e.stop ∧ e.stop ≤ length
  apart : edits.Pairwise fun a b => ¬ Overlaps a b

/-- The edits with the given span, in their order. -/
def atSpan (start stop : Int) (edits : List Edit) : List Edit :=
  edits.filter fun e => e.start = start ∧ e.stop = stop

/-- The second list has the edits of the first one by increasing spans, and those with the same span
in the order of the first one. -/
structure StablySorted (edits sorted : List Edit) : Prop where
  perm : sorted.Perm edits
  increasing : sorted.Pairwise fun a b =>
    a.start < b.start ∨ a.start = b.start ∧ a.stop ≤ b.stop
  stable : ∀ start stop, atSpan start stop sorted = atSpan start stop edits

/-- The text with all spans exchanged at once: the piece before the first span, the first new text, the
piece between the first two spans, and so on up to the piece behind the last span. -/
def splice (edits : List Edit) (text : Text) : Text := weave id id text 0 edits

/-! ## The order of edits -/

theorem le_iff {a b : Edit} :
    le a b = true ↔ a.start < b.start ∨ a.start = b.start ∧ a.stop ≤ b.stop := by
  simp only [le, Bool.or_eq_true, Bool.and_eq_true, decide_eq_true_eq, beq_iff_eq]

theorem mem_atSpan {start stop : Int} {edits : List Edit} {e : Edit} :
    e ∈ atSpan start stop edits ↔ e ∈ edits ∧ e.start = start ∧ e.stop = stop := by
  simp only [atSpan, List.mem_filter, decide_eq_true_eq]

theorem atSpan_cons_of_eq {start stop : Int} {e : Edit} (hstart : e.start = start)
    (hstop : e.stop = stop) (rest : List Edit) :
    atSpan start stop (e :: rest) = e :: atSpan start stop rest :=
  List.filter_cons_of_pos (decide_eq_true ⟨hstart, hstop⟩)

theorem atSpan_cons_of_ne {start stop : Int} {e : Edit} (h : ¬ (e.start = start ∧ e.stop = stop))
    (rest : List Edit) : atSpan start stop (e :: rest) = atSpan start stop rest :=
  List.filter_cons_of_neg (by simpa using h)

theorem stablySorted_sort (edits : List Edit) : StablySorted edits (sort edits) := by
  have hperm : (sort edits).Perm edits := List.mergeSort_perm edits le
  refine ⟨hperm, (List.pairwise_mergeSort le_trans le_total edits).imp le_iff.1, ?_⟩
  intro start stop
  -- The edits with one span are sorted among themselves, so sorting keeps them as a sublist.
  have hsorted : (atSpan start stop edits).Pairwise fun a b => le a b = true := by
    apply List.pairwise_of_forall_mem_list
    intro a ha b hb
    obtain ⟨-, hstart, hstop⟩ := mem_atSpan.1 ha
    obtain ⟨-, hstart', hstop'⟩ := mem_atSpan.1 hb
    exact le_iff.2 (Or.inr ⟨hstart.trans hstart'.symm, by omega⟩)
  have hkept : (atSpan start stop edits).Sublist (sort edits) :=
    List.sublist_mergeSort le_trans le_total hsorted List.filter_sublist
  have hsublist : (atSpan start stop edits).Sublist (atSpan start stop (sort edits)) := by
    simpa only [atSpan, List.filter_filter, Bool.and_self] using
      hkept.filter fun e => decide (e.start = start ∧ e.stop = stop)
  have hlength : (atSpan start stop edits).length = (atSpan start stop (sort edits)).length :=
    (hperm.filter _).length_eq.symm
  exact (hsublist.eq_of_length hlength).symm

/-- Two sorted lists with the same edits at each span are equal. -/
theorem eq_of_forall_atSpan_eq {a b : List Edit} (ha : a.Pairwise fun x y => le x y = true)
    (hb : b.Pairwise fun x y => le x y = true)
    (h : ∀ start stop, atSpan start stop a = atSpan start stop b) : a = b := by
  induction a generalizing b with
  | nil =>
    cases b with
    | nil => rfl
    | cons y b =>
      have hy := h y.start y.stop
      rw [atSpan_cons_of_eq rfl rfl] at hy
      cases hy
  | cons x a ih =>
    have hmem : ∀ e, e ∈ x :: a ↔ e ∈ b := by
      intro e
      have he : e ∈ atSpan e.start e.stop (x :: a) ↔ e ∈ atSpan e.start e.stop b := by rw [h]
      simpa only [mem_atSpan, and_self, and_true] using he
    cases b with
    | nil => exact absurd ((hmem x).1 List.mem_cons_self) List.not_mem_nil
    | cons y b =>
      have hspan : y.start = x.start ∧ y.stop = x.stop := by
        rcases List.mem_cons.1 ((hmem y).2 List.mem_cons_self) with rfl | hy
        · exact ⟨rfl, rfl⟩
        rcases List.mem_cons.1 ((hmem x).1 List.mem_cons_self) with rfl | hx
        · exact ⟨rfl, rfl⟩
        have hxy := le_iff.1 (List.rel_of_pairwise_cons ha hy)
        have hyx := le_iff.1 (List.rel_of_pairwise_cons hb hx)
        omega
      have hhead := h x.start x.stop
      rw [atSpan_cons_of_eq rfl rfl, atSpan_cons_of_eq hspan.1 hspan.2] at hhead
      obtain rfl := (List.cons.inj hhead).1
      congr 1
      refine ih ha.of_cons hb.of_cons fun start stop => ?_
      have hrest := h start stop
      by_cases hx : x.start = start ∧ x.stop = stop
      · rw [atSpan_cons_of_eq hx.1 hx.2, atSpan_cons_of_eq hx.1 hx.2] at hrest
        exact (List.cons.inj hrest).2
      · rwa [atSpan_cons_of_ne hx, atSpan_cons_of_ne hx] at hrest

theorem StablySorted.unique {edits a b : List Edit} (ha : StablySorted edits a)
    (hb : StablySorted edits b) : a = b :=
  eq_of_forall_atSpan_eq (ha.increasing.imp le_iff.2) (hb.increasing.imp le_iff.2)
    fun start stop => (ha.stable start stop).trans (hb.stable start stop).symm

/-! ## The check -/

section

variable {length : Nat} {edits : List Edit}

theorem inOrder_of_check {previous : Int} (h : check length previous edits = .ok ()) :
    InOrder length edits ∧ ∀ e ∈ edits, previous ≤ e.start := by
  induction edits generalizing previous with
  | nil => exact ⟨⟨nofun, List.Pairwise.nil⟩, nofun⟩
  | cons e rest ih =>
    rw [check] at h
    split at h
    · cases h
    split at h
    · cases h
    rename_i hinside hbehind
    obtain ⟨hrest, hlater⟩ := ih h
    refine ⟨⟨?_, List.pairwise_cons.2 ⟨hlater, hrest.behind⟩⟩, ?_⟩
    · intro e' he'
      rcases List.mem_cons.1 he' with rfl | he'
      · omega
      · exact hrest.inside e' he'
    · intro e' he'
      rcases List.mem_cons.1 he' with rfl | he'
      · omega
      · have hbefore := hlater e' he'
        omega

theorem check_eq_ok_iff : check length 0 edits = .ok () ↔ InOrder length edits :=
  ⟨fun h => (inOrder_of_check h).1, fun h => check_of_ordered h fun e he => (h.inside e he).1⟩

/-- What is refused names the edit at which it is noticed. -/
theorem exists_of_check_eq_error {previous : Int} {fault : Fault}
    (h : check length previous edits = .error fault) :
    ∃ e ∈ edits, fault = .editOutside e.start e.stop length ∨ fault = .overlap e.start e.stop := by
  induction edits generalizing previous with
  | nil => cases h
  | cons e rest ih =>
    rw [check] at h
    split at h
    · exact ⟨e, List.mem_cons_self, Or.inl (Except.error.inj h).symm⟩
    split at h
    · exact ⟨e, List.mem_cons_self, Or.inr (Except.error.inj h).symm⟩
    obtain ⟨e', he', hfault⟩ := ih h
    exact ⟨e', List.mem_cons_of_mem e he', hfault⟩

theorem WellFormed.perm {edits' : List Edit} (h : edits.Perm edits')
    (hedits : WellFormed length edits) : WellFormed length edits' := by
  refine ⟨fun e he => hedits.inside e (h.mem_iff.2 he), (h.pairwise_iff ?_).1 hedits.apart⟩
  exact fun hab hba => hab ⟨hba.2, hba.1⟩

/-- Sorted edits come one behind the other exactly if no two of them overlap. -/
theorem inOrder_iff_wellFormed
    (hsorted : edits.Pairwise fun a b => a.start < b.start ∨ a.start = b.start ∧ a.stop ≤ b.stop) :
    InOrder length edits ↔ WellFormed length edits := by
  constructor
  · intro h
    refine ⟨h.inside, h.behind.imp ?_⟩
    rintro a b hab ⟨-, hba⟩
    omega
  · intro h
    refine ⟨h.inside, (hsorted.and h.apart).imp_of_mem ?_⟩
    rintro a b ha hb ⟨hle, hapart⟩
    have hinside := h.inside a ha
    have hinside' := h.inside b hb
    simp only [Overlaps] at hapart
    omega

theorem check_sort_eq_ok_iff : check length 0 (sort edits) = .ok () ↔ WellFormed length edits := by
  have hsort := stablySorted_sort edits
  rw [check_eq_ok_iff, inOrder_iff_wellFormed hsort.increasing]
  exact ⟨WellFormed.perm hsort.perm, WellFormed.perm hsort.perm.symm⟩

theorem splice_eq_foldr {text : Text} (h : check text.length 0 edits = .ok ()) :
    splice edits text = edits.foldr replace text := by
  rw [foldr_replace_eq h (Nat.zero_le _)]
  rfl

end

theorem apply_congr {edits edits' : List Edit} (h : sort edits = sort edits') (text : Text) :
    apply edits text = apply edits' text := by
  rw [apply, apply, h]

/-- Edits are carried out exactly if they lie inside the text and do not overlap, and what comes of
them is the splice of the edits in stable order. Only the order of edits with the same span counts. A
file plan is carried out as its insertions followed by its replacements. -/
theorem apply_eq_splice (text : Text) (edits : List Edit) :
    (∃ sorted, StablySorted edits sorted ∧ (∀ other, StablySorted edits other → other = sorted) ∧
      (WellFormed text.length edits → apply edits text = .ok (splice sorted text))) ∧
    (¬ WellFormed text.length edits → ∃ e ∈ edits,
      apply edits text = .error (.editOutside e.start e.stop text.length) ∨
        apply edits text = .error (.overlap e.start e.stop)) ∧
    (∀ edits', edits'.Perm edits →
      (∀ start stop, atSpan start stop edits' = atSpan start stop edits) →
      apply edits' text = apply edits text) ∧
    ∀ f : FilePlan, f.snapshot.text = text →
      f.insertions.map Insertion.edit ++ f.replacements = edits → f.apply = apply edits text := by
  have hsort := stablySorted_sort edits
  refine ⟨⟨sort edits, hsort, fun other hother => hother.unique hsort, ?_⟩, ?_, ?_, ?_⟩
  · intro h
    have hcheck := check_sort_eq_ok_iff.2 h
    rw [apply, hcheck, splice_eq_foldr hcheck]
    rfl
  · intro h
    cases hcheck : check text.length 0 (sort edits) with
    | ok _ => exact absurd (check_sort_eq_ok_iff.1 hcheck) h
    | error fault =>
      have happly : apply edits text = .error fault := by
        rw [apply, hcheck]
        rfl
      obtain ⟨e, he, hfault⟩ := exists_of_check_eq_error hcheck
      rw [happly]
      exact ⟨e, hsort.perm.mem_iff.1 he, hfault.imp (congrArg _) (congrArg _)⟩
  · intro edits' hperm hspans
    apply apply_congr
    have hsort' := stablySorted_sort edits'
    have hsorted : StablySorted edits (sort edits') :=
      ⟨hsort'.perm.trans hperm, hsort'.increasing,
        fun start stop => (hsort'.stable start stop).trans (hspans start stop)⟩
    exact hsorted.unique hsort
  · rintro f rfl rfl
    exact apply_congr (sort_sort _) f.snapshot.text

end Edit

end PropAccord
