import PropAccord.Edit.Plan

/-!
# Edits that are in order

Edits that come in order and inside the text are carried out as they are given: sorting leaves them
alone and the check passes. What comes of them is the text with their spans exchanged, and it is the
same to exchange them in the units that encode it. Two kinds of edits are needed for themselves,
insertions at increasing places and a single replacement.
-/

namespace PropAccord

set_option autoImplicit false

namespace Text

section

variable {α : Type} (code : Char → List α)

/-- The number of units before the character with number `n` of a text, where `code` gives the units of
each character. -/
def codeOffset (t : Text) (n : Nat) : Nat := ((t.take n).flatMap code).length

theorem flatMap_take_append_drop (t : Text) (n : Nat) :
    t.flatMap code = (t.take n).flatMap code ++ (t.drop n).flatMap code := by
  rw [← List.flatMap_append, List.take_append_drop]

theorem take_codeOffset (t : Text) (n : Nat) :
    (t.flatMap code).take (codeOffset code t n) = (t.take n).flatMap code := by
  rw [flatMap_take_append_drop code t n, codeOffset, List.take_left]

theorem drop_codeOffset (t : Text) (n : Nat) :
    (t.flatMap code).drop (codeOffset code t n) = (t.drop n).flatMap code := by
  rw [flatMap_take_append_drop code t n, codeOffset, List.drop_left]

theorem codeOffset_mono (t : Text) {m n : Nat} (h : m ≤ n) :
    codeOffset code t m ≤ codeOffset code t n := by
  have hsplit := flatMap_take_append_drop code (t.take n) m
  rw [List.take_take, Nat.min_eq_left h] at hsplit
  rw [codeOffset, codeOffset, hsplit, List.length_append]
  exact Nat.le_add_right _ _

theorem part_codeOffset (t : Text) (m n : Nat) :
    ((t.flatMap code).take (codeOffset code t n)).drop (codeOffset code t m) =
      ((t.take n).drop m).flatMap code := by
  rw [take_codeOffset]
  rcases Nat.le_total m n with h | h
  · have hoffset : codeOffset code t m = codeOffset code (t.take n) m := by
      rw [codeOffset, codeOffset, List.take_take, Nat.min_eq_left h]
    rw [hoffset, drop_codeOffset]
  · have hempty : (t.take n).drop m = [] :=
      List.drop_eq_nil_of_le (Nat.le_trans (List.length_take_le n t) h)
    rw [hempty, List.drop_eq_nil_of_le (codeOffset_mono code t h)]
    rfl

end

end Text

namespace Edit

theorem le_trans (a b c : Edit) (hab : le a b = true) (hbc : le b c = true) : le a c = true := by
  simp only [le, Bool.or_eq_true, Bool.and_eq_true, decide_eq_true_eq, beq_iff_eq] at *
  omega

theorem le_total (a b : Edit) : (le a b || le b a) = true := by
  simp only [le, Bool.or_eq_true, Bool.and_eq_true, decide_eq_true_eq, beq_iff_eq]
  omega

theorem sort_sort (edits : List Edit) : sort (sort edits) = sort edits :=
  List.mergeSort_of_pairwise (List.pairwise_mergeSort le_trans le_total edits)

/-- The edits lie inside a text of the given length, each behind the ones before it. -/
structure InOrder (length : Nat) (edits : List Edit) : Prop where
  inside : ∀ e ∈ edits, 0 ≤ e.start ∧ e.start ≤ e.stop ∧ e.stop ≤ length
  behind : edits.Pairwise fun a b => a.stop ≤ b.start

theorem check_of_ordered {length : Nat} {previous : Int} {edits : List Edit}
    (h : InOrder length edits) (hb : ∀ e ∈ edits, previous ≤ e.start) :
    check length previous edits = .ok () := by
  induction edits generalizing previous with
  | nil => rfl
  | cons e rest ih =>
    obtain ⟨hbehind, hrest⟩ := List.pairwise_cons.1 h.behind
    have hinside := h.inside e List.mem_cons_self
    have hprevious := hb e List.mem_cons_self
    rw [check, if_neg (by omega), if_neg (by omega)]
    exact ih ⟨fun e' he' => h.inside e' (List.mem_cons_of_mem e he'), hrest⟩ hbehind

/-- A list with ordered spans exchanged from `start` on, where what lies outside the spans is kept. The
offsets of the edits are taken to the list by `place`, and their texts by `written`. -/
def weave {α : Type} (place : Nat → Nat) (written : Text → List α) (old : List α) (start : Nat) :
    List Edit → List α
  | [] => old.drop (place start)
  | e :: rest =>
    (old.take (place e.start.toNat)).drop (place start) ++ written e.text ++
      weave place written old e.stop.toNat rest

/-- Spans can be exchanged in a text or in its units. -/
theorem weave_flatMap {α : Type} (code : Char → List α) (place : Nat → Nat) (t : Text) (start : Nat)
    (edits : List Edit) :
    weave (fun n => t.codeOffset code (place n)) (fun s => s.flatMap code) (t.flatMap code) start
        edits =
      (weave place id t start edits).flatMap code := by
  induction edits generalizing start with
  | nil => exact Text.drop_codeOffset code t (place start)
  | cons e rest ih =>
    rw [weave, weave, ih, Text.part_codeOffset, List.flatMap_append, List.flatMap_append]
    rfl

/-- It does not matter whether the offsets are taken to the list before or while it is woven. -/
theorem weave_map {α : Type} {place : Nat → Nat} {f : Edit → Edit} {edits : List Edit}
    (h : ∀ e ∈ edits, (f e).start.toNat = place e.start.toNat ∧
      (f e).stop.toNat = place e.stop.toNat ∧ (f e).text = e.text)
    (written : Text → List α) (old : List α) (start : Nat) :
    weave id written old (place start) (edits.map f) = weave place written old start edits := by
  induction edits generalizing start with
  | nil => rfl
  | cons e rest ih =>
    obtain ⟨hstart, hstop, htext⟩ := h e List.mem_cons_self
    rw [List.map_cons, weave, weave, hstart, hstop, htext,
      ih fun e' he' => h e' (List.mem_cons_of_mem e he')]
    rfl

theorem foldr_replace_eq {text : Text} {previous : Nat} {edits : List Edit}
    (h : check text.length previous edits = .ok ()) (hp : previous ≤ text.length) :
    edits.foldr replace text = text.take previous ++ weave id id text previous edits := by
  induction edits generalizing previous with
  | nil => exact (List.take_append_drop previous text).symm
  | cons e rest ih =>
    rw [check] at h
    split at h
    · cases h
    split at h
    · cases h
    rename_i hinside hafter
    have hstop : (e.stop.toNat : Int) = e.stop := Int.toNat_of_nonneg (by omega)
    rw [← hstop] at h
    have hrest := ih h (by omega)
    have hlength : (text.take e.stop.toNat).length = e.stop.toNat := by
      rw [List.length_take]
      omega
    have hbefore : text.take e.start.toNat =
        text.take previous ++ (text.take e.start.toNat).drop previous := by
      have hsplit := List.take_append_drop previous (text.take e.start.toNat)
      rw [List.take_take, Nat.min_eq_left (by omega)] at hsplit
      exact hsplit.symm
    rw [List.foldr_cons, hrest, replace, List.take_append_of_le_length (by omega), List.take_take,
      Nat.min_eq_left (by omega), List.drop_left' hlength, weave, hbefore]
    simp only [id, List.append_assoc]

namespace InOrder

variable {length : Nat} {edits : List Edit}

theorem sort_eq (h : InOrder length edits) : sort edits = edits := by
  apply List.mergeSort_of_pairwise
  refine h.behind.imp_of_mem fun {a b} ha hb hab => ?_
  have hinside := h.inside a ha
  have hinside' := h.inside b hb
  simp only [le, Bool.or_eq_true, Bool.and_eq_true, beq_iff_eq, decide_eq_true_eq]
  omega

theorem apply_eq {text : Text} (h : InOrder text.length edits) :
    apply edits text = .ok (edits.foldr replace text) := by
  rw [apply, h.sort_eq, check_of_ordered h fun e he => (h.inside e he).1]
  rfl

end InOrder

end Edit

theorem Insertion.inOrder {length : Nat} {insertions : List Insertion}
    (hs : insertions.Pairwise fun i j => i.offset ≤ j.offset)
    (hb : ∀ i ∈ insertions, 0 ≤ i.offset ∧ i.offset ≤ length) :
    Edit.InOrder length (insertions.map Insertion.edit) := by
  refine ⟨?_, List.pairwise_map.2 hs⟩
  simp only [List.forall_mem_map, Insertion.edit]
  exact fun i hi => ⟨(hb i hi).1, Int.le_refl _, (hb i hi).2⟩

namespace FilePlan

theorem apply_eq_ok {f : FilePlan} {text : Text} (h : f.apply = .ok text) :
    Edit.check f.snapshot.text.length 0 f.edits = .ok () ∧
      text = f.edits.foldr Edit.replace f.snapshot.text := by
  rw [apply, Edit.apply, edits, Edit.sort_sort, ← edits] at h
  cases hc : Edit.check f.snapshot.text.length 0 f.edits with
  | error fault =>
    rw [hc] at h
    cases h
  | ok u =>
    rw [hc] at h
    exact ⟨rfl, (Except.ok.inj h).symm⟩

theorem edits_insertions (s : Snapshot) {insertions : List Insertion}
    (h : Edit.InOrder s.text.length (insertions.map Insertion.edit)) :
    edits { snapshot := s, insertions } = insertions.map Insertion.edit := by
  rw [edits, List.append_nil, h.sort_eq]

theorem edits_replacements (s : Snapshot) {replacements : List Edit}
    (h : Edit.InOrder s.text.length replacements) :
    edits { snapshot := s, replacements } = replacements := by
  rw [edits, List.map_nil, List.nil_append, h.sort_eq]

theorem apply_insertions (s : Snapshot) {insertions : List Insertion}
    (hs : insertions.Pairwise fun i j => i.offset ≤ j.offset)
    (hb : ∀ i ∈ insertions, 0 ≤ i.offset ∧ i.offset ≤ s.text.length) :
    apply { snapshot := s, insertions } =
      .ok ((insertions.map Insertion.edit).foldr Edit.replace s.text) := by
  have hordered := Insertion.inOrder hs hb
  rw [apply, edits_insertions s hordered]
  exact hordered.apply_eq

theorem apply_replacement (s : Snapshot) {e : Edit} (h₁ : 0 ≤ e.start) (h₂ : e.start ≤ e.stop)
    (h₃ : e.stop ≤ s.text.length) :
    apply { snapshot := s, replacements := [e] } = .ok (e.replace s.text) := by
  have hordered : Edit.InOrder s.text.length [e] :=
    ⟨by simpa using ⟨h₁, h₂, h₃⟩, List.pairwise_singleton _ e⟩
  rw [apply, edits_replacements s hordered]
  exact hordered.apply_eq

end FilePlan

end PropAccord
