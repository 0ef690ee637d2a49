import Mathlib.Data.List.Forall2
import Mathlib.Data.List.TakeWhile
import Mathlib.Data.Set.Function
import PropAccord.Editor.Basic
import PropAccord.Proofs.Lists
import PropAccord.Proofs.Splices
import PropAccord.Report

/-!
# Positions and offsets

The line feeds of a text cut it into lines. An offset and the position that it is reported as name the
same place: the way back counts the lines before the position, each with its line feed, and the column.
So edits that are reported or sent to an editor by positions can be taken back to the offsets they came
from, and they make the same text of the snapshot as the plan does when it is carried out on files.
Columns count characters here and only line feeds end lines.
-/

namespace PropAccord

set_option autoImplicit false

namespace Position

/-- Lines count before columns. -/
def Before (p q : Position) : Prop := p.line < q.line ∨ p.line = q.line ∧ p.column < q.column

/-- The position is a place in one of the lines, its end included. -/
def LiesIn (lines : List Text) (p : Position) : Prop :=
  ∃ line, lines[p.line]? = some line ∧ p.column ≤ line.length

/-- The number of characters before a position: the lines before it with their line feeds, and the
column. -/
def offsetAmong (lines : List Text) (p : Position) : Nat :=
  (lines.take p.line).foldr (fun line after => line.length + 1 + after) p.column

theorem Before.trans {p q r : Position} (h : p.Before q) (h' : q.Before r) : p.Before r := by
  simp only [Before] at *
  omega

theorem liesIn_cons_zero {line : Text} {lines : List Text} {column : Nat} :
    LiesIn (line :: lines) ⟨0, column⟩ ↔ column ≤ line.length := by
  simp [LiesIn]

theorem liesIn_cons_succ {line : Text} {lines : List Text} {n column : Nat} :
    LiesIn (line :: lines) ⟨n + 1, column⟩ ↔ LiesIn lines ⟨n, column⟩ := by
  simp [LiesIn]

theorem offsetAmong_zero (lines : List Text) (column : Nat) :
    offsetAmong lines ⟨0, column⟩ = column := by
  rw [offsetAmong, List.take_zero, List.foldr_nil]

theorem offsetAmong_cons_succ (line : Text) (lines : List Text) (n column : Nat) :
    offsetAmong (line :: lines) ⟨n + 1, column⟩ =
      line.length + 1 + offsetAmong lines ⟨n, column⟩ := by
  rw [offsetAmong, offsetAmong, List.take_succ_cons, List.foldr_cons]

end Position

namespace Snapshot

open Position

/-! ## Places of a text -/

theorem placeOf_congr {t t' : Text} {n : Nat} (h : t.take n = t'.take n) :
    placeOf t n = placeOf t' n := by
  rw [placeOf, placeOf, h]

section

variable {line : Text} (hline : '\n' ∉ line)
include hline

theorem placeOf_of_le (rest : Text) {n : Nat} (hn : n ≤ line.length) :
    placeOf (line ++ rest) n = ⟨0, n⟩ := by
  have hfree : '\n' ∉ line.take n := fun hm => hline (List.mem_of_mem_take hm)
  have hall : ∀ c ∈ (line.take n).reverse, decide (c ≠ '\n') = true :=
    fun c hc => decide_eq_true fun heq => hfree (heq ▸ List.mem_reverse.1 hc)
  rw [placeOf, List.take_append_of_le_length hn, List.count_eq_zero.2 hfree,
    List.takeWhile_eq_self_iff.2 hall, List.length_reverse, List.length_take, Nat.min_eq_left hn]

theorem placeOf_behind (rest : Text) (n : Nat) :
    placeOf (line ++ '\n' :: rest) (line.length + 1 + n) =
      ⟨(placeOf rest n).line + 1, (placeOf rest n).column⟩ := by
  have htake : (line ++ '\n' :: rest).take (line.length + 1 + n) = line ++ '\n' :: rest.take n := by
    rw [Nat.add_assoc, List.take_length_add_append, Nat.add_comm 1, List.take_succ_cons]
  have hcount : (line ++ '\n' :: rest.take n).count '\n' = (rest.take n).count '\n' + 1 := by
    rw [List.count_append, List.count_eq_zero.2 hline, List.count_cons_self, Nat.zero_add]
  have hcolumn : (line ++ '\n' :: rest.take n).reverse.takeWhile (· ≠ '\n') =
      (rest.take n).reverse.takeWhile (· ≠ '\n') := by
    rw [List.reverse_append, List.reverse_cons, List.append_assoc, List.singleton_append]
    exact Text.takeWhile_append_stop (by decide) _ _
  rw [placeOf, htake, hcount, hcolumn]
  rfl

end

theorem placeOf_succ {t : Text} {n : Nat} (h : n < t.length) :
    placeOf t (n + 1) = if t[n] = '\n' then ⟨(placeOf t n).line + 1, 0⟩
      else ⟨(placeOf t n).line, (placeOf t n).column + 1⟩ := by
  have hline : (t.take (n + 1)).count '\n' = (t.take n).count '\n' + [t[n]].count '\n' := by
    rw [List.take_succ_eq_append_getElem h, List.count_append]
  have hcolumn : (t.take (n + 1)).reverse = t[n] :: (t.take n).reverse := by
    rw [List.take_succ_eq_append_getElem h, List.reverse_append, List.reverse_singleton,
      List.singleton_append]
  rw [placeOf, hline, hcolumn]
  by_cases hc : t[n] = '\n'
  · simp [hc, placeOf]
  · simp [hc, placeOf]

/-- Places come in the order of their offsets. -/
theorem before_placeOf {t : Text} {m n : Nat} (h : m < n) (hn : n ≤ t.length) :
    (placeOf t m).Before (placeOf t n) := by
  have hstep : ∀ k < t.length, (placeOf t k).Before (placeOf t (k + 1)) := by
    intro k hk
    rw [placeOf_succ hk]
    split
    · exact Or.inl (Nat.lt_succ_self _)
    · exact Or.inr ⟨rfl, Nat.lt_succ_self _⟩
  induction h with
  | refl => exact hstep m hn
  | @step k _ ih => exact (ih (by omega)).trans (hstep k hn)

theorem of_placeOf {t : Text} {n : Nat} (h : n ≤ t.length) :
    LiesIn (t.splitOn '\n') (placeOf t n) ∧ offsetAmong (t.splitOn '\n') (placeOf t n) = n := by
  induction t using Text.pieces_induction '\n' generalizing n with
  | last line hline =>
    have hplace := placeOf_of_le hline [] h
    rw [List.append_nil] at hplace
    rw [hplace, List.splitOn_eq_singleton hline]
    exact ⟨liesIn_cons_zero.2 h, offsetAmong_zero _ _⟩
  | piece line rest hline ih =>
    rw [List.splitOn_append_cons_self_of_not_mem hline]
    by_cases hn : n ≤ line.length
    · rw [placeOf_of_le hline _ hn]
      exact ⟨liesIn_cons_zero.2 hn, offsetAmong_zero _ _⟩
    · obtain ⟨m, rfl⟩ : ∃ m, n = line.length + 1 + m := ⟨n - (line.length + 1), by omega⟩
      rw [List.length_append, List.length_cons] at h
      obtain ⟨hlies, hoffset⟩ := ih (n := m) (by omega)
      rw [placeOf_behind hline, offsetAmong_cons_succ]
      exact ⟨liesIn_cons_succ.2 hlies, by rw [hoffset]⟩

theorem placeOf_offsetAmong {t : Text} {p : Position} (h : LiesIn (t.splitOn '\n') p) :
    offsetAmong (t.splitOn '\n') p ≤ t.length ∧ placeOf t (offsetAmong (t.splitOn '\n') p) = p := by
  obtain ⟨n, column⟩ := p
  induction t using Text.pieces_induction '\n' generalizing n with
  | last line hline =>
    rw [List.splitOn_eq_singleton hline] at h ⊢
    cases n with
    | zero =>
      have hcolumn := liesIn_cons_zero.1 h
      have hplace := placeOf_of_le hline [] hcolumn
      rw [List.append_nil] at hplace
      rw [offsetAmong_zero]
      exact ⟨hcolumn, hplace⟩
    | succ n =>
      obtain ⟨line', hline', -⟩ := liesIn_cons_succ.1 h
      cases hline'
  | piece line rest hline ih =>
    rw [List.splitOn_append_cons_self_of_not_mem hline] at h ⊢
    rw [List.length_append, List.length_cons]
    cases n with
    | zero =>
      have hcolumn := liesIn_cons_zero.1 h
      rw [offsetAmong_zero]
      exact ⟨by omega, placeOf_of_le hline _ hcolumn⟩
    | succ n =>
      obtain ⟨hle, hplace⟩ := ih n (liesIn_cons_succ.1 h)
      rw [offsetAmong_cons_succ, placeOf_behind hline, hplace]
      exact ⟨by omega, rfl⟩

end Snapshot

/-! ## The way back in a text -/

theorem offsetFrom_behind {line : Text} (hline : '\n' ∉ line) (column n : Nat) (rest : Text) :
    offsetFrom column (n + 1) (line ++ '\n' :: rest) =
      line.length + 1 + offsetFrom column n rest := by
  induction line with
  | nil => rw [List.nil_append, offsetFrom, if_pos rfl, List.length_nil, Nat.zero_add, Nat.add_comm]
  | cons c line ih =>
    have hc : c ≠ '\n' := fun heq => hline (heq ▸ List.mem_cons_self)
    rw [List.cons_append, offsetFrom, if_neg hc, ih fun hm => hline (List.mem_cons_of_mem c hm),
      List.length_cons]
    omega

/-- Looking for the line feeds one after the other comes to the same as adding up the lines. -/
theorem Position.offsetIn_eq {t : Text} {p : Position} (h : LiesIn (t.splitOn '\n') p) :
    p.offsetIn t = offsetAmong (t.splitOn '\n') p := by
  obtain ⟨n, column⟩ := p
  induction t using Text.pieces_induction '\n' generalizing n with
  | last line hline =>
    rw [List.splitOn_eq_singleton hline] at h ⊢
    cases n with
    | zero =>
      rw [offsetAmong_zero]
      exact offsetFrom.eq_1 column line
    | succ n =>
      obtain ⟨line', hline', -⟩ := liesIn_cons_succ.1 h
      cases hline'
  | piece line rest hline ih =>
    rw [List.splitOn_append_cons_self_of_not_mem hline] at h ⊢
    cases n with
    | zero =>
      rw [offsetAmong_zero]
      exact offsetFrom.eq_1 column _
    | succ n =>
      rw [offsetAmong_cons_succ, ← ih n (liesIn_cons_succ.1 h)]
      exact offsetFrom_behind hline column n rest

/-! ## Edits by positions -/

/-- The edit with its ends as positions in the snapshot. -/
def Edit.placedIn (s : Snapshot) (e : Edit) : PlacedEdit :=
  ⟨s.path, Snapshot.placeOf s.text e.start.toNat, Snapshot.placeOf s.text e.stop.toNat, e.text⟩

/-- The edit with its ends taken back to offsets. -/
def PlacedEdit.inLines (lines : List Text) (e : PlacedEdit) : Edit :=
  ⟨e.start.offsetAmong lines, e.stop.offsetAmong lines, e.replacement⟩

/-- The reported edit with its ends taken back to offsets. -/
def EditReport.inLines (lines : List Text) (e : EditReport) : Edit :=
  ⟨Position.offsetAmong lines ⟨e.start.line.toNat, e.start.column.toNat⟩,
    Position.offsetAmong lines ⟨e.stop.line.toNat, e.stop.column.toNat⟩, e.replacement⟩

theorem Snapshot.positionAt_eq_ok_iff {s : Snapshot} {offset : Int} {p : Position} :
    s.positionAt offset = .ok p ↔ ∃ n ≤ s.text.length, offset = n ∧ p = placeOf s.text n := by
  rw [positionAt]
  constructor
  · intro h
    split at h
    · cases h
    · exact ⟨offset.toNat, by omega, by omega, (Except.ok.inj h).symm⟩
  · rintro ⟨n, hn, rfl, rfl⟩
    rw [if_neg (by omega), Int.toNat_natCast]

section

variable {s : Snapshot} {e : Edit}
  (hinside : 0 ≤ e.start ∧ e.start ≤ e.stop ∧ e.stop ≤ s.text.length)
include hinside

theorem Edit.place_eq : e.place s = .ok (e.placedIn s) := by
  have hstart : s.positionAt e.start = .ok (Snapshot.placeOf s.text e.start.toNat) :=
    Snapshot.positionAt_eq_ok_iff.2 ⟨e.start.toNat, by omega, by omega, rfl⟩
  have hstop : s.positionAt e.stop = .ok (Snapshot.placeOf s.text e.stop.toNat) :=
    Snapshot.positionAt_eq_ok_iff.2 ⟨e.stop.toNat, by omega, by omega, rfl⟩
  rw [place, hstart, hstop]
  rfl

theorem Edit.inLines_placedIn : (e.placedIn s).inLines (s.text.splitOn '\n') = e := by
  have hstart := (Snapshot.of_placeOf (t := s.text) (n := e.start.toNat) (by omega)).2
  have hstop := (Snapshot.of_placeOf (t := s.text) (n := e.stop.toNat) (by omega)).2
  rw [PlacedEdit.inLines, placedIn, hstart, hstop, Int.toNat_of_nonneg hinside.1,
    Int.toNat_of_nonneg (by omega)]

end

/-- An editor that takes one edit after the other, the last one first, finds each of them where it was
in the snapshot. -/
theorem Edit.InOrder.foldr_replaceIn {s : Snapshot} {edits : List Edit}
    (h : InOrder s.text.length edits) :
    (edits.map (placedIn s)).foldr Editor.replaceIn s.text = edits.foldr replace s.text := by
  induction edits with
  | nil => rfl
  | cons e rest ih =>
    obtain ⟨hbehind, hpairwise⟩ := List.pairwise_cons.1 h.behind
    have hinside := h.inside e List.mem_cons_self
    have hrest : InOrder s.text.length rest :=
      ⟨fun e' he' => h.inside e' (List.mem_cons_of_mem e he'), hpairwise⟩
    rw [List.map_cons, List.foldr_cons, ih hrest, List.foldr_cons]
    -- What was done behind the edit has left the text up to its end alone.
    have hcheck : check s.text.length e.stop.toNat rest = .ok () :=
      check_of_ordered hrest fun e' he' => by
        have := hbehind e' he'
        omega
    have hedited := foldr_replace_eq hcheck (by omega)
    generalize rest.foldr replace s.text = edited at hedited ⊢
    have hlength : e.stop.toNat ≤ edited.length := by
      rw [hedited, List.length_append, List.length_take]
      omega
    have hoffset : ∀ n ≤ e.stop.toNat, (Snapshot.placeOf s.text n).offsetIn edited = n := by
      intro n hn
      have htake : s.text.take n = edited.take n := by
        rw [hedited, List.take_append_of_le_length (by rw [List.length_take]; omega), List.take_take,
          Nat.min_eq_left hn]
      obtain ⟨hlies, heq⟩ := Snapshot.of_placeOf (t := edited) (n := n) (by omega)
      rw [Snapshot.placeOf_congr htake, Position.offsetIn_eq hlies, heq]
    rw [Editor.replaceIn, placedIn, hoffset _ (by omega), hoffset _ (Nat.le_refl _), replace, replace]
    rfl

namespace FilePlan

variable {f : FilePlan} {text : Text}

theorem inOrder_of_apply (h : f.apply = .ok text) : Edit.InOrder f.snapshot.text.length f.edits :=
  Edit.check_eq_ok_iff.1 (apply_eq_ok h).1

theorem placed_eq (h : f.apply = .ok text) :
    f.placed = .ok (f.edits.map (Edit.placedIn f.snapshot)) :=
  mapM_eq_ok_map fun e he => Edit.place_eq ((inOrder_of_apply h).inside e he)

/-- The edits of a file by positions make the text that the file plan makes. -/
theorem exists_placed (h : f.apply = .ok text) :
    ∃ placed, f.placed = .ok placed ∧ (∀ e ∈ placed, e.path = f.path) ∧
      Edit.splice (placed.map (PlacedEdit.inLines (f.snapshot.text.splitOn '\n'))) f.snapshot.text =
        text ∧
      placed.foldr Editor.replaceIn f.snapshot.text = text := by
  have hin := inOrder_of_apply h
  obtain ⟨hcheck, htext⟩ := apply_eq_ok h
  refine ⟨f.edits.map (Edit.placedIn f.snapshot), placed_eq h, ?_, ?_, ?_⟩
  · simp only [List.forall_mem_map]
    exact fun e _ => rfl
  · have hback : (f.edits.map (Edit.placedIn f.snapshot)).map
        (PlacedEdit.inLines (f.snapshot.text.splitOn '\n')) = f.edits := by
      rw [List.map_map]
      refine (List.map_congr_left fun e he => ?_).trans (List.map_id f.edits)
      exact Edit.inLines_placedIn (hin.inside e he)
    rw [hback, htext, Edit.splice_eq_foldr hcheck]
  · rw [htext, hin.foldr_replaceIn]

end FilePlan

/-- Offsets and positions name the same places in the same order, and each of the two is computed from
the other one. The edits of a plan that can be carried out, as they are reported and as they are sent
to an editor, make of each snapshot the text that the plan makes of it: when they are all taken back to
offsets and carried out at once in the order of the list, and when the editor takes one after the
other. -/
theorem Plan.positions_agree_with_offsets {plan : Plan}
    (h : ∀ f ∈ plan.files, ∃ text, f.apply = .ok text) :
    (∀ s : Snapshot,
      (∀ (offset : Int) (p : Position), s.positionAt offset = .ok p ↔
        ∃ n ≤ s.text.length, offset = n ∧ p = Snapshot.placeOf s.text n) ∧
      Set.BijOn (Snapshot.placeOf s.text) {n | n ≤ s.text.length}
        {p | p.LiesIn (s.text.splitOn '\n')} ∧
      Set.InvOn (Position.offsetAmong (s.text.splitOn '\n')) (Snapshot.placeOf s.text)
        {n | n ≤ s.text.length} {p | p.LiesIn (s.text.splitOn '\n')} ∧
      ∀ m n, m < n → n ≤ s.text.length →
        (Snapshot.placeOf s.text m).Before (Snapshot.placeOf s.text n)) ∧
    (∃ reports : List (List EditReport), plan.report = .ok reports.flatten ∧
      List.Forall₂ (fun f reported => (∀ r ∈ reported, r.path = f.path.text) ∧
        f.apply = .ok (Edit.splice (reported.map (EditReport.inLines (f.snapshot.text.splitOn '\n')))
          f.snapshot.text)) plan.files reports) ∧
    ((∀ f ∈ plan.files, f.path.isAbsolute = true) →
      ∃ changes, Editor.placePlan plan = .ok changes ∧
        List.Forall₂ (fun f d => Uri.ofPath? f.path = some d.uri ∧ d.path = f.path ∧
          f.apply = .ok (Edit.splice (d.edits.map (PlacedEdit.inLines (f.snapshot.text.splitOn '\n')))
            f.snapshot.text) ∧
          f.apply = .ok (d.edits.foldr Editor.replaceIn f.snapshot.text)) plan.files changes) := by
  refine ⟨fun s => ?_, ?_, fun habsolute => ?_⟩
  · have hinv : Set.InvOn (Position.offsetAmong (s.text.splitOn '\n')) (Snapshot.placeOf s.text)
        {n | n ≤ s.text.length} {p | p.LiesIn (s.text.splitOn '\n')} :=
      ⟨fun _ hn => (Snapshot.of_placeOf hn).2, fun _ hp => (Snapshot.placeOf_offsetAmong hp).2⟩
    have hbij := hinv.bijOn (fun _ hn => (Snapshot.of_placeOf hn).1)
      (fun _ hp => (Snapshot.placeOf_offsetAmong hp).1)
    exact ⟨fun _ _ => Snapshot.positionAt_eq_ok_iff, hbij, hinv,
      fun _ _ hmn hn => Snapshot.before_placeOf hmn hn⟩
  · have hplaced : ∀ f ∈ plan.files, ∃ placed, f.placed = .ok placed ∧
        ((∀ e ∈ placed, e.path = f.path) ∧ f.apply = .ok (Edit.splice
          (placed.map (PlacedEdit.inLines (f.snapshot.text.splitOn '\n'))) f.snapshot.text)) := by
      intro f hf
      obtain ⟨text, htext⟩ := h f hf
      obtain ⟨placed, hplaced, hpath, hsplice, -⟩ := FilePlan.exists_placed htext
      exact ⟨placed, hplaced, hpath, htext.trans (congrArg Except.ok hsplice.symm)⟩
    obtain ⟨lists, hlists, hfiles⟩ := exists_mapM_forall₂ hplaced
    refine ⟨lists.map (List.map PlacedEdit.report), ?_, ?_⟩
    · rw [report, placed, hlists, ← List.map_flatten]
      rfl
    · rw [List.forall₂_map_right_iff]
      refine hfiles.imp fun f placed hf => ?_
      refine ⟨?_, ?_⟩
      · simp only [List.forall_mem_map]
        exact fun e he => congrArg Path.text (hf.1 e he)
      · rw [hf.2, List.map_map]
        rfl
  · refine exists_mapM_forall₂ fun f hf => ?_
    obtain ⟨text, htext⟩ := h f hf
    obtain ⟨placed, hplaced, -, hsplice, hfold⟩ := FilePlan.exists_placed htext
    have huri : Uri.ofPath? f.path = some _ := if_pos (habsolute f hf)
    refine ⟨⟨_, f.path, f.snapshot.version, placed⟩, ?_, huri, rfl, ?_, ?_⟩
    · rw [Editor.placeFile, hplaced, huri]
    · rw [htext, hsplice]
    · rw [htext, hfold]

/-- Two insertions and a replacement at the end of an empty line, which its line feed follows. -/
theorem Plan.positions_agree_with_offsets_at_empty_line :
    let f : FilePlan :=
      { snapshot := ⟨⟨.root, [['a']]⟩, "ab\n\ncd".toList, none⟩
        insertions := [⟨3, ['x']⟩, ⟨3, ['y']⟩]
        replacements := [⟨3, 4, ['z']⟩] }
    f.apply = .ok "ab\nxyzcd".toList ∧
      f.snapshot.positionAt 3 = .ok ⟨1, 0⟩ ∧ f.snapshot.positionAt 4 = .ok ⟨2, 0⟩ ∧
      ∃ d, Editor.placePlan ⟨[f]⟩ = .ok [d] ∧
        Edit.splice (d.edits.map (PlacedEdit.inLines (f.snapshot.text.splitOn '\n')))
          f.snapshot.text = "ab\nxyzcd".toList := by
  intro f
  have hin : Edit.InOrder f.snapshot.text.length
      (f.insertions.map Insertion.edit ++ f.replacements) := ⟨by decide, by decide⟩
  have happly : f.apply = .ok "ab\nxyzcd".toList := by
    rw [FilePlan.apply, FilePlan.edits, hin.sort_eq, hin.apply_eq]
    rfl
  have hfiles : ∀ g ∈ (⟨[f]⟩ : Plan).files, ∃ text, g.apply = .ok text := by
    intro g hg
    exact ⟨_, List.mem_singleton.1 hg ▸ happly⟩
  obtain ⟨-, -, hsent⟩ := Plan.positions_agree_with_offsets hfiles
  obtain ⟨changes, hchanges, hall⟩ := hsent (by decide)
  cases hall with
  | @cons _ d _ _ hd hrest =>
    cases hrest
    obtain ⟨-, -, hsplice, -⟩ := hd
    rw [happly] at hsplice
    exact ⟨happly, by decide, by decide, d, hchanges, (Except.ok.inj hsplice).symm⟩

end PropAccord
