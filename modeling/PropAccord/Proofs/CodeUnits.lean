import PropAccord.Proofs.Positions

/-!
# Positions in code units

Positions are sent to an editor with columns in characters and lines that end at line feeds. An editor
that was told nothing else counts columns in UTF-16 code units and ends lines at carriage returns too.
Such an editor never looks behind the place that was meant. It finds the place exactly where every
carriage return before it has its line feed behind it and no character of its line before it takes two
units. Edits at such places make the text that the plan makes, and a text has no other places exactly if
it has no carriage return and no character of two units.
-/

namespace PropAccord

set_option autoImplicit false

/-! ## Code units -/

namespace Utf16

/-- One unit for a character of the first plane, and a high and a low surrogate for any other. -/
def units (c : Char) : List UInt16 :=
  if c.toNat < 0x10000 then [.ofNat c.toNat]
  else [.ofNat (0xD800 + (c.toNat - 0x10000) / 0x400), .ofNat (0xDC00 + (c.toNat - 0x10000) % 0x400)]

def encode (t : Text) : List UInt16 := t.flatMap units

theorem encode_cons (c : Char) (t : Text) : encode (c :: t) = units c ++ encode t :=
  List.flatMap_cons

theorem encode_append (s t : Text) : encode (s ++ t) = encode s ++ encode t :=
  List.flatMap_append

theorem length_encode_take_le (t : Text) (n : Nat) : (encode (t.take n)).length ≤ (encode t).length := by
  rw [encode, encode, Text.flatMap_take_append_drop units t n, List.length_append]
  exact Nat.le_add_right _ _

theorem length_units (c : Char) : (units c).length = if c.toNat < 0x10000 then 1 else 2 := by
  rw [units]
  split <;> rfl

theorem length_units_pos (c : Char) : 0 < (units c).length := by
  rw [length_units]
  split <;> decide

theorem ofNat_inj_of_lt {m n : Nat} (hm : m < 0x10000) (hn : n < 0x10000)
    (h : UInt16.ofNat m = UInt16.ofNat n) : m = n := by
  have heq := congrArg UInt16.toNat h
  rwa [UInt16.toNat_ofNat_of_lt' hm, UInt16.toNat_ofNat_of_lt' hn] at heq

/-- The units of a character tell where they end. -/
theorem units_append_inj {c d : Char} {u v : List UInt16} (h : units c ++ u = units d ++ v) :
    c = d ∧ u = v := by
  have hvalid : ∀ a : Char, a.toNat < 0xD800 ∨ 0xDFFF < a.toNat ∧ a.toNat < 0x110000 :=
    fun a => a.valid
  have hc := hvalid c
  have hd := hvalid d
  rw [units, units] at h
  split at h
  · split at h
    · obtain ⟨hfirst, hrest⟩ := List.cons.inj h
      exact ⟨Char.toNat_inj.1 (ofNat_inj_of_lt ‹_› ‹_› hfirst), hrest⟩
    · have hfirst := ofNat_inj_of_lt (by omega) (by omega) (List.cons.inj h).1
      omega
  · split at h
    · have hfirst := ofNat_inj_of_lt (by omega) (by omega) (List.cons.inj h).1
      omega
    · obtain ⟨hhigh, hlow, hrest⟩ := (List.cons.inj h).imp id List.cons.inj
      have hhigh := ofNat_inj_of_lt (by omega) (by omega) hhigh
      have hlow := ofNat_inj_of_lt (by omega) (by omega) hlow
      exact ⟨Char.toNat_inj.1 (by omega), hrest⟩

theorem encode_inj {s t : Text} : encode s = encode t ↔ s = t := by
  have hlength : ∀ (c : Char) (r : Text), 0 < (encode (c :: r)).length := by
    intro c r
    rw [encode_cons, List.length_append]
    exact Nat.add_pos_left (length_units_pos c) _
  refine ⟨fun h => ?_, congrArg encode⟩
  induction s generalizing t with
  | nil =>
    cases t with
    | nil => rfl
    | cons d t => exact absurd (congrArg List.length h) (hlength d t).ne
  | cons c s ih =>
    cases t with
    | nil => exact absurd (congrArg List.length h) (hlength c s).ne'
    | cons d t =>
      rw [encode_cons, encode_cons] at h
      obtain ⟨rfl, hrest⟩ := units_append_inj h
      rw [ih hrest]

theorem length_le_encode (t : Text) : t.length ≤ (encode t).length := by
  induction t with
  | nil => exact Nat.le_refl 0
  | cons c t ih =>
    have hpos := length_units_pos c
    rw [encode_cons, List.length_append, List.length_cons]
    omega

theorem length_eq_encode_iff {t : Text} :
    t.length = (encode t).length ↔ ∀ c ∈ t, c.toNat < 0x10000 := by
  induction t with
  | nil => simp [encode]
  | cons c t ih =>
    have hle := length_le_encode t
    rw [List.forall_mem_cons, ← ih, encode_cons, List.length_append, List.length_cons, length_units]
    split
    · constructor
      · exact fun h => ⟨‹_›, by omega⟩
      · rintro ⟨-, h⟩
        omega
    · constructor
      · intro h
        omega
      · rintro ⟨h, -⟩
        exact absurd h ‹_›

end Utf16

/-! ## Places as an editor finds them -/

namespace Position

open Utf16

def endsLine (c : Char) : Bool := c = '\n' || c = '\r'

/-- The number of units before a column of a line that is `line` line ends ahead, where a column behind
the end of its line counts as that end. -/
def unitsFrom (column : Nat) : (line : Nat) → Text → Nat
  | 0, t => min column (encode (t.takeWhile fun c => !endsLine c)).length
  | _ + 1, [] => 0
  | line + 1, '\r' :: '\n' :: rest => unitsFrom column line rest + 2
  | line + 1, c :: rest =>
    if endsLine c then unitsFrom column line rest + 1
    else unitsFrom column (line + 1) rest + (units c).length

/-- The number of units of a text before a position, its column counted in units. -/
def unitIn (t : Text) (p : Position) : Nat := unitsFrom p.column p.line t

/-- The characters behind the last line feed of a text, the last one first. -/
def lastLine (t : Text) : Text := t.reverse.takeWhile (· ≠ '\n')

/-- Every carriage return has a line feed behind it. -/
def returnsPaired : Text → Bool
  | [] => true
  | '\r' :: '\n' :: rest => returnsPaired rest
  | c :: rest => c ≠ '\r' && returnsPaired rest

/-- Lines and columns that are counted up to the end of this text are the same for characters and for
units. -/
structure Addressed (t : Text) : Prop where
  paired : returnsPaired t = true
  narrow : ∀ c ∈ lastLine t, c.toNat < 0x10000

theorem addressed_iff {t : Text} :
    Addressed t ↔ (returnsPaired t && (lastLine t).all fun c => c.toNat < 0x10000) = true := by
  rw [Bool.and_eq_true, List.all_eq_true]
  simp only [decide_eq_true_eq]
  exact ⟨fun h => ⟨h.paired, h.narrow⟩, fun h => ⟨h.1, h.2⟩⟩

instance (t : Text) : Decidable (Addressed t) := decidable_of_iff _ addressed_iff.symm

theorem unitsFrom_cons {column line : Nat} {c : Char} {t : Text}
    (hpair : ∀ rest, c = '\r' → t = '\n' :: rest → False) :
    unitsFrom column (line + 1) (c :: t) =
      if endsLine c then unitsFrom column line t + 1
      else unitsFrom column (line + 1) t + (units c).length := by
  rw [unitsFrom]
  exact hpair

theorem returnsPaired_cons {c : Char} {t : Text}
    (hpair : ∀ rest, c = '\r' → t = '\n' :: rest → False) :
    returnsPaired (c :: t) = (decide (c ≠ '\r') && returnsPaired t) := by
  rw [returnsPaired]
  exact hpair

theorem not_pair_append {c : Char} {t rest : Text} (hpair : ∀ s, c = '\r' → t = '\n' :: s → False)
    (h : t = [] → ∀ s, rest ≠ '\n' :: s) : ∀ s, c = '\r' → t ++ rest = '\n' :: s → False := by
  intro s hc heq
  cases t with
  | nil => exact h rfl s heq
  | cons d t => exact hpair t hc (by rw [(List.cons.inj heq).1])

theorem lastLine_of_not_mem {t : Text} (h : '\n' ∉ t) : lastLine t = t.reverse := by
  rw [lastLine, List.takeWhile_eq_self_iff]
  exact fun c hc => decide_eq_true fun heq => h (heq ▸ List.mem_reverse.1 hc)

theorem lastLine_append_feed (s t : Text) : lastLine (s ++ '\n' :: t) = lastLine t := by
  rw [lastLine, List.reverse_append, List.reverse_cons, List.append_assoc, List.singleton_append]
  exact Text.takeWhile_append_stop (by decide) _ _

theorem lastLine_cons {c : Char} {t : Text} (h : '\n' ∈ c :: t) : lastLine (c :: t) = lastLine t := by
  rcases List.mem_cons.1 h with rfl | hmem
  · exact lastLine_append_feed [] t
  · obtain ⟨s, r, rfl⟩ := List.append_of_mem hmem
    rw [lastLine_append_feed, ← List.cons_append, lastLine_append_feed]

theorem returnsPaired_of_not_mem {t : Text} (h : '\r' ∉ t) : returnsPaired t = true := by
  induction t with
  | nil => rfl
  | cons c t ih =>
    have hc : c ≠ '\r' := fun heq => h (heq ▸ List.mem_cons_self)
    rw [returnsPaired_cons fun _ heq => absurd heq hc, decide_eq_true hc, Bool.true_and]
    exact ih fun hmem => h (List.mem_cons_of_mem c hmem)

theorem not_mem_of_returnsPaired {t : Text} (hpaired : returnsPaired t = true) (hfeed : '\n' ∉ t) :
    '\r' ∉ t := by
  induction t using returnsPaired.induct with
  | case1 => exact List.not_mem_nil
  | case2 rest ih => exact absurd (List.mem_cons_of_mem _ List.mem_cons_self) hfeed
  | case3 c rest hpair ih =>
    rw [returnsPaired_cons hpair, Bool.and_eq_true, decide_eq_true_eq] at hpaired
    rw [List.mem_cons, not_or] at hfeed ⊢
    exact ⟨hpaired.1.symm, ih hpaired.2 hfeed.2⟩

/-- The units of a line are fewer than those of a text in which the line ends. -/
theorem length_encode_takeWhile_lt {t : Text} (h : ∃ c ∈ t, endsLine c = true) (rest : Text) :
    (encode ((t ++ rest).takeWhile fun c => !endsLine c)).length < (encode t).length := by
  induction t with
  | nil => exact absurd h (by simp)
  | cons c t ih =>
    rw [List.cons_append, List.takeWhile_cons, encode_cons, List.length_append]
    split
    · rename_i hc
      obtain ⟨d, hd, hends⟩ := h
      have hmem : d ∈ t := by
        refine (List.mem_cons.1 hd).resolve_left fun heq => ?_
        rw [← heq, hends] at hc
        cases hc
      rw [encode_cons, List.length_append]
      exact Nat.add_lt_add_left (ih ⟨d, hmem, hends⟩) _
    · exact Nat.add_pos_left (length_units_pos c) _

theorem count_pair (t : Text) : ('\r' :: '\n' :: t).count '\n' = t.count '\n' + 1 := by
  rw [List.count_cons_of_ne (by decide), List.count_cons_self]

theorem length_encode_pair (t : Text) :
    (encode ('\r' :: '\n' :: t)).length = (encode t).length + 2 := rfl

/-- A line that a text ends with a line feed lies in that text. -/
theorem unitsFrom_lt {t : Text} {line : Nat} (h : line < t.count '\n') (column : Nat) (rest : Text) :
    unitsFrom column line (t ++ rest) < (encode t).length := by
  have hfirst : ∀ s : Text, 0 < s.count '\n' →
      unitsFrom column 0 (s ++ rest) < (encode s).length := by
    intro s hs
    rw [unitsFrom]
    exact (Nat.min_le_right _ _).trans_lt
      (length_encode_takeWhile_lt ⟨'\n', List.count_pos_iff.1 hs, rfl⟩ rest)
  induction t using returnsPaired.induct generalizing line with
  | case1 => exact absurd h (Nat.not_lt_zero line)
  | case2 t ih =>
    cases line with
    | zero => exact hfirst _ h
    | succ line =>
      have hrest := ih (Nat.lt_of_succ_lt_succ (count_pair t ▸ h))
      rw [List.cons_append, List.cons_append, unitsFrom, length_encode_pair]
      exact Nat.add_lt_add_right hrest 2
  | case3 c t hpair ih =>
    cases line with
    | zero => exact hfirst _ h
    | succ line =>
      have hcount : line < t.count '\n' := by
        rw [List.count_cons] at h
        split at h <;> omega
      have hne : t ≠ [] := by
        rintro rfl
        exact absurd hcount (Nat.not_lt_zero line)
      rw [List.cons_append, unitsFrom_cons (not_pair_append hpair fun hnil => absurd hnil hne),
        encode_cons, List.length_append]
      have hpos := length_units_pos c
      split
      · have hrest := ih hcount
        omega
      · rename_i hends
        have hrest : unitsFrom column (line + 1) (t ++ rest) < (encode t).length := by
          apply ih
          rw [List.count_cons_of_ne] at h
          · exact h
          · rintro rfl
            exact hends rfl
        omega

/-- The position of the end of a text. -/
def ending (t : Text) : Position := ⟨t.count '\n', (lastLine t).length⟩

theorem addressed_of_not_mem_iff {t : Text} (h : '\n' ∉ t) :
    Addressed t ↔ '\r' ∉ t ∧ ∀ c ∈ t, c.toNat < 0x10000 := by
  constructor
  · intro ha
    refine ⟨not_mem_of_returnsPaired ha.paired h, fun c hc => ha.narrow c ?_⟩
    rw [lastLine_of_not_mem h]
    exact List.mem_reverse.2 hc
  · rintro ⟨hreturn, hnarrow⟩
    refine ⟨returnsPaired_of_not_mem hreturn, fun c hc => hnarrow c ?_⟩
    rw [lastLine_of_not_mem h] at hc
    exact List.mem_reverse.1 hc

theorem addressed_pair_iff {t : Text} : Addressed ('\r' :: '\n' :: t) ↔ Addressed t := by
  have hline : lastLine ('\r' :: '\n' :: t) = lastLine t := lastLine_append_feed ['\r'] t
  constructor
  · exact fun h => ⟨h.paired, hline ▸ h.narrow⟩
  · exact fun h => ⟨h.paired, hline.symm ▸ h.narrow⟩

theorem addressed_cons_iff {c : Char} {t : Text} (hc : c ≠ '\r') (h : '\n' ∈ c :: t) :
    Addressed (c :: t) ↔ Addressed t := by
  have hpaired : returnsPaired (c :: t) = returnsPaired t := by
    rw [returnsPaired_cons fun _ heq => absurd heq hc, decide_eq_true hc, Bool.true_and]
  constructor
  · exact fun ha => ⟨hpaired ▸ ha.paired, lastLine_cons h ▸ ha.narrow⟩
  · exact fun ha => ⟨hpaired.trans ha.paired, (lastLine_cons h).symm ▸ ha.narrow⟩

theorem unitIn_ending_of_not_mem {t : Text} (h : '\n' ∉ t) (rest : Text) :
    unitIn (t ++ rest) (ending t) ≤ (encode t).length ∧
      (unitIn (t ++ rest) (ending t) = (encode t).length ↔ Addressed t) := by
  have hunit : unitIn (t ++ rest) (ending t) =
      min t.length (encode ((t ++ rest).takeWhile fun c => !endsLine c)).length := by
    rw [unitIn, ending, List.count_eq_zero.2 h, lastLine_of_not_mem h, List.length_reverse, unitsFrom]
  rw [hunit, addressed_of_not_mem_iff h]
  by_cases hreturn : '\r' ∈ t
  · have hlt := length_encode_takeWhile_lt ⟨'\r', hreturn, rfl⟩ rest
    refine ⟨by omega, iff_of_false (by omega) fun ha => ha.1 hreturn⟩
  · have hwhole : ∀ c ∈ t, (!endsLine c) = true := by
      intro c hc
      have hne : c ≠ '\n' := fun heq => h (heq ▸ hc)
      have hne' : c ≠ '\r' := fun heq => hreturn (heq ▸ hc)
      simp [endsLine, hne, hne']
    have hle := length_le_encode t
    rw [List.takeWhile_append_of_pos hwhole, encode_append, List.length_append,
      Nat.min_eq_left (by omega), length_eq_encode_iff]
    exact ⟨hle, fun hnarrow => ⟨hreturn, hnarrow⟩, And.right⟩

theorem unitIn_pair_ending (t rest : Text) :
    unitIn ('\r' :: '\n' :: t ++ rest) (ending ('\r' :: '\n' :: t)) =
      unitIn (t ++ rest) (ending t) + 2 := by
  have hline : lastLine ('\r' :: '\n' :: t) = lastLine t := lastLine_append_feed ['\r'] t
  rw [unitIn, ending, hline, count_pair, List.cons_append, List.cons_append, unitsFrom]
  rfl

theorem unitIn_cons_ending {c : Char} {t : Text} (hc : c ≠ '\r') (h : '\n' ∈ c :: t) (rest : Text) :
    unitIn (c :: t ++ rest) (ending (c :: t)) =
      unitIn (t ++ rest) (ending t) + (units c).length := by
  have hpair : ∀ s, c = '\r' → t ++ rest = '\n' :: s → False := fun _ heq => absurd heq hc
  rw [unitIn, unitIn, ending, ending, lastLine_cons h, List.cons_append]
  by_cases hfeed : c = '\n'
  · subst hfeed
    rw [List.count_cons_self, unitsFrom_cons hpair]
    rfl
  · have hmem : '\n' ∈ t := (List.mem_cons.1 h).resolve_left (Ne.symm hfeed)
    obtain ⟨line, hline⟩ := Nat.exists_eq_succ_of_ne_zero (List.count_pos_iff.2 hmem).ne'
    have hends : endsLine c = false := by simp [endsLine, hfeed, hc]
    rw [List.count_cons_of_ne hfeed, hline, unitsFrom_cons hpair, hends]
    rfl

/-- Behind a carriage return without its line feed, the lines of an editor are ahead. -/
theorem unitIn_ending_lt_of_return {t : Text} (hpair : ∀ s, t = '\n' :: s → False) (h : '\n' ∈ t)
    (rest : Text) :
    unitIn ('\r' :: t ++ rest) (ending ('\r' :: t)) < (encode ('\r' :: t)).length := by
  obtain ⟨line, hline⟩ := Nat.exists_eq_succ_of_ne_zero (List.count_pos_iff.2 h).ne'
  have hrest := unitsFrom_lt (hline ▸ Nat.lt_succ_self line) (lastLine ('\r' :: t)).length rest
  rw [unitIn, ending, List.count_cons_of_ne (by decide), hline, List.cons_append,
    unitsFrom_cons (not_pair_append (fun s _ => hpair s) fun hnil => absurd hnil (List.ne_nil_of_mem h))]
  exact Nat.add_lt_add_right hrest 1

/-- An editor looks for the end of a text at its end or before it. -/
theorem unitIn_ending (t rest : Text) :
    unitIn (t ++ rest) (ending t) ≤ (encode t).length ∧
      (unitIn (t ++ rest) (ending t) = (encode t).length ↔ Addressed t) := by
  induction t using returnsPaired.induct with
  | case1 => exact unitIn_ending_of_not_mem List.not_mem_nil rest
  | case2 t ih =>
    rw [unitIn_pair_ending, length_encode_pair, addressed_pair_iff, Nat.add_right_cancel_iff]
    exact ⟨Nat.add_le_add_right ih.1 2, ih.2⟩
  | case3 c t hpair ih =>
    by_cases hmem : '\n' ∈ c :: t
    · by_cases hc : c = '\r'
      · subst hc
        have hlt := unitIn_ending_lt_of_return (fun s => hpair s rfl)
          ((List.mem_cons.1 hmem).resolve_left (by decide)) rest
        refine ⟨hlt.le, iff_of_false hlt.ne fun ha => ?_⟩
        have hpaired := ha.paired
        rw [returnsPaired_cons hpair] at hpaired
        cases hpaired
      · rw [unitIn_cons_ending hc hmem, addressed_cons_iff hc hmem, encode_cons, List.length_append,
          Nat.add_comm (units c).length, Nat.add_right_cancel_iff]
        exact ⟨Nat.add_le_add_right ih.1 _, ih.2⟩
    · exact unitIn_ending_of_not_mem hmem rest

theorem returnsPaired_append_return (t : Text) : returnsPaired (t ++ ['\r']) = false := by
  induction t using returnsPaired.induct with
  | case1 => rfl
  | case2 t ih => exact ih
  | case3 c t hpair ih =>
    rw [List.cons_append, returnsPaired_cons (not_pair_append hpair fun _ _ => by simp), ih,
      Bool.and_false]

/-- Behind a carriage return or a character of two units, a place is not found. -/
theorem of_addressed_append {t : Text} {c : Char} (h : Addressed (t ++ [c])) :
    c ≠ '\r' ∧ c.toNat < 0x10000 := by
  constructor
  · rintro rfl
    exact Bool.false_ne_true ((returnsPaired_append_return t).symm.trans h.paired)
  · by_cases hc : c = '\n'
    · subst hc
      decide
    · apply h.narrow
      rw [lastLine, List.reverse_append, List.reverse_singleton, List.singleton_append,
        List.takeWhile_cons, if_pos (by simpa using hc)]
      exact List.mem_cons_self

theorem addressed_take {t : Text} (h : ∀ c ∈ t, c ≠ '\r' ∧ c.toNat < 0x10000) (n : Nat) :
    Addressed (t.take n) := by
  refine ⟨returnsPaired_of_not_mem fun hmem => (h _ (List.mem_of_mem_take hmem)).1 rfl, ?_⟩
  intro c hc
  have hmem := List.mem_reverse.1 ((List.takeWhile_sublist _).mem hc)
  exact (h c (List.mem_of_mem_take hmem)).2

end Position

/-! ## Edits as an editor makes them -/

/-- The edit with its ends as an editor finds them, counted in units. -/
def PlacedEdit.inUnits (t : Text) (e : PlacedEdit) : Edit :=
  ⟨e.start.unitIn t, e.stop.unitIn t, e.replacement⟩

/-- Both ends of the edit are addressed in the text. -/
def Edit.EndsAddressed (t : Text) (e : Edit) : Prop :=
  Position.Addressed (t.take e.start.toNat) ∧ Position.Addressed (t.take e.stop.toNat)

instance (t : Text) (e : Edit) : Decidable (e.EndsAddressed t) :=
  inferInstanceAs (Decidable (Position.Addressed _ ∧ Position.Addressed _))

namespace Editor

/-- The units of a text with the spans of all edits exchanged at once. The edits come in order. -/
def unitsAfter (edits : List PlacedEdit) (t : Text) : List UInt16 :=
  Edit.weave id Utf16.encode (Utf16.encode t) 0 (edits.map (PlacedEdit.inUnits t))

/-- An editor that counts columns in units gets the second text from the first one. -/
def Obtains (edits : List PlacedEdit) (t result : Text) : Prop :=
  unitsAfter edits t = Utf16.encode result

instance (edits : List PlacedEdit) (t result : Text) : Decidable (Obtains edits t result) :=
  inferInstanceAs (Decidable (unitsAfter edits t = Utf16.encode result))

theorem unitsAfter_singleton (e : PlacedEdit) (t : Text) :
    unitsAfter [e] t = (Utf16.encode t).take (e.start.unitIn t) ++ (Utf16.encode e.replacement ++
      (Utf16.encode t).drop (e.stop.unitIn t)) :=
  List.append_assoc _ _ _

theorem unitIn_placeOf {t : Text} {n : Nat} (h : Position.Addressed (t.take n)) :
    (Snapshot.placeOf t n).unitIn t = t.codeOffset Utf16.units n := by
  have hending := (Position.unitIn_ending (t.take n) (t.drop n)).2.2 h
  rwa [List.take_append_drop] at hending

theorem unitsAfter_of_addressed {s : Snapshot} {edits : List Edit}
    (h : ∀ e ∈ edits, e.EndsAddressed s.text) :
    unitsAfter (edits.map (Edit.placedIn s)) s.text = Utf16.encode (Edit.splice edits s.text) := by
  have hplaces : ∀ e ∈ edits, ((e.placedIn s).inUnits s.text).start.toNat =
      s.text.codeOffset Utf16.units e.start.toNat ∧ ((e.placedIn s).inUnits s.text).stop.toNat =
      s.text.codeOffset Utf16.units e.stop.toNat ∧ ((e.placedIn s).inUnits s.text).text = e.text := by
    intro e he
    exact ⟨unitIn_placeOf (h e he).1, unitIn_placeOf (h e he).2, rfl⟩
  rw [unitsAfter, List.map_map]
  exact (Edit.weave_map hplaces Utf16.encode (Utf16.encode s.text) 0).trans
    (Edit.weave_flatMap Utf16.units id s.text 0 edits)

theorem placeFile_eq_ok_iff {f : FilePlan} {text : Text} (h : f.apply = .ok text)
    {d : DocumentEdits} :
    placeFile f = .ok d ↔ ∃ uri, Uri.ofPath? f.path = some uri ∧
      d = ⟨uri, f.path, f.snapshot.version, f.edits.map (Edit.placedIn f.snapshot)⟩ := by
  rw [placeFile, FilePlan.placed_eq h]
  cases Uri.ofPath? f.path with
  | none =>
    constructor
    · intro heq
      cases heq
    · rintro ⟨uri, huri, -⟩
      cases huri
  | some uri =>
    constructor
    · exact fun heq => ⟨uri, rfl, (Except.ok.inj heq).symm⟩
    · rintro ⟨_, huri, rfl⟩
      rw [Option.some.inj huri]

theorem obtains_iff_of_addressed {f : FilePlan} {new : Text} (h : f.apply = .ok new)
    (ha : ∀ e ∈ f.edits, e.EndsAddressed f.snapshot.text) (result : Text) :
    Obtains (f.edits.map (Edit.placedIn f.snapshot)) f.snapshot.text result ↔ result = new := by
  obtain ⟨hcheck, rfl⟩ := FilePlan.apply_eq_ok h
  rw [Obtains, unitsAfter_of_addressed ha, Edit.splice_eq_foldr hcheck, Utf16.encode_inj]
  exact eq_comm

/-- A place is found if a character that is put there comes to stand there, whichever it is. -/
theorem addressed_of_obtains {s : Snapshot} {n : Nat}
    (h : ∀ c, Obtains [Edit.placedIn s ⟨n, n, [c]⟩] s.text (s.text.take n ++ [c] ++ s.text.drop n)) :
    Position.Addressed (s.text.take n) := by
  obtain ⟨hle, hiff⟩ := Position.unitIn_ending (s.text.take n) (s.text.drop n)
  rw [List.take_append_drop] at hle hiff
  refine hiff.1 (hle.antisymm (Nat.le_of_not_lt fun hlt => ?_))
  -- The unit at the place that the editor takes is the new one, but should be an old one.
  generalize hunit : (Position.ending (s.text.take n)).unitIn s.text = unit at hlt
  have hlength : ((Utf16.encode s.text).take unit).length = unit :=
    List.length_take_of_le (hlt.le.trans (Utf16.length_encode_take_le s.text n))
  have hsame : ∀ c, (Utf16.encode [c] ++ (Utf16.encode s.text).drop unit)[0]? =
      (Utf16.encode (s.text.take n))[unit]? := by
    intro c
    have hunits : unitsAfter [Edit.placedIn s ⟨n, n, [c]⟩] s.text = (Utf16.encode s.text).take unit ++
        (Utf16.encode [c] ++ (Utf16.encode s.text).drop unit) := by
      rw [← hunit]
      exact unitsAfter_singleton _ _
    have heq := congrArg (fun units => units[unit]?) (hunits.symm.trans (h c))
    simp only [List.append_assoc, Utf16.encode_append] at heq
    rwa [List.getElem?_append_left hlt, List.getElem?_append_right hlength.le, hlength,
      Nat.sub_self] at heq
  exact absurd (Option.some.inj ((hsame 'a').trans (hsame 'b').symm)) (by decide)

/-- A single insertion is sent as such. -/
theorem placeFile_insertion {s : Snapshot} {n : Nat} (hn : n ≤ s.text.length)
    (hpath : s.path.isAbsolute = true) (text : Text) :
    FilePlan.apply { snapshot := s, insertions := [⟨n, text⟩] } =
        .ok (s.text.take n ++ text ++ s.text.drop n) ∧
      ∃ d, placeFile { snapshot := s, insertions := [⟨n, text⟩] } = .ok d ∧
        d.edits = [Edit.placedIn s ⟨n, n, text⟩] := by
  have hinside : ∀ i ∈ [(⟨n, text⟩ : Insertion)], 0 ≤ i.offset ∧ i.offset ≤ s.text.length := by
    simp only [List.forall_mem_singleton]
    omega
  have hin := Insertion.inOrder (List.pairwise_singleton _ _) hinside
  have happly := FilePlan.apply_insertions s (List.pairwise_singleton _ _) hinside
  refine ⟨happly, _, (placeFile_eq_ok_iff happly).2 ⟨_, if_pos hpath, rfl⟩, ?_⟩
  rw [FilePlan.edits_insertions s hin]
  rfl

/-- Edits are sent with the positions of their ends. An editor that counts columns in code units looks for
no end behind its place. It finds an end exactly if the text before it is addressed, and if it finds
all of them it gets the text that the plan makes and no other. Every plan for a text is taken rightly
exactly if the text has no carriage return and no character of two units. -/
theorem obtains_planned_text {f : FilePlan} {new : Text} (h : f.apply = .ok new)
    (hpath : f.path.isAbsolute = true) :
    (∀ n ≤ f.snapshot.text.length,
      (Snapshot.placeOf f.snapshot.text n).unitIn f.snapshot.text ≤
        (Utf16.encode (f.snapshot.text.take n)).length ∧
      ((Snapshot.placeOf f.snapshot.text n).unitIn f.snapshot.text =
        (Utf16.encode (f.snapshot.text.take n)).length ↔
          Position.Addressed (f.snapshot.text.take n))) ∧
    (∃ d, placeFile f = .ok d ∧
      ((∀ e ∈ f.edits, e.EndsAddressed f.snapshot.text) →
        ∀ result, Obtains d.edits f.snapshot.text result ↔ result = new)) ∧
    ((∀ g new' d', g.snapshot.text = f.snapshot.text → g.apply = .ok new' →
        placeFile g = .ok d' → Obtains d'.edits g.snapshot.text new') ↔
      ∀ c ∈ f.snapshot.text, c ≠ '\r' ∧ c.toNat < 0x10000) := by
  refine ⟨fun n _ => ?_, ?_, ?_, ?_⟩
  · have hending := Position.unitIn_ending (f.snapshot.text.take n) (f.snapshot.text.drop n)
    rwa [List.take_append_drop] at hending
  · obtain ⟨d, hd⟩ : ∃ d, placeFile f = .ok d := ⟨_, (placeFile_eq_ok_iff h).2 ⟨_, if_pos hpath, rfl⟩⟩
    obtain ⟨uri, -, rfl⟩ := (placeFile_eq_ok_iff h).1 hd
    exact ⟨_, hd, obtains_iff_of_addressed h⟩
  · intro hall c hc
    obtain ⟨before, rest, htext⟩ := List.append_of_mem hc
    have htake : f.snapshot.text.take (before.length + 1) = before ++ [c] := by
      rw [htext, List.append_cons, List.take_left' (by simp)]
    have hle : before.length + 1 ≤ f.snapshot.text.length := by
      rw [htext, List.length_append, List.length_cons]
      omega
    apply Position.of_addressed_append (t := before)
    rw [← htake]
    apply addressed_of_obtains (s := f.snapshot)
    intro x
    obtain ⟨hg, d, hd, hedits⟩ := placeFile_insertion hle hpath [x]
    have hobtains := hall { snapshot := f.snapshot, insertions := _ } _ d rfl hg hd
    rwa [hedits] at hobtains
  · intro hplain g new' d' htext hg hd
    obtain ⟨uri, -, rfl⟩ := (placeFile_eq_ok_iff hg).1 hd
    refine (obtains_iff_of_addressed hg (fun e _ => ?_) new').2 rfl
    rw [htext]
    exact ⟨Position.addressed_take hplain _, Position.addressed_take hplain _⟩

/-- In a text that has both kinds of characters, edits in a line behind them come out right, but there is
a plan for the same text that does not. -/
theorem obtains_planned_text_behind_pair :
    let f : FilePlan :=
      { snapshot := ⟨⟨.root, [['a']]⟩, "😀\r\né\nab".toList, none⟩
        insertions := [⟨4, ['X']⟩]
        replacements := [⟨5, 6, ['Y']⟩] }
    f.apply = .ok "😀\r\néX\nYb".toList ∧
      (∃ d, placeFile f = .ok d ∧ Obtains d.edits f.snapshot.text "😀\r\néX\nYb".toList) ∧
      ∃ g new d, g.snapshot.text = f.snapshot.text ∧ g.apply = .ok new ∧ placeFile g = .ok d ∧
        ¬ Obtains d.edits g.snapshot.text new := by
  intro f
  have hin : Edit.InOrder f.snapshot.text.length
      (f.insertions.map Insertion.edit ++ f.replacements) := ⟨by decide, by decide⟩
  have hedits : f.edits = f.insertions.map Insertion.edit ++ f.replacements := hin.sort_eq
  have happly : f.apply = .ok "😀\r\néX\nYb".toList := by
    rw [FilePlan.apply, hedits, hin.apply_eq]
    rfl
  obtain ⟨-, ⟨d, hd, hright⟩, hall⟩ := obtains_planned_text happly rfl
  refine ⟨happly, ⟨d, hd, (hright ?_ _).2 rfl⟩, ?_⟩
  · rw [hedits]
    decide
  · by_contra hnone
    have hplain := hall.1 fun g new d htext hg hd => by
      by_contra hwrong
      exact hnone ⟨g, new, d, htext, hg, hd, hwrong⟩
    exact absurd (hplain '\r' (by decide)).1 (by decide)

/-- Behind a character of two units an insertion is made too early, and behind a carriage return that
stands alone it is made in the line before. -/
theorem misplaces_insertions :
    let wide : FilePlan :=
      { snapshot := ⟨⟨.root, [['a']]⟩, "😀ab".toList, none⟩, insertions := [⟨2, ['X']⟩] }
    let returned : FilePlan :=
      { snapshot := ⟨⟨.root, [['a']]⟩, "a\rb".toList, none⟩, insertions := [⟨3, ['X']⟩] }
    (wide.apply = .ok "😀aXb".toList ∧ ∃ d, placeFile wide = .ok d ∧
      Obtains d.edits wide.snapshot.text "😀Xab".toList ∧
      ¬ Obtains d.edits wide.snapshot.text "😀aXb".toList) ∧
    returned.apply = .ok "a\rbX".toList ∧ ∃ d, placeFile returned = .ok d ∧
      Obtains d.edits returned.snapshot.text "aX\rb".toList ∧
      ¬ Obtains d.edits returned.snapshot.text "a\rbX".toList := by
  intro wide returned
  obtain ⟨hwide, d, hd, hedits⟩ := placeFile_insertion (s := wide.snapshot) (n := 2) (by decide) rfl ['X']
  obtain ⟨hreturned, d', hd', hedits'⟩ :=
    placeFile_insertion (s := returned.snapshot) (n := 3) (by decide) rfl ['X']
  refine ⟨⟨hwide, d, hd, ?_, ?_⟩, hreturned, d', hd', ?_, ?_⟩
  · rw [hedits]
    decide
  · rw [hedits]
    decide
  · rw [hedits']
    decide
  · rw [hedits']
    decide

end Editor

end PropAccord
