import PropAccord.Proofs.Globs
import PropAccord.Proofs.Lists

/-!
# Groups of alternatives

Expanding a pattern looks for the first group without a group inside and puts one of its options in its
place, again and again. A text has no such group exactly if no brace opens in front of one that closes,
and every step takes one group away, whichever option is taken: so the steps end on every text, braces
that do not pair up included, and there are as many of them as the pattern has groups. Each step is a
nested call, so limited calls suffice exactly if there are more of them than groups.
-/

namespace PropAccord

set_option autoImplicit false

namespace Brace

/-! ## The first group -/

theorem firstGroup?_of_cons {c : Char} {p : Text} (h : firstGroup? (c :: p) = none) :
    firstGroup? p = none := by
  simp only [firstGroup?] at h
  split at h
  · split at h
    · cases h
    · exact Option.map_eq_none_iff.1 h
  · exact Option.map_eq_none_iff.1 h

theorem firstGroup?_cons_of_ne {c : Char} (hc : c ≠ '{') (p : Text) :
    firstGroup? (c :: p) = (firstGroup? p).map fun g => { g with before := c :: g.before } :=
  if_neg hc

/-- A brace that opens and is followed by another one opens no group. -/
theorem firstGroup?_open {p : Text} (hp : ∀ after, p.dropWhile (!isBrace ·) ≠ '}' :: after) :
    firstGroup? ('{' :: p) = (firstGroup? p).map fun g => { g with before := '{' :: g.before } := by
  rw [firstGroup?, if_pos rfl]
  split
  · rename_i after hafter
    exact absurd hafter (hp after)
  · rfl

theorem firstGroup?_group {body : Text} (hbody : ∀ c ∈ body, isBrace c = false) (after : Text) :
    firstGroup? ('{' :: (body ++ '}' :: after)) = some ⟨[], body, after⟩ := by
  have hplain : ∀ c ∈ body, (!isBrace c) = true := fun c hc => by rw [hbody c hc]; rfl
  have hclose : ¬ (!isBrace '}') = true := by decide
  have hdrop : (body ++ '}' :: after).dropWhile (!isBrace ·) = '}' :: after :=
    (List.dropWhile_append_of_pos hplain).trans (List.dropWhile_cons_of_neg hclose)
  have htake : (body ++ '}' :: after).takeWhile (!isBrace ·) = body := by
    rw [List.takeWhile_append_of_pos hplain]
    exact (congrArg (body ++ ·) (List.takeWhile_cons_of_neg hclose)).trans (List.append_nil body)
  rw [firstGroup?, if_pos rfl, hdrop, htake]
  rfl

theorem firstGroup?_append_left {a : Text} (ha : '{' ∉ a) (p : Text) :
    firstGroup? (a ++ p) = (firstGroup? p).map fun g => { g with before := a ++ g.before } := by
  induction a with
  | nil => exact Option.map_id'.symm
  | cons c a ih =>
    rw [List.mem_cons, not_or] at ha
    rw [List.cons_append, firstGroup?_cons_of_ne (Ne.symm ha.1), ih ha.2, Option.map_map]
    rfl

/-- What opens without closing is passed over. -/
theorem firstGroup?_append_right {b : Text} (hb : '}' ∉ b) {p : Text}
    (hp : ∀ after, p.dropWhile (!isBrace ·) ≠ '}' :: after) :
    firstGroup? (b ++ p) = (firstGroup? p).map fun g => { g with before := b ++ g.before } := by
  induction b with
  | nil => exact Option.map_id'.symm
  | cons c b ih =>
    rw [List.mem_cons, not_or] at hb
    have hlater : firstGroup? (c :: (b ++ p)) =
        (firstGroup? (b ++ p)).map fun g => { g with before := c :: g.before } := by
      by_cases hc : c = '{'
      · subst hc
        refine firstGroup?_open fun after hafter => ?_
        rw [List.dropWhile_append] at hafter
        split at hafter
        · exact hp after hafter
        · rename_i hempty
          obtain ⟨d, rest, hrest⟩ :=
            List.exists_cons_of_ne_nil fun hnil => hempty (List.isEmpty_iff.2 hnil)
          rw [hrest] at hafter
          obtain rfl : d = '}' := (List.cons.inj hafter).1
          exact hb.2 ((List.dropWhile_suffix _).subset (hrest ▸ List.mem_cons_self))
      · exact firstGroup?_cons_of_ne hc _
    rw [List.cons_append, hlater, ih hb.2, Option.map_map]
    rfl

/-- There is no group in a text exactly if no brace opens in front of one that closes. -/
theorem firstGroup?_eq_none_iff {p : Text} :
    firstGroup? p = none ↔ ∃ a b, p = a ++ b ∧ '{' ∉ a ∧ '}' ∉ b := by
  constructor
  · intro h
    induction p with
    | nil => exact ⟨[], [], rfl, List.not_mem_nil, List.not_mem_nil⟩
    | cons c p ih =>
      obtain ⟨a, b, rfl, ha, hb⟩ := ih (firstGroup?_of_cons h)
      by_cases hc : c = '{'
      · subst hc
        -- Were there a closing brace, the first one would end a group that opens here.
        have hclose : '}' ∉ a ++ b := by
          intro hmem
          obtain ⟨body, after, hparts, hbody⟩ := List.eq_append_cons_of_mem hmem
          have hopen : '{' ∉ body := by
            rcases List.append_eq_append_iff.1 hparts with ⟨w, -, rfl⟩ | ⟨w, rfl, -⟩
            · exact absurd (List.mem_append_right w List.mem_cons_self) hb
            · exact fun hmem => ha (List.mem_append_left w hmem)
          have hplain : ∀ c ∈ body, isBrace c = false := by
            intro c hc
            rw [isBrace, Bool.or_eq_false_iff, beq_eq_false_iff_ne, beq_eq_false_iff_ne]
            exact ⟨fun heq => hopen (heq ▸ hc), fun heq => hbody (heq ▸ hc)⟩
          rw [hparts, firstGroup?_group hplain] at h
          cases h
        exact ⟨[], '{' :: (a ++ b), rfl, List.not_mem_nil, by simpa using hclose⟩
      · exact ⟨c :: a, b, rfl, by simpa using ⟨Ne.symm hc, ha⟩, hb⟩
  · rintro ⟨a, b, rfl, ha, hb⟩
    have hright := firstGroup?_append_right hb (p := []) fun after => (List.cons_ne_nil '}' after).symm
    rw [List.append_nil] at hright
    rw [firstGroup?_append_left ha, hright]
    rfl

/-- What stands in front of a group and holds none itself stays in front. -/
theorem firstGroup?_append {u body : Text} (hu : firstGroup? u = none)
    (hbody : ∀ c ∈ body, isBrace c = false) (after : Text) :
    firstGroup? (u ++ '{' :: (body ++ '}' :: after)) = some ⟨u, body, after⟩ := by
  obtain ⟨a, b, rfl, ha, hb⟩ := firstGroup?_eq_none_iff.1 hu
  have hnext : ∀ rest : Text, ('{' :: (body ++ '}' :: after)).dropWhile (!isBrace ·) ≠ '}' :: rest := by
    intro rest heq
    rw [List.dropWhile_cons_of_neg (by decide)] at heq
    exact absurd (List.cons.inj heq).1 (by decide)
  rw [List.append_assoc, firstGroup?_append_left ha, firstGroup?_append_right hb hnext,
    firstGroup?_group hbody]
  simp

theorem firstGroup?_append_plain {u s : Text} (hu : firstGroup? u = none)
    (hs : ∀ c ∈ s, isBrace c = false) : firstGroup? (u ++ s) = none := by
  obtain ⟨a, b, rfl, ha, hb⟩ := firstGroup?_eq_none_iff.1 hu
  have hclose : '}' ∉ s := fun hmem => absurd (hs _ hmem) (by decide)
  exact firstGroup?_eq_none_iff.2 ⟨a, b ++ s, List.append_assoc a b s, ha, List.not_mem_append hb hclose⟩

theorem firstGroup?_append_open {u : Text} (hu : firstGroup? u = none) :
    firstGroup? (u ++ ['{']) = none := by
  obtain ⟨a, b, rfl, ha, hb⟩ := firstGroup?_eq_none_iff.1 hu
  exact firstGroup?_eq_none_iff.2
    ⟨a, b ++ ['{'], List.append_assoc a b _, ha, List.not_mem_append hb (by decide)⟩

/-- There is no group in a text exactly if no part of it is one. -/
theorem firstGroup?_eq_none_iff_forall {p : Text} :
    firstGroup? p = none ↔ ∀ before body after : Text, (∀ c ∈ body, isBrace c = false) →
      p ≠ before ++ '{' :: (body ++ '}' :: after) := by
  constructor
  · rintro h before body after hbody rfl
    induction before with
    | nil =>
      rw [List.nil_append, firstGroup?_group hbody] at h
      cases h
    | cons c before ih => exact ih (firstGroup?_of_cons h)
  · intro h
    by_contra hne
    obtain ⟨g, hg⟩ := Option.ne_none_iff_exists'.1 hne
    obtain ⟨hparts, hbody⟩ := firstGroup?_eq_some hg
    exact h g.before g.body g.after hbody hparts

/-! ## Counting groups -/

structure Tally where
  opened : Nat := 0
  groups : Nat := 0

/-- A closing brace ends the group that was opened last. -/
def Tally.add (t : Tally) (c : Char) : Tally :=
  if c = '\x7b' then { t with opened := t.opened + 1 }
  else if c = '\x7d' ∧ 0 < t.opened then ⟨t.opened - 1, t.groups + 1⟩
  else t

def groups (pattern : Text) : Nat := (pattern.foldl Tally.add {}).groups

theorem Tally.add_of_plain {c : Char} (hc : isBrace c = false) (t : Tally) : t.add c = t := by
  rw [isBrace, Bool.or_eq_false_iff, beq_eq_false_iff_ne, beq_eq_false_iff_ne] at hc
  rw [add, if_neg hc.1, if_neg fun h => hc.2 h.1]

theorem Tally.foldl_add_plain {s : Text} (hs : ∀ c ∈ s, isBrace c = false) (t : Tally) :
    s.foldl add t = t := by
  induction s with
  | nil => rfl
  | cons c s ih =>
    rw [List.forall_mem_cons] at hs
    rw [List.foldl_cons, add_of_plain hs.1, ih hs.2]

/-- Only braces count. -/
theorem groups_filter (p : Text) : groups (p.filter isBrace) = groups p := by
  rw [groups, groups, List.foldl_filter]
  congr 2
  funext t c
  cases hc : isBrace c with
  | true => rfl
  | false => exact (Tally.add_of_plain hc t).symm

theorem filter_dropWhile_isBlank (p : Text) :
    (p.dropWhile isBlank).filter isBrace = p.filter isBrace := by
  induction p with
  | nil => rfl
  | cons c p ih =>
    rw [List.dropWhile_cons]
    split
    · rename_i hblank
      have hplain : ¬ isBrace c = true := by
        intro hbrace
        rw [isBrace, Bool.or_eq_true, beq_iff_eq, beq_iff_eq] at hbrace
        rcases hbrace with rfl | rfl <;> cases hblank
      rw [ih, List.filter_cons_of_neg hplain]
    · rfl

theorem groups_strip (p : Text) : groups p.strip = groups p := by
  rw [← groups_filter, Text.strip, Text.stripEnd, List.filter_reverse, filter_dropWhile_isBlank,
    ← List.filter_reverse, List.reverse_reverse, Text.stripStart, filter_dropWhile_isBlank,
    groups_filter]

/-- Groups that were counted before change nothing. -/
theorem Tally.foldl_add_groups (p : Text) (opened counted : Nat) :
    (p.foldl add ⟨opened, counted⟩).groups = counted + (p.foldl add ⟨opened, 0⟩).groups := by
  induction p generalizing opened counted with
  | nil => rfl
  | cons c p ih =>
    rw [List.foldl_cons, List.foldl_cons]
    by_cases hopen : c = '{'
    · simp only [add, if_pos hopen]
      exact ih (opened + 1) counted
    · by_cases hclose : c = '}' ∧ 0 < opened
      · simp only [add, if_neg hopen, if_pos hclose]
        rw [ih _ (counted + 1), ih _ (0 + 1)]
        omega
      · simp only [add, if_neg hopen, if_neg hclose]
        exact ih opened counted

theorem groups_eq_zero_of_firstGroup? {p : Text} (h : firstGroup? p = none) : groups p = 0 := by
  obtain ⟨a, b, rfl, ha, hb⟩ := firstGroup?_eq_none_iff.1 h
  have hleft : ∀ a : Text, '{' ∉ a → a.foldl Tally.add {} = {} := by
    intro a ha
    induction a with
    | nil => rfl
    | cons c a ih =>
      rw [List.mem_cons, not_or] at ha
      rw [List.foldl_cons, Tally.add, if_neg (Ne.symm ha.1), if_neg (by simp), ih ha.2]
  have hright : ∀ (b : Text) (opened : Nat), '}' ∉ b →
      (b.foldl Tally.add ⟨opened, 0⟩).groups = 0 := by
    intro b
    induction b with
    | nil => exact fun _ _ => rfl
    | cons c b ih =>
      intro opened hb
      rw [List.mem_cons, not_or] at hb
      rw [List.foldl_cons, Tally.add]
      split
      · exact ih _ hb.2
      · rw [if_neg fun h => hb.1 h.1.symm]
        exact ih _ hb.2
  rw [groups, List.foldl_append, hleft a ha]
  exact hright b 0 hb

/-- With one of its options in the place of the first group there is one group less. -/
theorem groups_of_firstGroup? {p option : Text} {g : Group} (h : firstGroup? p = some g)
    (hoption : option ∈ g.body.splitOn ',') :
    groups p = groups (g.before ++ option ++ g.after) + 1 := by
  obtain ⟨heq, hbody⟩ := firstGroup?_eq_some h
  have hplain : ∀ c ∈ option, isBrace c = false :=
    fun c hc => hbody c (Text.mem_of_mem_splitOn hoption hc)
  have hgroup : ∀ t : Tally, ('{' :: (g.body ++ '}' :: g.after)).foldl Tally.add t =
      g.after.foldl Tally.add ⟨t.opened, t.groups + 1⟩ := by
    intro t
    rw [List.foldl_cons, List.foldl_append, Tally.foldl_add_plain hbody, List.foldl_cons]
    congr 1
  have hcount := Tally.foldl_add_groups g.after (g.before.foldl Tally.add {}).opened
  rw [groups, groups, heq, List.foldl_append, hgroup, List.append_assoc, List.foldl_append,
    List.foldl_append, Tally.foldl_add_plain hplain, hcount, hcount (Tally.groups _)]
  omega

theorem groups_replicate (n : Nat) : groups (List.replicate n "\x7ba\x7d".toList).flatten = n := by
  have hfold (k : Nat) : (List.replicate n "\x7ba\x7d".toList).flatten.foldl Tally.add ⟨0, k⟩ =
      ⟨0, k + n⟩ := by
    induction n generalizing k with
    | zero => rfl
    | succ n ih =>
      rw [List.replicate_succ, List.flatten_cons, List.foldl_append]
      exact (ih (k + 1)).trans (by rw [Nat.add_assoc, Nat.add_comm 1])
  rw [groups, hfold, Nat.zero_add]

/-! ## Rewriting -/

/-- The first group is replaced by one of its options, so many times in a row. -/
inductive Rewrites : Nat → Text → Text → Prop where
  | refl (p : Text) : Rewrites 0 p p
  | step {n : Nat} {p q option : Text} {g : Group} : firstGroup? p = some g →
      option ∈ g.body.splitOn ',' → Rewrites n (g.before ++ option ++ g.after) q →
      Rewrites (n + 1) p q

theorem Rewrites.groups_eq {n : Nat} {p q : Text} (h : Rewrites n p q) :
    groups p = n + groups q := by
  induction h with
  | refl p => exact (Nat.zero_add _).symm
  | step hg hoption _ ih => rw [groups_of_firstGroup? hg hoption, ih, Nat.add_right_comm]

theorem firstGroup?_eq_none_of_mem_expand {p q : Text} (h : q ∈ expand p) : firstGroup? q = none := by
  induction p using expand.induct with
  | case1 p hnone =>
    rw [expand_of_firstGroup?_eq_none hnone, List.mem_singleton] at h
    rwa [h]
  | case2 p g hsome ih =>
    obtain ⟨option, hoption, h⟩ := (mem_expand_iff hsome).1 h
    exact ih option hoption h

theorem expand_ne_nil (p : Text) : expand p ≠ [] := by
  induction p using expand.induct with
  | case1 p hnone =>
    rw [expand_of_firstGroup?_eq_none hnone]
    exact List.cons_ne_nil p []
  | case2 p g hsome ih =>
    obtain ⟨option, hoption⟩ := List.exists_mem_of_ne_nil _ (List.splitOn_ne_nil ',' g.body)
    obtain ⟨q, hq⟩ := List.exists_mem_of_ne_nil _ (ih option hoption)
    exact List.ne_nil_of_mem ((mem_expand_iff hsome).2 ⟨option, hoption, hq⟩)

/-- The alternatives are what the pattern is rewritten to in as many steps as it has groups. -/
theorem mem_expand_iff_rewrites {p q : Text} : q ∈ expand p ↔ Rewrites (groups p) p q := by
  induction p using expand.induct with
  | case1 p hnone =>
    rw [expand_of_firstGroup?_eq_none hnone, groups_eq_zero_of_firstGroup? hnone, List.mem_singleton]
    constructor
    · rintro rfl
      exact .refl q
    · intro h
      cases h
      rfl
  | case2 p g hsome ih =>
    rw [mem_expand_iff hsome]
    constructor
    · rintro ⟨option, hoption, h⟩
      rw [groups_of_firstGroup? hsome hoption]
      exact .step hsome hoption ((ih option hoption).1 h)
    · intro h
      generalize hn : groups p = n at h
      cases h with
      | refl =>
        obtain ⟨option, hoption⟩ := List.exists_mem_of_ne_nil _ (List.splitOn_ne_nil ',' g.body)
        rw [groups_of_firstGroup? hsome hoption] at hn
        cases hn
      | @step n _ _ option g' hg hoption h =>
        obtain rfl := Option.some.inj (hsome.symm.trans hg)
        rw [groups_of_firstGroup? hsome hoption] at hn
        obtain rfl := Nat.succ.inj hn
        exact ⟨option, hoption, (ih option hoption).2 h⟩

/-! ## Limited calls -/

/-- Whichever options are taken, there is one call for each group, and one more that finds none left. -/
theorem expandWithin_eq (calls : Nat) (p : Text) :
    expandWithin calls p = if groups p < calls then some (expand p) else none := by
  induction calls generalizing p with
  | zero => rfl
  | succ calls ih =>
    rw [expandWithin]
    cases hg : firstGroup? p with
    | none =>
      rw [groups_eq_zero_of_firstGroup? hg, if_pos (Nat.succ_pos calls),
        expand_of_firstGroup?_eq_none hg]
    | some g =>
      dsimp only
      have hoption : ∀ option ∈ g.body.splitOn ',', expandWithin calls (g.before ++ option ++ g.after) =
          if groups p < calls + 1 then some (expand (g.before ++ option ++ g.after)) else none := by
        intro option hoption
        rw [ih, groups_of_firstGroup? hg hoption]
        simp only [Nat.add_lt_add_iff_right]
      by_cases hlt : groups p < calls + 1
      · simp only [if_pos hlt] at hoption
        rw [if_pos hlt, mapM_eq_some_map hoption, expand_of_firstGroup? hg]
        rfl
      · simp only [if_neg hlt] at hoption
        -- The first option already comes to nothing.
        obtain ⟨first, rest, hsplit⟩ :=
          List.exists_cons_of_ne_nil (List.splitOn_ne_nil ',' g.body)
        rw [if_neg hlt, hsplit, List.mapM_cons, hoption first (hsplit ▸ List.mem_cons_self)]
        rfl

end Brace

namespace Glob

theorem expansion_eq_ok_iff {calls : Option Nat} {pattern : Text} {found : List Text} :
    expansion calls pattern = .ok found ↔
      (∀ n ∈ calls, Brace.groups pattern < n) ∧ found = Brace.expand pattern := by
  cases calls with
  | none => simp [expansion, eq_comm]
  | some n =>
    simp only [expansion, Brace.expandWithin_eq, Option.mem_some_iff, forall_eq']
    by_cases h : Brace.groups pattern < n
    · rw [if_pos h, and_iff_right h, Option.elim_some, Except.ok.injEq, eq_comm]
    · rw [if_neg h]
      exact iff_of_false nofun fun hfound => h hfound.1

theorem expansion_eq_error_iff {calls : Option Nat} {pattern : Text} {fault : Fault} :
    expansion calls pattern = .error fault ↔ ∃ n ∈ calls, n ≤ Brace.groups pattern := by
  cases calls with
  | none => simp [expansion]
  | some n =>
    simp only [expansion, Brace.expandWithin_eq, Option.mem_some_iff, exists_eq_left']
    by_cases h : Brace.groups pattern < n
    · rw [if_pos h]
      exact iff_of_false nofun (Nat.not_le.2 h)
    · rw [if_neg h]
      exact iff_of_true (by cases fault; rfl) (Nat.not_lt.1 h)

/-- The pattern is looked at, and has more groups than can be expanded with so many nested calls. -/
def refuses (calls : Option Nat) (pattern : Text) : Bool :=
  !pattern.isEmpty && calls.any (· ≤ Brace.groups pattern)

/-- A test fails for no other reason than its pattern, and otherwise says what is accepted. -/
theorem test_eq (calls : Option Nat) (pattern path : Text) : test calls pattern path =
    if refuses calls pattern then .error .tooManyGroups else .ok (accepts pattern path) := by
  rw [test, refuses, accepts, alternatives, ← Brace.groups_strip pattern]
  cases pattern.isEmpty with
  | true => rfl
  | false =>
    cases hmany : calls.any (· ≤ Brace.groups pattern.strip) with
    | true =>
      obtain ⟨n, hn, hle⟩ := (Option.any_eq_true _ _).1 hmany
      have hfault : expansion calls pattern.strip = .error .tooManyGroups :=
        expansion_eq_error_iff.2 ⟨n, hn, of_decide_eq_true hle⟩
      rw [hfault]
      rfl
    | false =>
      have hfew : ∀ n ∈ calls, Brace.groups pattern.strip < n := fun n hn =>
        Nat.not_le.1 (of_decide_eq_false ((Option.any_eq_false _ _).1 hmany n hn))
      rw [expansion_eq_ok_iff.2 ⟨hfew, rfl⟩]
      rfl

end Glob

end PropAccord
