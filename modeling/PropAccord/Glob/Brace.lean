import PropAccord.Text.Basic

/-!
# Alternatives in braces

A pattern may list alternatives between braces, `*.{ts,tsx}`, and stands for the patterns in which
one of them is chosen. The innermost group that opens first is expanded first, so groups may be
nested; braces that do not pair up are ordinary characters. Each group on the way takes one more nested
call, and the calls may be limited.
-/

namespace PropAccord.Brace

set_option autoImplicit false

def isBrace (c : Char) : Bool := c == '\x7b' || c == '\x7d'

structure Group where
  before : Text
  body : Text
  after : Text

def firstGroup? : Text → Option Group
  | [] => none
  | c :: rest =>
    let later := (firstGroup? rest).map fun g => { g with before := c :: g.before }
    if c = '\x7b' then
      match rest.dropWhile (!isBrace ·) with
      | '\x7d' :: after => some ⟨[], rest.takeWhile (!isBrace ·), after⟩
      | _ => later
    else later

theorem firstGroup?_eq_some {text : Text} {g : Group} (h : firstGroup? text = some g) :
    text = g.before ++ '\x7b' :: (g.body ++ '\x7d' :: g.after) ∧ ∀ c ∈ g.body, isBrace c = false := by
  induction text generalizing g with
  | nil => simp [firstGroup?] at h
  | cons c rest ih =>
    have hlater : (firstGroup? rest).map (fun g => { g with before := c :: g.before }) = some g →
        c :: rest = g.before ++ '\x7b' :: (g.body ++ '\x7d' :: g.after) ∧
          ∀ c ∈ g.body, isBrace c = false := by
      intro hl
      obtain ⟨g', hg', rfl⟩ := Option.map_eq_some_iff.1 hl
      obtain ⟨heq, hbody⟩ := ih hg'
      exact ⟨by simp [← heq], hbody⟩
    simp only [firstGroup?] at h
    split at h
    · rename_i hc
      split at h
      · rename_i after heq
        have htext := List.takeWhile_append_dropWhile (p := (!isBrace ·)) (l := rest)
        rw [heq] at htext
        simp only [Option.some.injEq] at h
        subst h
        refine ⟨by simp [hc, htext], fun d hd => ?_⟩
        have := List.all_takeWhile (p := (!isBrace ·)) (l := rest)
        simpa using List.all_eq_true.1 this d hd
      · exact hlater h
    · exact hlater h

theorem count_option_lt {text option : Text} {g : Group} (h : firstGroup? text = some g)
    (ho : option ∈ g.body.splitOn ',') :
    (g.before ++ option ++ g.after).count '\x7b' < text.count '\x7b' := by
  obtain ⟨heq, hbody⟩ := firstGroup?_eq_some h
  have hzero : option.count '\x7b' = 0 := by
    rw [List.count_eq_zero]
    intro hmem
    exact absurd (hbody _ (Text.mem_of_mem_splitOn ho hmem)) (by decide)
  rw [heq]
  have hopen : ('\x7b' == '\x7b') = true := rfl
  have hclose : ('\x7d' == '\x7b') = false := rfl
  simp only [List.count_append, List.count_cons, hzero, hopen, hclose, if_true]
  omega

/-- The patterns that a pattern with alternatives stands for, in the order of the alternatives and
with repetitions. -/
def expand (pattern : Text) : List Text :=
  match _h : firstGroup? pattern with
  | none => [pattern]
  | some g => (g.body.splitOn ',').attach.flatMap fun ⟨option, _⟩ =>
      expand (g.before ++ option ++ g.after)
termination_by pattern.count '\x7b'
decreasing_by
  rename_i hmem
  exact count_option_lt _h hmem

/-- The same with so many nested calls at hand. There is no result if they do not suffice. -/
def expandWithin : Nat → Text → Option (List Text)
  | 0, _ => none
  | calls + 1, pattern =>
    match firstGroup? pattern with
    | none => some [pattern]
    | some g => do
      let expanded ← (g.body.splitOn ',').mapM fun option =>
        expandWithin calls (g.before ++ option ++ g.after)
      return expanded.flatten

end PropAccord.Brace
