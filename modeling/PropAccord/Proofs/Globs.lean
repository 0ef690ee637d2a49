import Mathlib.Data.List.Forall2
import PropAccord.Glob.Basic

/-!
# Paths cut by patterns

A pattern without alternatives is spelled as a list of tokens, and a path fits if it can be cut into
pieces, one for each token and in their order. Matching tries the pieces from left to right and looks at
every length that a piece may have, so it finds a cut where there is one. Paths have no line feed here:
a line feed is the one character that a token for any text does not cross.
-/

namespace PropAccord

set_option autoImplicit false

namespace Glob

/-- What a piece of a path may be where a token stands. -/
def Token.Covers : Token → Text → Prop
  | .folders, piece => piece = [] ∨ ∃ path, piece = path ++ ['/']
  | .anything, _ => True
  | .part, piece => '/' ∉ piece
  | .one, piece => ∃ c, c ≠ '/' ∧ piece = [c]
  | .literal c, piece => piece = [c]

/-- The path is made of pieces, one for each token. -/
def Cuts (ts : List Token) (path : Text) : Prop :=
  ∃ pieces : List Text, pieces.flatten = path ∧ List.Forall₂ Token.Covers ts pieces

/-- How tokens are spelled. Stars are read in pairs as long as there are two, and a slash behind a pair
belongs to it. -/
inductive Spells : Text → List Token → Prop where
  | nil : Spells [] []
  | folders {rest : Text} {ts : List Token} : Spells rest ts →
      Spells ('*' :: '*' :: '/' :: rest) (.folders :: ts)
  | anything {rest : Text} {ts : List Token} : rest.head? ≠ some '/' → Spells rest ts →
      Spells ('*' :: '*' :: rest) (.anything :: ts)
  | part {rest : Text} {ts : List Token} : rest.head? ≠ some '*' → Spells rest ts →
      Spells ('*' :: rest) (.part :: ts)
  | one {rest : Text} {ts : List Token} : Spells rest ts → Spells ('?' :: rest) (.one :: ts)
  | literal {c : Char} {rest : Text} {ts : List Token} : c ≠ '*' → c ≠ '?' → Spells rest ts →
      Spells (c :: rest) (.literal c :: ts)

theorem spells_tokens (p : Text) : Spells p (tokens p) := by
  induction p using tokens.induct with
  | case1 => exact .nil
  | case2 rest ih =>
    rw [tokens]
    exact .folders ih
  | case3 rest hslash ih =>
    rw [tokens]
    · refine .anything ?_ ih
      cases rest with
      | nil => exact nofun
      | cons c rest => exact fun heq => hslash rest (by rw [Option.some.inj heq])
    · exact hslash
  | case4 rest hfolders hanything ih =>
    rw [tokens]
    · refine .part ?_ ih
      cases rest with
      | nil => exact nofun
      | cons c rest => exact fun heq => hanything rest (by rw [Option.some.inj heq])
    · exact hfolders
    · exact hanything
  | case5 rest ih =>
    rw [tokens]
    exact .one ih
  | case6 c rest hfolders hanything hpart hone ih =>
    rw [tokens]
    · exact .literal (fun heq => hpart heq) (fun heq => hone heq) ih
    all_goals assumption

theorem Spells.tokens_eq {p : Text} {ts : List Token} (h : Spells p ts) : tokens p = ts := by
  induction h with
  | nil => rfl
  | folders _ ih => rw [tokens, ih]
  | anything hslash _ ih =>
    rw [tokens, ih]
    rintro rest rfl
    exact hslash rfl
  | part hstar _ ih =>
    rw [tokens, ih]
    · rintro rest rfl
      exact hstar rfl
    · rintro rest rfl
      exact hstar rfl
  | one _ ih => rw [tokens, ih]
  | literal hstar hone _ ih =>
    rw [tokens, ih]
    · exact fun rest heq _ => hstar heq
    · exact fun rest heq _ => hstar heq
    · exact hstar
    · exact hone

theorem run_eq_true_iff {among : Char → Bool} {next : Text → Bool} {path : Text} :
    run among next path = true ↔
      ∃ piece rest, path = piece ++ rest ∧ (∀ c ∈ piece, among c = true) ∧ next rest = true := by
  induction path with
  | nil =>
    rw [run]
    constructor
    · intro h
      exact ⟨[], [], rfl, nofun, h⟩
    · rintro ⟨piece, rest, heq, -, hrest⟩
      obtain ⟨rfl, rfl⟩ := List.append_eq_nil_iff.1 heq.symm
      exact hrest
  | cons c path ih =>
    rw [run, Bool.or_eq_true, Bool.and_eq_true, ih]
    constructor
    · rintro (h | ⟨hc, piece, rest, rfl, hpiece, hrest⟩)
      · exact ⟨[], c :: path, rfl, nofun, h⟩
      · exact ⟨c :: piece, rest, rfl, List.forall_mem_cons.2 ⟨hc, hpiece⟩, hrest⟩
    · rintro ⟨piece, rest, heq, hpiece, hrest⟩
      cases piece with
      | nil => exact Or.inl (heq ▸ hrest)
      | cons d piece =>
        obtain ⟨rfl, rfl⟩ := List.cons.inj heq
        rw [List.forall_mem_cons] at hpiece
        exact Or.inr ⟨hpiece.1, piece, rest, rfl, hpiece.2, hrest⟩

theorem throughSlash_eq_true_iff {next : Text → Bool} {path : Text} (h : '\n' ∉ path) :
    throughSlash next path = true ↔
      ∃ piece rest, path = piece ++ '/' :: rest ∧ next rest = true := by
  induction path with
  | nil => simp [throughSlash]
  | cons c path ih =>
    rw [List.mem_cons, not_or] at h
    have hc : (c != '\n') = true := bne_iff_ne.2 (Ne.symm h.1)
    rw [throughSlash, hc, Bool.true_and, Bool.or_eq_true, Bool.and_eq_true, beq_iff_eq, ih h.2]
    constructor
    · rintro (⟨rfl, hnext⟩ | ⟨piece, rest, rfl, hnext⟩)
      · exact ⟨[], path, rfl, hnext⟩
      · exact ⟨c :: piece, rest, rfl, hnext⟩
    · rintro ⟨piece, rest, heq, hnext⟩
      cases piece with
      | nil =>
        obtain ⟨rfl, rfl⟩ := List.cons.inj heq
        exact Or.inl ⟨rfl, hnext⟩
      | cons d piece =>
        obtain ⟨rfl, rfl⟩ := List.cons.inj heq
        exact Or.inr ⟨piece, rest, rfl, hnext⟩

theorem single_eq_true_iff {among : Char → Bool} {next : Text → Bool} {path : Text} :
    single among next path = true ↔
      ∃ c rest, path = c :: rest ∧ among c = true ∧ next rest = true := by
  cases path with
  | nil => simp [single]
  | cons c path => simp [single]

/-- A token takes a piece that it covers off the front, of any length for which the rest fits. -/
theorem fits_cons_iff (t : Token) (ts : List Token) {path : Text} (h : '\n' ∉ path) :
    fits (t :: ts) path = true ↔
      ∃ piece rest, path = piece ++ rest ∧ t.Covers piece ∧ fits ts rest = true := by
  cases t with
  | folders =>
    rw [fits, Bool.or_eq_true, throughSlash_eq_true_iff h]
    constructor
    · rintro (hfits | ⟨piece, rest, rfl, hfits⟩)
      · exact ⟨[], path, rfl, Or.inl rfl, hfits⟩
      · exact ⟨piece ++ ['/'], rest, by simp, Or.inr ⟨piece, rfl⟩, hfits⟩
    · rintro ⟨piece, rest, rfl, rfl | ⟨folder, rfl⟩, hfits⟩
      · exact Or.inl hfits
      · exact Or.inr ⟨folder, rest, by simp, hfits⟩
  | anything =>
    rw [fits, run_eq_true_iff]
    constructor
    · rintro ⟨piece, rest, heq, -, hfits⟩
      exact ⟨piece, rest, heq, trivial, hfits⟩
    · rintro ⟨piece, rest, rfl, -, hfits⟩
      refine ⟨piece, rest, rfl, fun c hc => ?_, hfits⟩
      rw [bne_iff_ne]
      rintro rfl
      exact h (List.mem_append_left rest hc)
  | part =>
    have hslash (piece : Text) : (∀ c ∈ piece, (c != '/') = true) ↔ '/' ∉ piece := by
      simp only [bne_iff_ne]
      exact ⟨fun hne hmem => hne '/' hmem rfl, fun hmem c hc heq => hmem (heq ▸ hc)⟩
    rw [fits, run_eq_true_iff]
    simp only [hslash]
    rfl
  | one =>
    rw [fits, single_eq_true_iff]
    constructor
    · rintro ⟨c, rest, rfl, hc, hfits⟩
      exact ⟨[c], rest, rfl, ⟨c, bne_iff_ne.1 hc, rfl⟩, hfits⟩
    · rintro ⟨piece, rest, rfl, ⟨c, hc, rfl⟩, hfits⟩
      exact ⟨c, rest, rfl, bne_iff_ne.2 hc, hfits⟩
  | literal d =>
    rw [fits, single_eq_true_iff]
    constructor
    · rintro ⟨c, rest, rfl, hc, hfits⟩
      exact ⟨[c], rest, rfl, congrArg (fun c => [c]) (beq_iff_eq.1 hc), hfits⟩
    · rintro ⟨piece, rest, rfl, rfl, hfits⟩
      exact ⟨d, rest, rfl, beq_self_eq_true d, hfits⟩

theorem cuts_cons_iff {t : Token} {ts : List Token} {path : Text} :
    Cuts (t :: ts) path ↔ ∃ piece rest, path = piece ++ rest ∧ t.Covers piece ∧ Cuts ts rest := by
  constructor
  · rintro ⟨pieces, rfl, hcovers⟩
    cases hcovers with
    | cons hpiece hpieces => exact ⟨_, _, List.flatten_cons, hpiece, _, rfl, hpieces⟩
  · rintro ⟨piece, _, rfl, hpiece, pieces, rfl, hpieces⟩
    exact ⟨piece :: pieces, List.flatten_cons, .cons hpiece hpieces⟩

/-- Matching finds a cut exactly where there is one. -/
theorem fits_iff_cuts (ts : List Token) {path : Text} (h : '\n' ∉ path) :
    fits ts path = true ↔ Cuts ts path := by
  induction ts generalizing path with
  | nil =>
    rw [fits, List.isEmpty_iff]
    constructor
    · rintro rfl
      exact ⟨[], rfl, .nil⟩
    · rintro ⟨pieces, rfl, hcovers⟩
      cases hcovers
      rfl
  | cons t ts ih =>
    rw [fits_cons_iff t ts h, cuts_cons_iff]
    constructor
    · rintro ⟨piece, rest, rfl, hpiece, hrest⟩
      have hfeed : '\n' ∉ rest := fun hmem => h (List.mem_append_right piece hmem)
      exact ⟨piece, rest, rfl, hpiece, (ih hfeed).1 hrest⟩
    · rintro ⟨piece, rest, rfl, hpiece, hrest⟩
      have hfeed : '\n' ∉ rest := fun hmem => h (List.mem_append_right piece hmem)
      exact ⟨piece, rest, rfl, hpiece, (ih hfeed).2 hrest⟩

theorem fitsLine_eq_fits (ts : List Token) {path : Text} (h : '\n' ∉ path) :
    fitsLine ts path = fits ts path := by
  have hlast : (path.getLast? == some '\n') = false := by
    rw [beq_eq_false_iff_ne]
    exact fun heq => h (List.mem_of_getLast? heq)
  rw [fitsLine, hlast, Bool.false_and, Bool.or_false]

theorem accepts_eq_true_iff {pattern path : Text} (h : '\n' ∉ path) :
    accepts pattern path = true ↔
      pattern ≠ [] ∧ ∃ p ∈ Brace.expand pattern.strip, Cuts (tokens p) path := by
  rw [accepts, Bool.and_eq_true, Bool.not_eq_true', List.isEmpty_eq_false_iff, alternatives,
    List.any_eq_true]
  simp only [fitsLine_eq_fits _ h, fits_iff_cuts _ h]

/-- A path matches a pattern exactly if it can be cut into pieces for the tokens of one of the
alternatives. -/
theorem accepts_iff_cuts {pattern path : Text} (hpattern : pattern ≠ []) (hpath : '\n' ∉ path) :
    accepts pattern path = true ↔
      ∃ p ∈ Brace.expand pattern.strip, ∃ ts, Spells p ts ∧ Cuts ts path := by
  rw [accepts_eq_true_iff hpath]
  constructor
  · rintro ⟨-, p, hp, hcuts⟩
    exact ⟨p, hp, tokens p, spells_tokens p, hcuts⟩
  · rintro ⟨p, hp, ts, hspells, hcuts⟩
    exact ⟨hpattern, p, hp, hspells.tokens_eq ▸ hcuts⟩

/-- Three stars in a row are a pair and a single one, and neither a single star nor a question mark
crosses a slash. -/
theorem accepts_iff_cuts_of_three_stars :
    let pattern : Text := " \x7bsrc,lib\x7d/**/***-?.ts ".toList
    (pattern ≠ [] ∧ '\n' ∉ "lib/a/b/c-d.ts".toList ∧ '\n' ∉ "lib/a-/.ts".toList) ∧
      (∃ p ∈ Brace.expand pattern.strip, ∃ ts, Spells p ts ∧ Cuts ts "lib/a/b/c-d.ts".toList) ∧
      ¬ ∃ p ∈ Brace.expand pattern.strip, ∃ ts, Spells p ts ∧ Cuts ts "lib/a-/.ts".toList := by
  intro pattern
  have hpattern : pattern ≠ [] := by decide
  have hfeed : '\n' ∉ "lib/a/b/c-d.ts".toList := by decide
  have hfeed' : '\n' ∉ "lib/a-/.ts".toList := by decide
  have haccepts : accepts pattern "lib/a/b/c-d.ts".toList = true := by decide +kernel
  have hrejects : ¬ accepts pattern "lib/a-/.ts".toList = true := by decide +kernel
  refine ⟨⟨hpattern, hfeed, hfeed'⟩, (accepts_iff_cuts hpattern hfeed).1 haccepts, ?_⟩
  exact fun hcuts => hrejects ((accepts_iff_cuts hpattern hfeed').2 hcuts)

/-! ## Patterns for all that is below -/

/-- A path that is cut with any text at its end can go on. -/
theorem Cuts.append {ts : List Token} {path : Text} (h : Cuts (ts ++ [.anything]) path)
    (more : Text) : Cuts (ts ++ [.anything]) (path ++ more) := by
  induction ts generalizing path with
  | nil => exact ⟨[path ++ more], by simp, .cons trivial .nil⟩
  | cons t ts ih =>
    rw [List.cons_append, cuts_cons_iff] at h ⊢
    obtain ⟨piece, rest, rfl, hpiece, hrest⟩ := h
    exact ⟨piece, rest ++ more, List.append_assoc piece rest more, hpiece, ih hrest⟩

end Glob

namespace Brace

theorem expand_of_firstGroup?_eq_none {pattern : Text} (h : firstGroup? pattern = none) :
    expand pattern = [pattern] := by
  rw [expand]
  split
  · rfl
  · rename_i g hg
    rw [h] at hg
    cases hg

theorem expand_of_firstGroup? {pattern : Text} {g : Group} (h : firstGroup? pattern = some g) :
    expand pattern =
      (g.body.splitOn ',').flatMap fun option => expand (g.before ++ option ++ g.after) := by
  rw [expand]
  split
  · rename_i hg
    rw [h] at hg
    cases hg
  · rename_i g' hg
    obtain rfl := Option.some.inj (h.symm.trans hg)
    simp

theorem mem_expand_iff {pattern p : Text} {g : Group} (h : firstGroup? pattern = some g) :
    p ∈ expand pattern ↔
      ∃ option ∈ g.body.splitOn ',', p ∈ expand (g.before ++ option ++ g.after) := by
  rw [expand_of_firstGroup? h, List.mem_flatMap]

end Brace

namespace Glob

end Glob

end PropAccord
