import PropAccord.Proofs.Completion
import PropAccord.Proofs.DefinitionHeads

/-!
# Definitions that are kept

Completing tags fills attributes in before the ends of tags. Their placeholders have braces, and braces
are what definitions are read by. An opening brace that was filled in stands behind an equals sign, and
behind a closing one neither an annotation nor a parenthesis follows, so no definition begins or ends
at a brace that was filled in. A definition that was there is read as before unless its parameter list
was filled in, which then ends too early, or its arrow was parted.
-/

namespace PropAccord

set_option autoImplicit false

/-- Attributes that are filled in, as far as they matter to definitions. -/
structure Fill (f : Text) : Prop where
  spaced : ∃ n rest, f = ' ' :: n :: rest ∧ isNameChar n = true
  opening : ∃ a b, f = a ++ '{' :: b ∧ '{' ∉ a ∧ a.getLast? = some '='
  closing : ∃ a b, f = a ++ '}' :: b ∧ '}' ∉ a ∧
    (b = [] ∨ ∃ n rest, b = ' ' :: n :: rest ∧ isNameChar n = true)
  last : f.getLast? = some '}'
  unopened : '(' ∉ f
  unclosed : ')' ∉ f

/-- A text and what it becomes when attributes are filled in. `At` holds of the number of characters
from the place of a fill to the end of the first text. -/
inductive Filled (At : Nat → Prop) : Text → Text → Prop
  | nil : Filled At [] []
  | keep (c : Char) {s s' : Text} : Filled At s s' → Filled At (c :: s) (c :: s')
  | fill {f s s' : Text} {c : Char} : Fill f → c = '>' ∨ c = '/' → At (s.length + 1) →
    Filled At s s' → Filled At (c :: s) (f ++ c :: s')

namespace Filled

variable {At : Nat → Prop}

theorem refl (t : Text) : Filled At t t := by
  induction t with
  | nil => exact .nil
  | cons c t ih => exact .keep c ih

theorem append_left (t : Text) {s s' : Text} (h : Filled At s s') : Filled At (t ++ s) (t ++ s') := by
  induction t with
  | nil => exact h
  | cons c t ih => exact .keep c ih

theorem mono {At' : Nat → Prop} (hAt : ∀ n, At n → At' n) {s s' : Text} (h : Filled At s s') :
    Filled At' s s' := by
  induction h with
  | nil => exact .nil
  | keep c _ ih => exact .keep c ih
  | fill hf hc hat _ ih => exact .fill hf hc (hAt _ hat) ih

/-- Nothing is filled in before other characters than the ends of tags. -/
theorem exists_of_append {a s t' : Text} (ha : '>' ∉ a) (ha' : '/' ∉ a) (h : Filled At (a ++ s) t') :
    ∃ s', t' = a ++ s' ∧ Filled At s s' := by
  induction a generalizing t' with
  | nil => exact ⟨t', rfl, h⟩
  | cons c a ih =>
    cases h with
    | keep _ h =>
      obtain ⟨s', rfl, hs⟩ := ih (fun hm => ha (List.mem_cons_of_mem c hm))
        (fun hm => ha' (List.mem_cons_of_mem c hm)) h
      exact ⟨s', rfl, hs⟩
    | fill _ hc _ _ =>
      rcases hc with rfl | rfl
      · exact absurd List.mem_cons_self ha
      · exact absurd List.mem_cons_self ha'

end Filled

theorem exists_of_rel_some {α : Type} {R : α → α → Prop} {o : Option α} {b : α}
    (h : Option.Rel R o (some b)) : ∃ a, o = some a ∧ R a b := by
  cases h with
  | some hR => exact ⟨_, rfl, hR⟩

theorem exists_of_some_rel {α : Type} {R : α → α → Prop} {o : Option α} {a : α}
    (h : Option.Rel R (some a) o) : ∃ b, o = some b ∧ R a b := by
  cases h with
  | some hR => exact ⟨_, rfl, hR⟩

theorem before_cons_of_ne {mark c : Char} (h : c ≠ mark) (s : Text) :
    Text.before mark (c :: s) = c :: Text.before mark s :=
  List.takeWhile_cons_of_pos (by simpa using h)

/-- An opening brace that does not stand behind an equals sign was there before. -/
theorem Filled.exists_of_opening {At : Nat → Prop} {s s' : Text} (h : Filled At s s')
    {head inside' : Text} (hs' : s' = head ++ '{' :: inside') (hfree : '{' ∉ head)
    (hlast : head.getLast? ≠ some '=') :
    ∃ inside, s = head ++ '{' :: inside ∧ Filled At inside inside' := by
  induction h generalizing head with
  | nil => simp at hs'
  | @keep c s t h ih =>
    cases head with
    | nil =>
      obtain ⟨rfl, rfl⟩ := List.cons.inj hs'
      exact ⟨s, rfl, h⟩
    | cons d head =>
      obtain ⟨rfl, rfl⟩ := List.cons.inj hs'
      have hlast' : head.getLast? ≠ some '=' := by
        cases head with
        | nil => exact nofun
        | cons e head => simpa using hlast
      obtain ⟨inside, rfl, hinside⟩ := ih rfl (fun hm => hfree (List.mem_cons_of_mem c hm)) hlast'
      exact ⟨inside, rfl, hinside⟩
  | @fill f s t c hf hc _ _ ih =>
    obtain ⟨a, b, rfl, ha, hequals⟩ := hf.opening
    rw [List.append_assoc, List.cons_append] at hs'
    rw [Text.eq_of_append_mark ha hfree hs'] at hequals
    exact absurd hequals hlast

namespace Definition

variable {At : Nat → Prop}

/-! ## Behind the parameter list -/

theorem stripStart_spaced {n : Char} (hn : isNameChar n = true) (rest : Text) :
    Text.stripStart (' ' :: n :: rest) = n :: rest := by
  have hblank : ¬ isBlank n = true := by
    rw [not_isBlank_of_isNameChar hn]
    exact Bool.false_ne_true
  rw [Text.stripStart, List.dropWhile_cons_of_pos (by decide), List.dropWhile_cons_of_neg hblank]

theorem stripStart_filled {s s' : Text} (h : Filled At s s') :
    (s.stripStart = [] ∧ s'.stripStart = []) ∨
      (∃ c t t', s.stripStart = c :: t ∧ s'.stripStart = c :: t' ∧ Filled At t t') ∨
      ∃ c t n t', s.stripStart = c :: t ∧ (c = '>' ∨ c = '/') ∧ s'.stripStart = n :: t' ∧
        isNameChar n = true := by
  induction h with
  | nil => exact Or.inl ⟨rfl, rfl⟩
  | @keep c s s' h ih =>
    by_cases hc : isBlank c = true
    · simpa only [Text.stripStart, List.dropWhile_cons_of_pos hc] using ih
    · simp only [Text.stripStart, List.dropWhile_cons_of_neg hc]
      exact Or.inr (Or.inl ⟨c, s, s', rfl, rfl, h⟩)
  | @fill f s s' c hf hc _ _ ih =>
    obtain ⟨n, rest, rfl, hn⟩ := hf.spaced
    have hblank : ¬ isBlank c = true := by rcases hc with rfl | rfl <;> decide
    refine Or.inr (Or.inr ⟨c, s, n, rest ++ c :: s', ?_, hc, stripStart_spaced hn _, hn⟩)
    rw [Text.stripStart, List.dropWhile_cons_of_neg hblank]

theorem after?_fromMark_filled {s s' : Text} (h : Filled At s s') :
    Option.Rel (Filled At) (Text.after? [')'] (fromMark ')' s))
      (Text.after? [')'] (fromMark ')' s')) := by
  induction h with
  | nil => exact .none
  | @keep c s s' h ih =>
    by_cases hc : c = ')'
    · subst c
      rw [fromMark_cons, fromMark_cons]
      exact .some h
    · rw [fromMark_cons_of_ne hc, fromMark_cons_of_ne hc]
      exact ih
  | @fill f s s' c hf hc _ _ ih =>
    have hne : c ≠ ')' := by rcases hc with rfl | rfl <;> decide
    rw [fromMark_append hf.unclosed, fromMark_cons_of_ne hne, fromMark_cons_of_ne hne]
    exact ih

theorem after?_annotationPassed_of_ne {t rest : Text} {c : Char} (ht : t.stripStart = c :: rest)
    (hcolon : c ≠ ':') (hparen : c ≠ ')') : Text.after? [')'] (annotationPassed t) = none := by
  rw [annotationPassed, ht]
  simp [Text.after?, hcolon, Ne.symm hparen]

theorem after?_annotationPassed_filled {s s' : Text} (h : Filled At s s') :
    Option.Rel (Filled At) (Text.after? [')'] (annotationPassed s))
      (Text.after? [')'] (annotationPassed s')) := by
  rcases stripStart_filled h with ⟨hs, hs'⟩ | ⟨c, t, t', hs, hs', ht⟩ | ⟨c, t, n, t', hs, hc, hs', hn⟩
  · rw [annotationPassed, annotationPassed, hs, hs']
    exact .none
  · by_cases hcolon : c = ':'
    · subst c
      rw [annotationPassed, annotationPassed, hs, hs']
      exact after?_fromMark_filled ht
    · by_cases hparen : c = ')'
      · subst c
        rw [annotationPassed, annotationPassed, hs, hs']
        exact .some ht
      · rw [after?_annotationPassed_of_ne hs hcolon hparen,
          after?_annotationPassed_of_ne hs' hcolon hparen]
        exact .none
  · have hn' : n ≠ ':' ∧ n ≠ ')' := by
      constructor <;> rintro rfl <;> cases hn
    have hc' : c ≠ ':' ∧ c ≠ ')' := by rcases hc with rfl | rfl <;> decide
    rw [after?_annotationPassed_of_ne hs hc'.1 hc'.2, after?_annotationPassed_of_ne hs' hn'.1 hn'.2]
    exact .none

theorem after?_arrow_of_filled {s s' after' : Text} (h : Filled At s s')
    (hafter : Text.after? ['=', '>'] s'.stripStart = some after') :
    ∃ after, Text.after? ['=', '>'] s.stripStart = some after ∧ Filled At after after' := by
  have hs' : s'.stripStart = '=' :: '>' :: after' := Text.after?_eq_some_iff.1 hafter
  rcases stripStart_filled h with ⟨-, hnil⟩ | ⟨c, t, t', hs, hc, ht⟩ | ⟨c, t, n, t', -, -, hn, hname⟩
  · rw [hnil] at hs'
    cases hs'
  · rw [hc] at hs'
    obtain ⟨rfl, rfl⟩ := List.cons.inj hs'
    generalize hrest : '>' :: after' = rest at ht
    cases ht with
    | nil => cases hrest
    | keep d h' =>
      obtain ⟨rfl, rfl⟩ := List.cons.inj hrest
      exact ⟨_, Text.after?_eq_some_iff.2 hs, h'⟩
    | fill hf _ _ _ =>
      obtain ⟨n, more, rfl, -⟩ := hf.spaced
      cases hrest
  · rw [hn] at hs'
    obtain ⟨rfl, -⟩ := List.cons.inj hs'
    cases hname

theorem exists_after?_arrow {s s' after : Text} (h : Filled At s s')
    (hafter : Text.after? ['=', '>'] s.stripStart = some after) (hat : ¬ At (after.length + 1)) :
    ∃ after', Text.after? ['=', '>'] s'.stripStart = some after' := by
  have hs : s.stripStart = '=' :: '>' :: after := Text.after?_eq_some_iff.1 hafter
  rcases stripStart_filled h with ⟨hnil, -⟩ | ⟨c, t, t', hc, hs', ht⟩ | ⟨c, t, n, t', hc, hmark, -, -⟩
  · rw [hnil] at hs
    cases hs
  · rw [hc] at hs
    obtain ⟨rfl, rfl⟩ := List.cons.inj hs
    cases ht with
    | keep _ h' => exact ⟨_, Text.after?_eq_some_iff.2 hs'⟩
    | fill _ _ hfill _ => exact absurd hfill hat
  · rw [hc] at hs
    obtain ⟨rfl, -⟩ := List.cons.inj hs
    rcases hmark with hmark | hmark <;> cases hmark

/-- What follows the head of a definition also followed it before. -/
theorem afterHead?_of_filled {form : Form} {s s' after' : Text} (h : Filled At s s')
    (hafter : afterHead? form s' = some after') :
    ∃ after, afterHead? form s = some after ∧ Filled At after after' := by
  have hparen := after?_annotationPassed_filled h
  cases form with
  | function =>
    rw [afterHead?] at hafter
    rw [hafter] at hparen
    exact exists_of_rel_some hparen
  | arrow =>
    obtain ⟨rest', hrest', hafter⟩ := Option.bind_eq_some_iff.1 hafter
    rw [hrest'] at hparen
    obtain ⟨rest, hrest, hfilled⟩ := exists_of_rel_some hparen
    obtain ⟨after, harrow, hfilled'⟩ := after?_arrow_of_filled hfilled hafter
    exact ⟨after, Option.bind_eq_some_iff.2 ⟨rest, hrest, harrow⟩, hfilled'⟩

theorem exists_afterHead? {form : Form} {s s' after : Text} (h : Filled At s s')
    (hafter : afterHead? form s = some after) (hat : ¬ At (after.length + 1)) :
    ∃ after', afterHead? form s' = some after' := by
  have hparen := after?_annotationPassed_filled h
  cases form with
  | function =>
    rw [afterHead?] at hafter
    rw [hafter] at hparen
    obtain ⟨after', hafter', -⟩ := exists_of_some_rel hparen
    exact ⟨after', hafter'⟩
  | arrow =>
    obtain ⟨rest, hrest, hafter⟩ := Option.bind_eq_some_iff.1 hafter
    rw [hrest] at hparen
    obtain ⟨rest', hrest', hfilled⟩ := exists_of_some_rel hparen
    obtain ⟨after', harrow⟩ := exists_after?_arrow hfilled hafter hat
    exact ⟨after', Option.bind_eq_some_iff.2 ⟨rest', hrest', harrow⟩⟩

/-! ## Parameter lists -/

/-- Behind a closing brace that was filled in no head of a definition ends. -/
theorem afterHead?_of_fill (form : Form) {b s : Text} {c : Char} (hc : c = '>' ∨ c = '/')
    (hb : b = [] ∨ ∃ n rest, b = ' ' :: n :: rest ∧ isNameChar n = true) :
    afterHead? form (b ++ c :: s) = none := by
  have hstart : ∃ d rest, (b ++ c :: s).stripStart = d :: rest ∧ d ≠ ':' ∧ d ≠ ')' := by
    rcases hb with rfl | ⟨n, rest, rfl, hn⟩
    · refine ⟨c, s, ?_⟩
      rcases hc with rfl | rfl <;> exact ⟨rfl, by decide, by decide⟩
    · refine ⟨n, rest ++ c :: s, stripStart_spaced hn _, ?_, ?_⟩
      · rintro rfl
        cases hn
      · rintro rfl
        cases hn
  obtain ⟨d, rest, hd, hcolon, hparen⟩ := hstart
  have hnone := after?_annotationPassed_of_ne hd hcolon hparen
  cases form with
  | function => exact hnone
  | arrow =>
    rw [afterHead?, hnone]
    rfl

/-- A parameter list that is closed was closed before, and it is the same list. -/
theorem closes?_of_filled {form : Form} {s s' after' : Text} (h : Filled At s s')
    (hcloses : closes? form s' = some after') :
    ∃ after, closes? form s = some after ∧ s.before '}' = s'.before '}' ∧ Filled At after after' := by
  induction h with
  | nil => cases hcloses
  | @keep c s s' h ih =>
    by_cases hc : c = '}'
    · subst c
      rw [closes?, fromMark_cons] at hcloses
      rw [closes?, fromMark_cons]
      obtain ⟨after, hafter, hfilled⟩ := afterHead?_of_filled h hcloses
      exact ⟨after, hafter, rfl, hfilled⟩
    · rw [closes?, fromMark_cons_of_ne hc] at hcloses
      rw [closes?, fromMark_cons_of_ne hc]
      obtain ⟨after, hafter, hraw, hfilled⟩ := ih hcloses
      refine ⟨after, hafter, ?_, hfilled⟩
      rw [before_cons_of_ne hc, before_cons_of_ne hc, hraw]
  | @fill f s s' c hf hc _ _ _ =>
    obtain ⟨a, b, rfl, ha, hb⟩ := hf.closing
    rw [List.append_assoc, List.cons_append, closes?_append form ha, afterHead?_of_fill form hc hb]
      at hcloses
    cases hcloses

/-- A parameter list into which nothing is filled is still closed. -/
theorem exists_closes? {form : Form} {s s' after : Text} (h : Filled At s s')
    (hcloses : closes? form s = some after)
    (hlist : ∀ m, At m → m ≤ s.length → m + (s.before '}').length ≤ s.length)
    (hat : ¬ At (after.length + 1)) : ∃ after', closes? form s' = some after' := by
  induction h with
  | nil => cases hcloses
  | @keep c s s' h ih =>
    by_cases hc : c = '}'
    · subst c
      rw [closes?, fromMark_cons] at hcloses
      rw [closes?, fromMark_cons]
      exact exists_afterHead? h hcloses hat
    · rw [closes?, fromMark_cons_of_ne hc] at hcloses
      rw [closes?, fromMark_cons_of_ne hc]
      refine ih hcloses fun m hm hle => ?_
      have hlist' := hlist m hm (Nat.le_succ_of_le hle)
      rw [before_cons_of_ne hc, List.length_cons, List.length_cons] at hlist'
      omega
  | @fill f s s' c hf hc hfill _ _ =>
    have hne : c ≠ '}' := by rcases hc with rfl | rfl <;> decide
    have hlist' := hlist _ hfill (Nat.le_refl _)
    rw [before_cons_of_ne hne, List.length_cons, List.length_cons] at hlist'
    omega

/-! ## Whole definitions -/

theorem not_mem_of_headName? {form : Form} {head name : Text}
    (h : headName? form .anyComponent head = some name) {c : Char} (hc : isNameChar c = false)
    (hblank : isBlank c = false) (hparen : c ≠ '(') (hequals : c ≠ '=') : c ∉ head :=
  (exists_of_headName? h).2 c hc hblank hparen hequals
    (not_mem_of_isComponentName (isComponentName_of_headName? h) hc)

/-- No definition comes to be by a fill. -/
theorem read?_of_filled {form : Form} {s s' : Text} {r' : Reading} (h : Filled At s s')
    (hr : read? form .anyComponent s' = some r') :
    ∃ r, read? form .anyComponent s = some r ∧ r.name = r'.name ∧ r.raw = r'.raw ∧
      Filled At r.after r'.after := by
  obtain ⟨head, hs', hfree, hname, hcloses⟩ := exists_of_read? hr
  obtain ⟨⟨u, b, hhead, hb⟩, -⟩ := exists_of_headName? hname
  have hlast : head.getLast? ≠ some '=' := by
    rw [hhead, List.getLast?_append_cons]
    intro heq
    rcases List.mem_cons.1 (List.mem_of_getLast? heq) with hmem | hmem
    · cases hmem
    · exact Text.not_mem_of_allBlank (by decide) hb hmem
  obtain ⟨inside, rfl, hinside⟩ := h.exists_of_opening hs' hfree hlast
  obtain ⟨after, hafter, hraw, hfilled⟩ := closes?_of_filled hinside hcloses
  refine ⟨⟨r'.name, inside, after⟩, ?_, rfl, hraw, hfilled⟩
  rw [read?_append form hfree inside opens_anyComponent, hname, Option.bind_some, hafter]
  rfl

/-- A definition is read as long as nothing is filled into its parameter list or its arrow. -/
theorem exists_read? {form : Form} {s s' : Text} {r : Reading} (h : Filled At s s')
    (hr : read? form .anyComponent s = some r)
    (hlist : ∀ m, At m → m ≤ r.inside.length → m + r.raw.length ≤ r.inside.length)
    (hat : ¬ At (r.after.length + 1)) : ∃ r', read? form .anyComponent s' = some r' := by
  obtain ⟨head, rfl, hfree, hname, hcloses⟩ := exists_of_read? hr
  have hmark := not_mem_of_headName? hname (c := '>') (by decide) (by decide) (by decide) (by decide)
  have hslash := not_mem_of_headName? hname (c := '/') (by decide) (by decide) (by decide) (by decide)
  obtain ⟨rest', rfl, hrest⟩ := h.exists_of_append hmark hslash
  generalize hopen : '{' :: r.inside = opened at hrest
  cases hrest with
  | nil => cases hopen
  | @keep c inside inside' hinside =>
    obtain ⟨rfl, rfl⟩ := List.cons.inj hopen
    obtain ⟨after', hafter'⟩ := exists_closes? hinside hcloses hlist hat
    refine ⟨⟨r.name, inside', after'⟩, ?_⟩
    rw [read?_append form hfree inside' opens_anyComponent, hname, Option.bind_some, hafter']
    rfl
  | fill _ hc _ _ =>
    obtain ⟨rfl, -⟩ := List.cons.inj hopen
    rcases hc with hc | hc <;> cases hc

/-- No definition starts in a fill. -/
theorem skips_of_fill (form : Form) {f : Text} (hf : Fill f) (s : Text) :
    Skips form .anyComponent f s := by
  apply skips_of_forall
  intro g ⟨front, hfront⟩ hne
  rw [Option.eq_none_iff_forall_not_mem]
  intro r hr
  obtain ⟨head, hhead, hfree, hname, -⟩ := exists_of_read? hr
  have hclosing :=
    not_mem_of_headName? hname (c := '}') (by decide) (by decide) (by decide) (by decide)
  by_cases hopen : '{' ∈ g
  · -- The head lies in the fill, which has no parenthesis.
    obtain ⟨a, b, rfl, ha⟩ := List.eq_append_cons_of_mem hopen
    rw [List.append_assoc, List.cons_append] at hhead
    obtain rfl := Text.eq_of_append_mark ha hfree hhead
    obtain ⟨⟨u, v, rfl, -⟩, -⟩ := exists_of_headName? hname
    apply hf.unopened
    rw [← hfront]
    simp
  · -- The head has the closing brace at the end of the fill.
    apply hclosing
    have hlast : g.getLast? = some '}' := by
      rw [← hf.last, ← hfront, List.getLast?_append_of_ne_nil front hne]
    have hmem := List.mem_of_getLast? hlast
    rcases List.append_eq_append_iff.1 hhead with ⟨a, rfl, -⟩ | ⟨a, rfl, ha⟩
    · exact List.mem_append_left a hmem
    · cases a with
      | nil => rwa [List.append_nil] at hmem
      | cons c a =>
        obtain ⟨rfl, -⟩ := List.cons.inj ha
        exact absurd (List.mem_append_right head List.mem_cons_self) hopen

/-! ## All definitions of a text -/

theorem mem_of_mem_scanAll {t : Text} {d : Definition} (h : d ∈ scanAll t) {c : Char}
    (hc : c ∈ d.raw) : c ∈ t := by
  have hfrom : ∀ form offset, d ∈ scanFrom form .anyComponent offset t → c ∈ t := by
    intro form offset
    clear h
    induction offset, t using scanFrom.induct form .anyComponent with
    | case1 offset =>
      rw [scanFrom_nil]
      exact fun h => absurd h List.not_mem_nil
    | case2 offset a rest r hr ih =>
      obtain ⟨hinside, hafter⟩ := suffix_of_read? hr
      rw [scanFrom_of_read? offset hr]
      intro h
      rcases List.mem_cons.1 h with rfl | h
      · exact hinside.subset ((List.takeWhile_prefix _).subset hc)
      · exact hinside.subset (hafter.subset (ih h))
    | case3 offset a rest hr ih =>
      rw [scanFrom_of_read?_eq_none offset hr]
      exact fun h => List.mem_cons_of_mem a (ih h)
  exact (List.mem_append.1 h).elim (hfrom .function 0) (hfrom .arrow 0)

/-- Something that is put in at the offset lies in the parameter list of the definition, or directly
before the last character of the definition, where it parts an arrow. -/
def touches (text : Text) (d : Definition) (offset : Int) : Bool :=
  (d.start ≤ offset && offset < d.stop) ||
    (afterHead? d.form (text.drop (d.stop + 1))).any fun after =>
      offset + 1 + after.length = text.length

/-- What matters of a definition, other than its place. -/
def signature (d : Definition) : Text × Form × Text := (d.name, d.form, d.raw)

/-- Where a definition that was read stands in the whole text. -/
theorem of_read?_of_drop {form : Form} {text s : Text} {offset : Nat} (hs : text.drop offset = s)
    {r : Reading} (h : read? form .anyComponent s = some r) :
    (ofReading form offset s r).start + r.inside.length = text.length ∧
      afterHead? form (text.drop ((ofReading form offset s r).stop + 1)) = some r.after ∧
      text.drop (offset + (s.length - r.after.length)) = r.after := by
  obtain ⟨head, hhead, -, -, hcloses⟩ := exists_of_read? h
  obtain ⟨closed, hinside, hafter⟩ := exists_of_closes? hcloses
  have hraw : r.raw = r.inside.before '}' := rfl
  have hlength' : s.length = head.length + (r.inside.length + 1) := by
    rw [hhead, List.length_append, List.length_cons]
  have hlength : text.length = offset + s.length := by
    have hlen := congrArg List.length hs
    rw [List.length_drop] at hlen
    omega
  have hstart : (ofReading form offset s r).start = offset + (head.length + 1) := by
    change offset + (s.length - r.inside.length) = _
    omega
  refine ⟨by omega, ?_, ?_⟩
  · have hclosed : text.drop ((ofReading form offset s r).stop + 1) = closed := by
      have hstop : (ofReading form offset s r).stop + 1 =
          offset + (head ++ '{' :: (r.inside.before '}' ++ ['}'])).length := by
        rw [stop, hstart]
        simp only [ofReading, hraw, List.length_append, List.length_cons, List.length_nil]
        omega
      rw [hstop, ← List.drop_drop, hs, hhead]
      nth_rewrite 2 [hinside]
      rw [show head ++ '{' :: (r.inside.before '}' ++ '}' :: closed) =
        (head ++ '{' :: (r.inside.before '}' ++ ['}'])) ++ closed by simp]
      exact List.drop_left
    rw [hclosed, hafter]
  · have hsuffix := (suffix_of_read? h).2.trans (suffix_of_read? h).1
    rw [← List.drop_drop, hs]
    exact (List.suffix_iff_eq_drop.1 hsuffix).symm

/-- A definition that no fill touches is read again, and the texts behind it are related. -/
theorem exists_read?_of_clear {form : Form} {text s s' : Text} {offset : Nat}
    (hs : text.drop offset = s) (h : Filled At s s') {r : Reading}
    (hr : read? form .anyComponent s = some r)
    (hclear : ∀ m, At m → (ofReading form offset s r).touches text (text.length - m) = false) :
    ∃ r', read? form .anyComponent s' = some r' ∧ r'.name = r.name ∧ r'.raw = r.raw ∧
      Filled At r.after r'.after := by
  obtain ⟨hstart, hafter, -⟩ := of_read?_of_drop hs hr
  have hstop : (ofReading form offset s r).stop = (ofReading form offset s r).start + r.raw.length :=
    rfl
  have hread : ∃ r', read? form .anyComponent s' = some r' := by
    apply exists_read? h hr
    · intro m hm hle
      have hnot := (Bool.or_eq_false_iff.1 (hclear m hm)).1
      simp only [Bool.and_eq_false_iff, decide_eq_false_iff_not] at hnot
      omega
    · intro hm
      have hnot := (Bool.or_eq_false_iff.1 (hclear _ hm)).2
      change (afterHead? form (text.drop ((ofReading form offset s r).stop + 1))).any _ = false
        at hnot
      rw [hafter, Option.any_some, decide_eq_false_iff_not] at hnot
      omega
  obtain ⟨r', hr'⟩ := hread
  obtain ⟨r₀, hr₀, hname, hraw, hfilled⟩ := read?_of_filled h hr'
  obtain rfl := Option.some.inj (hr.symm.trans hr₀)
  exact ⟨r', hr', hname.symm, hraw.symm, hfilled⟩

/-- Filling in attributes that touch no definition leaves all definitions of a text, in their order. -/
theorem signatures_scanFrom {form : Form} {text s s' : Text} {offset : Nat}
    (hs : text.drop offset = s) (h : Filled At s s')
    (hclear : ∀ d ∈ scanFrom form .anyComponent offset s, ∀ m, At m →
      d.touches text (text.length - m) = false) (offset' : Nat) :
    (scanFrom form .anyComponent offset' s').map signature =
      (scanFrom form .anyComponent offset s).map signature := by
  induction hlength : s.length using Nat.strongRecOn generalizing s s' offset offset' with
  | ind n ih =>
    -- A fill at the front is passed over first.
    have hkeep : ∀ {c : Char} {rest t' : Text}, s = c :: rest → Filled At rest t' → ∀ offset'',
        (scanFrom form .anyComponent offset'' (c :: t')).map signature =
          (scanFrom form .anyComponent offset s).map signature := by
      rintro c rest t' rfl hrest offset''
      have hfilled : Filled At (c :: rest) (c :: t') := .keep c hrest
      cases hr : read? form .anyComponent (c :: rest) with
      | some r =>
        rw [scanFrom_of_read? offset hr] at hclear ⊢
        obtain ⟨r', hr', hname, hraw, hafter⟩ :=
          exists_read?_of_clear hs hfilled hr (hclear _ List.mem_cons_self)
        rw [scanFrom_of_read? offset'' hr', List.map_cons, List.map_cons, signature, signature, hname,
          hraw]
        congr 1
        refine ih _ ?_ (of_read?_of_drop hs hr).2.2 hafter
          (fun d hd => hclear d (List.mem_cons_of_mem _ hd)) _ rfl
        rw [← hlength]
        exact (length_after_lt hr).2
      | none =>
        have hr' : read? form .anyComponent (c :: t') = none := by
          rw [Option.eq_none_iff_forall_not_mem]
          intro r' hr'
          obtain ⟨r, hr₀, -⟩ := read?_of_filled hfilled hr'
          rw [hr] at hr₀
          cases hr₀
        rw [scanFrom_of_read?_eq_none offset hr] at hclear ⊢
        rw [scanFrom_of_read?_eq_none offset'' hr']
        refine ih _ ?_ ?_ hrest hclear _ rfl
        · rw [← hlength, List.length_cons]
          omega
        · rw [← List.drop_drop, hs]
          rfl
    cases h with
    | nil => rw [scanFrom_nil, scanFrom_nil]
    | keep c hrest => exact hkeep rfl hrest offset'
    | fill hf hc hat hrest =>
      rw [scanFrom_of_skips (skips_of_fill form hf _)]
      exact hkeep rfl hrest _

end Definition

namespace Sync

/-! ## Completed texts -/

theorem spaced_attributes (placeholder : Text) {names : List Text}
    (h : ∀ name ∈ names, isIdentifier name = true) (hne : names ≠ []) :
    ∃ n rest, names.flatMap (attributeText placeholder) = ' ' :: n :: rest ∧
      isNameChar n = true := by
  obtain ⟨name, rest, rfl⟩ := List.exists_cons_of_ne_nil hne
  have hname := h name List.mem_cons_self
  obtain ⟨n, name', rfl⟩ := List.exists_cons_of_ne_nil (identifier_ne_nil hname)
  exact ⟨n, _, rfl, isNameChar_of_mem_identifier hname n List.mem_cons_self⟩

/-- The attributes that are written with the default placeholder. -/
theorem fill_attributes {names : List Text} (h : ∀ name ∈ names, isIdentifier name = true)
    (hne : names ≠ []) : Fill (names.flatMap (attributeText ({} : Settings).placeholder)) := by
  have hfree : ∀ {c : Char}, isNameChar c = false → c ≠ ' ' → c ≠ '=' →
      c ∉ ({} : Settings).placeholder →
      c ∉ names.flatMap (attributeText ({} : Settings).placeholder) := by
    intro c hc hspace hequals hplaceholder hmem
    rcases mem_of_mem_attributes hmem with heq | heq | hmem | ⟨name, hname, hmem⟩
    · exact hspace heq
    · exact hequals heq
    · exact hplaceholder hmem
    · exact not_mem_of_isIdentifier (h name hname) hc hmem
  have hplaceholder : ({} : Settings).placeholder =
      '{' :: ("/* TODO: completar */".toList ++ ['}']) := rfl
  refine ⟨spaced_attributes _ h hne, ?_, ?_, ?_, hfree (by decide) (by decide) (by decide) (by decide),
    hfree (by decide) (by decide) (by decide) (by decide)⟩
  · obtain ⟨name, rest, rfl⟩ := List.exists_cons_of_ne_nil hne
    have hname := isNameChar_of_mem_identifier (h name List.mem_cons_self)
    refine ⟨' ' :: (name ++ ['=']), "/* TODO: completar */".toList ++ '}' :: rest.flatMap
      (attributeText ({} : Settings).placeholder), ?_, ?_, ?_⟩
    · rw [List.flatMap_cons, attributeText, hplaceholder]
      simp only [List.cons_append, List.append_assoc, List.nil_append]
    · have hbrace := not_mem_of_all_isNameChar hname (d := '{') (by decide)
      simp [hbrace]
    · rw [← List.cons_append, List.getLast?_concat]
  · obtain ⟨name, rest, rfl⟩ := List.exists_cons_of_ne_nil hne
    have hname := isNameChar_of_mem_identifier (h name List.mem_cons_self)
    refine ⟨' ' :: (name ++ '=' :: '{' :: "/* TODO: completar */".toList), rest.flatMap
      (attributeText ({} : Settings).placeholder), ?_, ?_, ?_⟩
    · rw [List.flatMap_cons, attributeText, hplaceholder]
      simp only [List.cons_append, List.append_assoc, List.nil_append]
    · have hbrace := not_mem_of_all_isNameChar hname (d := '}') (by decide)
      simp [hbrace]
    · by_cases hrest : rest = []
      · exact Or.inl (by rw [hrest, List.flatMap_nil])
      · exact Or.inr (spaced_attributes _ (fun n hn => h n (List.mem_cons_of_mem name hn)) hrest)
  · obtain ⟨front, name, rfl⟩ := (List.eq_nil_or_concat names).resolve_left hne
    rw [List.concat_eq_append, List.flatMap_append, List.flatMap_singleton, attributeText,
      hplaceholder]
    simp only [← List.cons_append, ← List.append_assoc, List.getLast?_concat]

/-- One of the insertions stands the given number of characters before the end of a text. -/
def InsertedAt (insertions : List Insertion) (length m : Nat) : Prop :=
  ∃ i ∈ insertions, i.offset + m = length

theorem InsertedAt.mono {l l' : List Insertion} (h : l ⊆ l') {length m : Nat}
    (hm : InsertedAt l length m) : InsertedAt l' length m := by
  obtain ⟨i, hi, hm⟩ := hm
  exact ⟨i, h hi, hm⟩

section

variable {placeholder : Text} (hfill : ∀ names : List Text,
  (∀ name ∈ names, isIdentifier name = true) → names ≠ [] →
    Fill (names.flatMap (attributeText placeholder)))
  {name : Text} {props : List Text} (hprops : ∀ prop ∈ props, isIdentifier prop = true)
include hfill hprops

theorem filled_completedPiece (offset : Nat) {piece rest rest' : Text} {At : Nat → Prop}
    (hat : ∀ i ∈ pieceInsertion? placeholder name props offset piece, ∀ m : Nat,
      i.offset + m = offset + (piece ++ '>' :: rest).length → At m) (h : Filled At rest rest') :
    Filled At (piece ++ '>' :: rest)
      (completedPiece placeholder name props piece ++ '>' :: rest') := by
  have hsame : Filled At (piece ++ '>' :: rest) (piece ++ '>' :: rest') :=
    Filled.append_left piece (.keep '>' h)
  rw [completedPiece, insertedIn]
  rw [pieceInsertion?] at hat
  cases hin : Tag.inPiece? name piece with
  | none => rwa [Tag.grown_nil_left]
  | some found =>
    obtain ⟨n, body⟩ := found
    simp only [hin, Option.bind_some] at hat ⊢
    by_cases hnone : (Props.missing (Attribute.names body) props).isEmpty = true
    · rwa [insertedFor_eq_nil hnone, Tag.grown_nil_left]
    · simp only [hnone, Bool.false_eq_true, if_false, Option.mem_some_iff, forall_eq'] at hat
      have hf : Fill (insertedFor placeholder props body) :=
        hfill _ (isIdentifier_of_mem_missing hprops _) (fun hnil => hnone (by rw [hnil]; rfl))
      have hpiece := Tag.stem_append_slash piece
      have hold : piece ++ '>' :: rest =
          Tag.stem piece ++ ((if Tag.slashed piece then ['/'] else []) ++ '>' :: rest) := by
        rw [← List.append_assoc, hpiece]
      have hlength := Tag.length_stem piece
      rw [Tag.grown, List.append_assoc, List.append_assoc, hold]
      simp only [List.length_append, List.length_cons] at hat
      apply Filled.append_left
      by_cases hslash : Tag.slashed piece = true
      · rw [if_pos hslash] at hlength ⊢
        rw [List.singleton_append, List.singleton_append]
        refine .fill hf (Or.inr rfl) (hat _ ?_) (.keep '>' h)
        rw [List.length_cons]
        omega
      · rw [if_neg hslash] at hlength ⊢
        rw [List.nil_append, List.nil_append]
        refine .fill hf (Or.inl rfl) (hat _ ?_) h
        omega

/-- A completed text is one with attributes filled in before the ends of the tags that lack props. -/
theorem filled_of_completed (hname : isComponentName name = true) {t t' : Text}
    (h : Completed placeholder name props t t') (offset : Nat) :
    Filled (InsertedAt (tagInsertions placeholder props (Tag.scanFrom (.exactly name) offset t))
      (offset + t.length)) t t' := by
  induction h generalizing offset with
  | last _ => exact .refl _
  | @piece p rest rest' hp _ ih =>
    rw [tagInsertions_append hname placeholder props hp]
    refine filled_completedPiece hfill hprops offset ?_ ?_
    · intro i hi m hm
      exact ⟨i, List.mem_append_left _ (Option.mem_toList.2 hi), hm⟩
    · apply (ih (offset + p.length + 1)).mono
      intro m hm
      have hlength : offset + p.length + 1 + rest.length = offset + (p ++ '>' :: rest).length := by
        rw [List.length_append, List.length_cons]
        omega
      rw [hlength] at hm
      exact hm.mono (List.subset_append_right _ _)

/-- Completing tags keeps all definitions of a text, unless a tag that lacks a prop ends in the
parameter list of a definition or at its arrow. -/
theorem signatures_of_completed (hname : isComponentName name = true) {t t' : Text}
    (h : Completed placeholder name props t t')
    (hclear : ∀ tag ∈ Tag.scan (.exactly name) t, tag.missing props ≠ [] →
      ∀ d ∈ Definition.scanAll t, d.touches t tag.insertAt = false) :
    (Definition.scanAll t').map Definition.signature =
      (Definition.scanAll t).map Definition.signature := by
  have hfilled := filled_of_completed hfill hprops hname h 0
  have hform : ∀ form, (∀ d ∈ Definition.scan form .anyComponent t, d ∈ Definition.scanAll t) →
      (Definition.scan form .anyComponent t').map Definition.signature =
        (Definition.scan form .anyComponent t).map Definition.signature := by
    intro form hall
    refine Definition.signatures_scanFrom List.drop_zero hfilled ?_ 0
    rintro d hd m ⟨i, hi, hm⟩
    obtain ⟨tag, htag, hmissing, hoffset⟩ := exists_tag_of_mem_tagInsertions hi
    have hplace : (t.length : Int) - m = tag.insertAt := by omega
    rw [hplace]
    exact hclear tag htag hmissing d (hall d hd)
  rw [Definition.scanAll, Definition.scanAll, List.map_append, List.map_append,
    hform .function fun _ => List.mem_append_left _, hform .arrow fun _ => List.mem_append_right _]

end

namespace Engine

variable {σ : Type}

/-- Completing the usages of a component keeps the definitions in all documents in which no tag that
lacks a prop ends in a parameter list or at an arrow. -/
theorem planFiles_keeps_definitions (host : Host σ) (settings : Settings)
    (hplaceholder : settings.placeholder = ({} : Settings).placeholder) {name : Text}
    (hname : isComponentName name = true) {props : List Text}
    (hprops : ∀ prop ∈ props, isIdentifier prop = true) (snapshots : List Snapshot) :
    ∃ plans, planFiles { host, settings } name props snapshots = .ok plans ∧
      ∀ s ∈ snapshots, ∃ text, textAfter plans s = .ok text ∧
        ((∀ tag ∈ Scanner.lexical.findTags s.text name, tag.missing props ≠ [] →
            ∀ d ∈ Scanner.lexical.definitions s.text, d.touches s.text tag.insertAt = false) →
          (Scanner.lexical.definitions text).map Definition.signature =
            (Scanner.lexical.definitions s.text).map Definition.signature) := by
  refine ⟨_, planFiles_standard host settings name props snapshots, ?_⟩
  intro s hs
  obtain ⟨text, happly, hcompleted⟩ := exists_apply_tagPlan hname settings.placeholder props s
  refine ⟨text, ?_, fun hclear => ?_⟩
  · rw [textAfter_standard settings.placeholder name props hs, happly]
  · rw [hplaceholder] at hcompleted
    exact signatures_of_completed (fun _ => fill_attributes) hprops hname hcompleted hclear

/-- One tag ends in the annotation of a definition, the other one behind its arrow. -/
theorem planFiles_keeps_definitions_in_annotation :
    let host := Workspace.host ⟨.root, []⟩ [] .silent
    let s : Snapshot :=
      ⟨⟨.root, ["a.tsx".toList]⟩, "let A = ({ a = 1 }: P<B>) => <B/>".toList, none⟩
    ∃ plans text, planFiles { host } ['B'] ["size".toList] [s] = .ok plans ∧
      textAfter plans s = .ok text ∧
      (Scanner.lexical.definitions text).map Definition.signature =
        [(['A'], .arrow, " a = 1 ".toList)] := by
  intro host s
  have hname : isComponentName ['B'] = true := by decide
  have hprops : ∀ prop ∈ ["size".toList], isIdentifier prop = true := by decide
  have hclear : ∀ tag ∈ Scanner.lexical.findTags s.text ['B'], tag.missing ["size".toList] ≠ [] →
      ∀ d ∈ Scanner.lexical.definitions s.text, d.touches s.text tag.insertAt = false := by
    decide +kernel
  have hdefinitions : (Scanner.lexical.definitions s.text).map Definition.signature =
      [(['A'], .arrow, " a = 1 ".toList)] := by decide +kernel
  obtain ⟨plans, hplans, htexts⟩ :=
    planFiles_keeps_definitions host {} rfl hname hprops [s]
  obtain ⟨text, htext, hkept⟩ := htexts s List.mem_cons_self
  exact ⟨plans, text, hplans, htext, (hkept hclear).trans hdefinitions⟩

/-- A tag in a default value, or one that ends at an arrow, takes the definition with it when it is
completed. -/
theorem planFiles_loses_definitions :
    let host := Workspace.host ⟨.root, []⟩ [] .silent
    let path : Path := ⟨.root, ["a.tsx".toList]⟩
    let inner : Snapshot := ⟨path, "function A({ icon = <B /> }) {}".toList, none⟩
    let arrow : Snapshot := ⟨path, "<B\nlet A = ({ a }) => 1".toList, none⟩
    (∃ plans text, planFiles { host } ['B'] ["size".toList] [inner] = .ok plans ∧
      textAfter plans inner = .ok text ∧
      (Scanner.lexical.definitions inner.text).map (fun d => (d.name, d.props)) =
        [(['A'], ["icon".toList])] ∧
      Scanner.lexical.definitions text = []) ∧
    ∃ plans text, planFiles { host } ['B'] ["size".toList] [arrow] = .ok plans ∧
      textAfter plans arrow = .ok text ∧
      (Scanner.lexical.definitions arrow.text).map (fun d => (d.name, d.props)) =
        [(['A'], [['a']])] ∧
      Scanner.lexical.definitions text = [] := by
  intro host path inner arrow
  refine ⟨⟨_,
    "function A(\x7b icon = <B  size=\x7b/* TODO: completar */\x7d/> \x7d) \x7b\x7d".toList,
    planFiles_standard host {} _ _ _, ?_, ?_, ?_⟩, ⟨_,
    "<B\nlet A = (\x7b a \x7d) = size=\x7b/* TODO: completar */\x7d> 1".toList,
    planFiles_standard host {} _ _ _, ?_, ?_, ?_⟩⟩ <;> decide +kernel

end Engine

end Sync

end PropAccord
