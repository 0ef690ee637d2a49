import Mathlib.Data.List.TakeWhile
import PropAccord.Component.Definition
import PropAccord.Proofs.Lists
import PropAccord.Proofs.Names
import PropAccord.Proofs.TagPieces

/-!
# Heads of definitions

What stands before the brace of a parameter list is the head of a definition. Whether a definition
starts at a place is decided at the first opening brace from there on: the text up to it must be a
head, whatever follows, and the text behind it must close the parameter list. Heads of one name or of
any component are looked for.
-/

namespace PropAccord

set_option autoImplicit false

def Form.keywords : Form → List Text
  | .function => ["function".toList]
  | .arrow => ["const".toList, "let".toList]

namespace Definition

open Text (dropWhile_append_stop)

/-- From behind the keyword up to the opening brace, a definition of the name. -/
def isNamedHead (form : Form) (name t : Text) : Bool :=
  match form with
  | .function => ((Text.after? name t).bind (afterMark? '(')).any Text.allBlank
  | .arrow =>
    (((Text.after? name t).bind (afterMark? '=')).bind (afterMark? '(')).any Text.allBlank

/-- Up to the opening brace, a definition of the name. -/
def isHead (form : Form) (name t : Text) : Bool :=
  ((afterQualifier t).flatMap (afterKeyword form)).any (isNamedHead form name)

/-- The name that a text from behind the keyword up to the opening brace defines. -/
def namedHead? (form : Form) (pattern : NamePattern) (t : Text) : Option Text :=
  (pattern.read? t).bind fun (name, behind) => if isNamedHead form [] behind then some name else none

/-- The name that a text up to the opening brace defines. -/
def headName? (form : Form) (pattern : NamePattern) (t : Text) : Option Text :=
  ((afterQualifier t).flatMap (afterKeyword form)).findSome? (namedHead? form pattern)

/-- The names that the pattern takes end before an opening brace. -/
def Opens (pattern : NamePattern) : Prop :=
  ∀ t s : Text, pattern.read? (t ++ '{' :: s) =
    (pattern.read? t).map fun (name, rest) => (name, rest ++ '{' :: s)

/-- What follows the definition, read from behind the opening brace. -/
def closes? (form : Form) (inside : Text) : Option Text :=
  (Text.after? ['}'] (fromMark '}' inside)).bind (afterHead? form)

/-! ## The rests that a head is read from -/

theorem afterBlanks_append {c : Char} (hc : isBlank c = false) (t s : Text) :
    afterBlanks (t ++ c :: s) = (afterBlanks t).map (· ++ c :: s) := by
  induction t with
  | nil => simp [afterBlanks, hc]
  | cons a t ih =>
    simp only [List.cons_append, afterBlanks]
    split
    · rw [ih, List.map_append]
      rfl
    · rfl

theorem afterWord_append {word : Text} (hw : '{' ∉ word) (t s : Text) :
    afterWord word (t ++ '{' :: s) = (afterWord word t).map (· ++ '{' :: s) := by
  rw [afterWord, afterWord, Text.after?_append hw]
  cases Text.after? word t with
  | none => rfl
  | some rest => exact afterBlanks_append (by decide) rest s

theorem afterQualifier_append (t s : Text) :
    afterQualifier (t ++ '{' :: s) = (afterQualifier t).map (· ++ '{' :: s) := by
  simp only [afterQualifier, afterWord_append (show '{' ∉ "export".toList by decide),
    List.flatMap_map, afterWord_append (show '{' ∉ "default".toList by decide), List.map_append,
    List.map_flatMap, List.map_singleton]

theorem afterKeyword_append (form : Form) (t s : Text) :
    afterKeyword form (t ++ '{' :: s) = (afterKeyword form t).map (· ++ '{' :: s) := by
  cases form with
  | function => exact afterWord_append (by decide) t s
  | arrow =>
    simp only [afterKeyword, afterWord_append (show '{' ∉ "const".toList by decide),
      afterWord_append (show '{' ∉ "let".toList by decide), List.map_append]

/-- Blanks, one at least. -/
structure Gap (b : Text) : Prop where
  nonempty : b ≠ []
  blank : b.allBlank = true

/-- The words before a keyword that belong to the definition. -/
inductive Qualifier : Text → Prop where
  | none : Qualifier []
  | exported {b : Text} : Gap b → Qualifier ("export".toList ++ b)
  | default {b b' : Text} : Gap b → Gap b' →
      Qualifier ("export".toList ++ (b ++ ("default".toList ++ b')))

theorem mem_afterBlanks_iff {t rest : Text} :
    rest ∈ afterBlanks t ↔ ∃ b, Gap b ∧ t = b ++ rest := by
  induction t with
  | nil =>
    rw [afterBlanks]
    refine iff_of_false List.not_mem_nil ?_
    rintro ⟨b, hb, heq⟩
    exact hb.nonempty (List.append_eq_nil_iff.1 heq.symm).1
  | cons c t ih =>
    rw [afterBlanks]
    constructor
    · intro h
      split at h
      · rename_i hc
        rcases List.mem_append.1 h with h | h
        · obtain ⟨b, hb, rfl⟩ := ih.1 h
          refine ⟨c :: b, ⟨List.cons_ne_nil c b, ?_⟩, rfl⟩
          exact Bool.and_eq_true_iff.2 ⟨hc, hb.blank⟩
        · rw [List.mem_singleton.1 h]
          exact ⟨[c], ⟨List.cons_ne_nil c [], Bool.and_eq_true_iff.2 ⟨hc, rfl⟩⟩, rfl⟩
      · cases h
    · rintro ⟨b, hb, heq⟩
      cases b with
      | nil => exact absurd rfl hb.nonempty
      | cons d b =>
        obtain ⟨rfl, rfl⟩ := List.cons.inj heq
        obtain ⟨hc, hblank⟩ := Bool.and_eq_true_iff.1 hb.blank
        rw [if_pos hc, List.mem_append, List.mem_singleton, ih]
        by_cases hnil : b = []
        · subst hnil
          exact Or.inr rfl
        · exact Or.inl ⟨b, ⟨hnil, hblank⟩, rfl⟩

theorem mem_afterWord_iff {word t rest : Text} :
    rest ∈ afterWord word t ↔ ∃ b, Gap b ∧ t = word ++ (b ++ rest) := by
  rw [afterWord]
  constructor
  · intro h
    split at h
    · rename_i behind hbehind
      obtain ⟨b, hb, rfl⟩ := mem_afterBlanks_iff.1 h
      exact ⟨b, hb, Text.after?_eq_some_iff.1 hbehind⟩
    · cases h
  · rintro ⟨b, hb, rfl⟩
    rw [Text.after?_eq_some_iff.2 rfl]
    exact mem_afterBlanks_iff.2 ⟨b, hb, rfl⟩

theorem mem_afterQualifier_iff {t rest : Text} :
    rest ∈ afterQualifier t ↔ ∃ q, Qualifier q ∧ t = q ++ rest := by
  simp only [afterQualifier, List.mem_append, List.mem_flatMap, List.mem_singleton,
    mem_afterWord_iff]
  constructor
  · rintro (⟨behind, ⟨b, hb, rfl⟩, b', hb', rfl⟩ | ⟨b, hb, rfl⟩ | rfl)
    · exact ⟨_, .default hb hb', by simp only [List.append_assoc]⟩
    · exact ⟨_, .exported hb, by rw [List.append_assoc]⟩
    · exact ⟨[], .none, rfl⟩
  · rintro ⟨q, hq, rfl⟩
    cases hq with
    | none => exact Or.inr (Or.inr rfl)
    | exported hb => exact Or.inr (Or.inl ⟨_, hb, by rw [List.append_assoc]⟩)
    | default hb hb' => exact Or.inl ⟨_, ⟨_, hb, by simp only [List.append_assoc]⟩, _, hb', rfl⟩

theorem mem_afterKeyword_iff {form : Form} {t rest : Text} :
    rest ∈ afterKeyword form t ↔
      ∃ word ∈ form.keywords, ∃ b, Gap b ∧ t = word ++ (b ++ rest) := by
  cases form with
  | function => simp only [afterKeyword, Form.keywords, List.mem_singleton, exists_eq_left,
      mem_afterWord_iff]
  | arrow =>
    simp only [afterKeyword, Form.keywords, List.mem_append, List.mem_cons, List.not_mem_nil,
      or_false, exists_eq_or_imp, exists_eq_left, mem_afterWord_iff]

theorem mem_rests_iff {form : Form} {t rest : Text} :
    rest ∈ (afterQualifier t).flatMap (afterKeyword form) ↔
      ∃ q, Qualifier q ∧ ∃ word ∈ form.keywords, ∃ gap, Gap gap ∧
        t = q ++ (word ++ (gap ++ rest)) := by
  simp only [List.mem_flatMap, mem_afterQualifier_iff, mem_afterKeyword_iff]
  constructor
  · rintro ⟨_, ⟨q, hq, rfl⟩, word, hword, gap, hgap, rfl⟩
    exact ⟨q, hq, word, hword, gap, hgap, rfl⟩
  · rintro ⟨q, hq, word, hword, gap, hgap, rfl⟩
    exact ⟨_, ⟨q, hq, rfl⟩, word, hword, gap, hgap, rfl⟩

theorem isNameChar_of_mem_keyword {form : Form} {word : Text} (h : word ∈ form.keywords) :
    word.all isNameChar = true := by
  cases form with
  | function => rw [List.mem_singleton.1 h]; decide
  | arrow =>
    simp only [Form.keywords, List.mem_cons, List.not_mem_nil, or_false] at h
    rcases h with rfl | rfl <;> decide

theorem Qualifier.not_mem {q : Text} (h : Qualifier q) {c : Char} (hc : isNameChar c = false)
    (hblank : isBlank c = false) : c ∉ q := by
  have hexport : c ∉ "export".toList :=
    not_mem_of_all_isNameChar (List.all_eq_true.1 (by decide)) hc
  have hdefault : c ∉ "default".toList :=
    not_mem_of_all_isNameChar (List.all_eq_true.1 (by decide)) hc
  have hgap : ∀ b, Gap b → c ∉ b := fun b hb => Text.not_mem_of_allBlank hblank hb.blank
  cases h with
  | none => exact List.not_mem_nil
  | exported hb => exact List.not_mem_append hexport (hgap _ hb)
  | default hb hb' =>
    exact List.not_mem_append hexport
      (List.not_mem_append (hgap _ hb) (List.not_mem_append hdefault (hgap _ hb')))

/-- What is left of a text behind words and blanks: it ends the text and has all its marks. -/
structure Left (t rest : Text) : Prop where
  suffix : rest <:+ t
  mem_iff : ∀ c, isNameChar c = false → isBlank c = false → (c ∈ t ↔ c ∈ rest)

theorem left_of_mem_rests {form : Form} {t rest : Text}
    (h : rest ∈ (afterQualifier t).flatMap (afterKeyword form)) : Left t rest := by
  obtain ⟨q, hq, word, hword, gap, hgap, rfl⟩ := mem_rests_iff.1 h
  have hparts : q ++ (word ++ (gap ++ rest)) = q ++ (word ++ gap) ++ rest := by simp
  rw [hparts]
  refine ⟨List.suffix_append _ rest, fun c hc hblank => ?_⟩
  have hword' : c ∉ word :=
    not_mem_of_all_isNameChar (List.all_eq_true.1 (isNameChar_of_mem_keyword hword)) hc
  have hgap' : c ∉ gap := Text.not_mem_of_allBlank hblank hgap.blank
  rw [List.mem_append, or_iff_right]
  exact List.not_mem_append (hq.not_mem hc hblank) (List.not_mem_append hword' hgap')

/-! ## Reading up to the opening brace -/

theorem afterMark?_append {mark : Char} (hm : mark ≠ '{') (t s : Text) :
    afterMark? mark (t ++ '{' :: s) = (afterMark? mark t).map (· ++ '{' :: s) := by
  have hnot : '{' ∉ [mark] := fun h => hm (List.mem_singleton.1 h).symm
  rw [afterMark?, afterMark?, Text.stripStart, dropWhile_append_stop (by decide),
    Text.after?_append hnot]
  rfl

theorem exists_of_afterMark? {mark : Char} {t rest : Text} (h : afterMark? mark t = some rest) :
    ∃ b : Text, t = b ++ mark :: rest ∧ b.allBlank = true := by
  rw [afterMark?, Text.after?_eq_some_iff, Text.stripStart] at h
  refine ⟨t.takeWhile isBlank, ?_, List.all_eq_true.2 fun _ hc => List.mem_takeWhile_imp hc⟩
  rw [List.singleton_append] at h
  rw [← h, List.takeWhile_append_dropWhile]

theorem mem_of_afterMark? {mark c : Char} {t rest : Text} (h : afterMark? mark t = some rest)
    (hc : c = mark ∨ c ∈ rest) : c ∈ t := by
  obtain ⟨b, rfl, -⟩ := exists_of_afterMark? h
  exact List.mem_append_right b (List.mem_cons.2 hc)

theorem afterMark?_brace {t : Text} (ht : '{' ∉ t) (s : Text) :
    afterMark? '{' (t ++ '{' :: s) = if t.allBlank then some s else none := by
  rw [afterMark?, Text.stripStart, dropWhile_append_stop (by decide)]
  cases hd : t.dropWhile isBlank with
  | nil =>
    have hblank : t.allBlank = true := List.all_eq_true.2 (List.dropWhile_eq_nil_iff.1 hd)
    rw [if_pos hblank]
    rfl
  | cons a rest =>
    have hblank : ¬ t.allBlank = true := by
      intro hall
      rw [List.dropWhile_eq_nil_iff.2 (List.all_eq_true.1 hall)] at hd
      cases hd
    have ha : '{' ≠ a := by
      rintro rfl
      exact ht ((List.dropWhile_sublist isBlank).mem (hd ▸ List.mem_cons_self))
    rw [if_neg hblank, List.cons_append, Text.after?, if_neg ha]

theorem afterBrace?_append (form : Form) {t : Text} (ht : '{' ∉ t) (s : Text) :
    afterBrace? form (t ++ '{' :: s) =
      if isNamedHead form [] t then some s else none := by
  cases form with
  | function =>
    simp only [afterBrace?, isNamedHead, Text.after?, afterMark?_append (show '(' ≠ '{' by decide)]
    cases h : afterMark? '(' t with
    | none => simp [h]
    | some rest =>
      have hrest : '{' ∉ rest := fun hm => ht (mem_of_afterMark? h (Or.inr hm))
      simp [h, afterMark?_brace hrest]
  | arrow =>
    simp only [afterBrace?, isNamedHead, Text.after?, afterMark?_append (show '=' ≠ '{' by decide)]
    cases h : afterMark? '=' t with
    | none => simp [h]
    | some rest =>
      have hrest : '{' ∉ rest := fun hm => ht (mem_of_afterMark? h (Or.inr hm))
      simp only [h, Option.map_some, Option.bind_some, Option.bind_eq_bind,
        afterMark?_append (show '(' ≠ '{' by decide)]
      cases h' : afterMark? '(' rest with
      | none => simp
      | some rest' =>
        have hrest' : '{' ∉ rest' := fun hm => hrest (mem_of_afterMark? h' (Or.inr hm))
        simp [afterMark?_brace hrest']

theorem isNamedHead_of_after? {form : Form} {name t : Text} :
    isNamedHead form name t = (Text.after? name t).any (isNamedHead form []) := by
  cases form <;> cases h : Text.after? name t <;> simp [isNamedHead, h, Text.after?]

theorem headName?_exactly (form : Form) (name t : Text) :
    headName? form (.exactly name) t = if isHead form name t then some name else none := by
  apply findSome?_eq_ite
  intro rest _
  rw [namedHead?, NamePattern.read?, isNamedHead_of_after?]
  cases Text.after? name rest <;> rfl

theorem opens_anyComponent : Opens .anyComponent := by
  intro t s
  cases t with
  | nil => rfl
  | cons c t =>
    have hbrace : isNameChar '{' = false := by decide
    rw [List.cons_append, NamePattern.read?, NamePattern.read?,
      Text.takeWhile_append_stop hbrace, dropWhile_append_stop hbrace]
    split <;> rfl

theorem opens_exactly {name : Text} (h : '{' ∉ name) : Opens (.exactly name) := by
  intro t s
  rw [NamePattern.read?, NamePattern.read?, Text.after?_append h, Option.map_map, Option.map_map]
  rfl

section

variable (form : Form) {t : Text} (ht : '{' ∉ t) (inside : Text)
include ht

theorem readNamed?_append {pattern : NamePattern} (hpattern : Opens pattern) :
    readNamed? form pattern (t ++ '{' :: inside) =
      (namedHead? form pattern t).bind fun name =>
        (closes? form inside).map fun after => { name, inside, after } := by
  rw [readNamed?, namedHead?, hpattern]
  cases h : pattern.read? t with
  | none => rfl
  | some found =>
    obtain ⟨name, rest⟩ := found
    have hrest : '{' ∉ rest := by
      intro hm
      rw [NamePattern.eq_append_of_read? h] at ht
      exact ht (List.mem_append_right name hm)
    simp only [Option.map_some, Option.bind_eq_bind, Option.bind_some, afterBrace?_append form hrest]
    split
    · simp only [closes?, Option.bind_some]
      cases Text.after? ['}'] (fromMark '}' inside) with
      | none => rfl
      | some closed =>
        simp only [Option.bind_some]
        cases afterHead? form closed <;> rfl
    · rfl

/-- A definition is read off the front of a text exactly if the text up to the first opening brace is
a head and the parameter list is closed behind it. -/
theorem read?_append {pattern : NamePattern} (hpattern : Opens pattern) :
    read? form pattern (t ++ '{' :: inside) =
      (headName? form pattern t).bind fun name =>
        (closes? form inside).map fun after => { name, inside, after } := by
  have hrests : (afterQualifier (t ++ '{' :: inside)).flatMap (afterKeyword form) =
      ((afterQualifier t).flatMap (afterKeyword form)).map (· ++ '{' :: inside) := by
    simp only [afterQualifier_append, List.flatMap_map, afterKeyword_append, List.map_flatMap]
  have hread : ∀ rest ∈ (afterQualifier t).flatMap (afterKeyword form),
      readNamed? form pattern (rest ++ '{' :: inside) = (namedHead? form pattern rest).bind
        fun name => (closes? form inside).map fun after => { name, inside, after } := by
    intro rest hrest
    have hfree : '{' ∉ rest :=
      fun hm => ht (((left_of_mem_rests hrest).mem_iff _ (by decide) (by decide)).2 hm)
    exact readNamed?_append form hfree inside hpattern
  rw [read?, hrests, List.findSome?_map, headName?]
  generalize (afterQualifier t).flatMap (afterKeyword form) = rests at hread
  induction rests with
  | nil => rfl
  | cons rest rests ih =>
    rw [List.findSome?_cons, List.findSome?_cons, Function.comp, hread rest List.mem_cons_self,
      ih fun r hr => hread r (List.mem_cons_of_mem rest hr)]
    cases namedHead? form pattern rest <;> cases closes? form inside <;> simp

theorem read?_exactly_append {name : Text} (hname : '{' ∉ name) :
    read? form (.exactly name) (t ++ '{' :: inside) =
      if isHead form name t then (closes? form inside).map fun after => { name, inside, after }
      else none := by
  rw [read?_append form ht inside (opens_exactly hname), headName?_exactly]
  split <;> rfl

end

theorem mem_of_afterBrace? {form : Form} {t rest : Text} (h : afterBrace? form t = some rest) :
    '{' ∈ t := by
  cases form with
  | function =>
    obtain ⟨u, hu, h⟩ := Option.bind_eq_some_iff.1 h
    exact mem_of_afterMark? hu (Or.inr (mem_of_afterMark? h (Or.inl rfl)))
  | arrow =>
    obtain ⟨u, hu, h⟩ := Option.bind_eq_some_iff.1 h
    obtain ⟨v, hv, hu⟩ := Option.bind_eq_some_iff.1 hu
    exact mem_of_afterMark? hv
      (Or.inr (mem_of_afterMark? hu (Or.inr (mem_of_afterMark? h (Or.inl rfl)))))

theorem read?_eq_none_of_not_mem (form : Form) (pattern : NamePattern) {t : Text} (ht : '{' ∉ t) :
    read? form pattern t = none := by
  rw [Option.eq_none_iff_forall_not_mem]
  intro r hr
  obtain ⟨rest, hrest, hread⟩ := List.exists_of_findSome?_eq_some hr
  rw [readNamed?] at hread
  simp only [Option.bind_eq_bind, Option.bind_eq_some_iff, Prod.exists] at hread
  obtain ⟨name, behind, hname, inside, hbrace, -⟩ := hread
  apply ht
  rw [(left_of_mem_rests hrest).mem_iff _ (by decide) (by decide),
    NamePattern.eq_append_of_read? hname]
  exact List.mem_append_right name (mem_of_afterBrace? hbrace)

/-- Behind its name a head has blanks and an equals sign at most, then a parenthesis and blanks. -/
theorem exists_of_isNamedHead {form : Form} {t : Text} (h : isNamedHead form [] t = true) :
    ∃ u b : Text, t = u ++ '(' :: b ∧ b.allBlank = true ∧ ∀ c ∈ u, isBlank c = true ∨ c = '=' := by
  cases form with
  | function =>
    simp only [isNamedHead, Text.after?, Option.bind_some, Option.any_eq_true] at h
    obtain ⟨b, hparen, hb⟩ := h
    obtain ⟨u, rfl, hu⟩ := exists_of_afterMark? hparen
    exact ⟨u, b, rfl, hb, fun c hc => Or.inl (List.all_eq_true.1 hu c hc)⟩
  | arrow =>
    simp only [isNamedHead, Text.after?, Option.bind_some, Option.any_eq_true,
      Option.bind_eq_some_iff] at h
    obtain ⟨b, ⟨v, hequals, hparen⟩, hb⟩ := h
    obtain ⟨u, rfl, hu⟩ := exists_of_afterMark? hequals
    obtain ⟨u', rfl, hu'⟩ := exists_of_afterMark? hparen
    refine ⟨u ++ '=' :: u', b, by simp, hb, fun c hc => ?_⟩
    rcases List.mem_append.1 hc with hc | hc
    · exact Or.inl (List.all_eq_true.1 hu c hc)
    · rcases List.mem_cons.1 hc with hc | hc
      · exact Or.inr hc
      · exact Or.inl (List.all_eq_true.1 hu' c hc)

/-- A head ends with a parenthesis and blanks, and has no marks that its name does not have, other
than an equals sign. -/
theorem exists_of_headName? {form : Form} {pattern : NamePattern} {t name : Text}
    (h : headName? form pattern t = some name) :
    (∃ u b : Text, t = u ++ '(' :: b ∧ b.allBlank = true) ∧
      ∀ c, isNameChar c = false → isBlank c = false → c ≠ '(' → c ≠ '=' → c ∉ name → c ∉ t := by
  obtain ⟨rest, hrest, hnamed⟩ := List.exists_of_findSome?_eq_some h
  obtain ⟨⟨name', behind⟩, hread, hnamed⟩ := Option.bind_eq_some_iff.1 hnamed
  have hleft := left_of_mem_rests hrest
  simp only at hnamed
  split at hnamed
  · rename_i hhead
    obtain rfl := Option.some.inj hnamed
    obtain ⟨u, b, rfl, hb, hu⟩ := exists_of_isNamedHead hhead
    obtain rfl := NamePattern.eq_append_of_read? hread
    constructor
    · obtain ⟨words, rfl⟩ := hleft.suffix
      exact ⟨words ++ name' ++ u, b, by simp, hb⟩
    · intro c hc hblank hparen hequals hname
      rw [hleft.mem_iff c hc hblank]
      have hu' : c ∉ u := fun hm => (hu c hm).elim
        (fun hm => by rw [hm] at hblank; cases hblank) hequals
      have hb' : c ∉ b := Text.not_mem_of_allBlank hblank hb
      exact List.not_mem_append hname
        (List.not_mem_append hu' (List.not_mem_cons_of_ne_of_not_mem hparen hb'))
  · cases hnamed

theorem not_mem_of_isHead {form : Form} {name t : Text} (hname : '}' ∉ name)
    (h : isHead form name t = true) : '}' ∉ t := by
  have hhead : headName? form (.exactly name) t = some name := by
    rw [headName?_exactly, if_pos h]
  exact (exists_of_headName? hhead).2 '}' (by decide) (by decide) (by decide) (by decide) hname

/-! ## The first definition -/

section

variable {form : Form} {pattern : NamePattern}

/-- No definition starts in the first text when the second one follows. -/
def Skips (form : Form) (pattern : NamePattern) : Text → Text → Prop
  | [], _ => True
  | c :: before, s => read? form pattern (c :: (before ++ s)) = none ∧ Skips form pattern before s

instance decidableSkips (form : Form) (pattern : NamePattern) :
    (before s : Text) → Decidable (Skips form pattern before s)
  | [], _ => .isTrue trivial
  | _ :: before, s =>
    have := decidableSkips form pattern before s
    inferInstanceAs (Decidable (_ ∧ _))

theorem skips_append {a b s : Text} :
    Skips form pattern (a ++ b) s ↔ Skips form pattern a (b ++ s) ∧ Skips form pattern b s := by
  induction a with
  | nil => simp [Skips]
  | cons c a ih => simp only [List.cons_append, Skips, ih, List.append_assoc, and_assoc]

theorem skips_of_forall {before s : Text}
    (h : ∀ t, t <:+ before → t ≠ [] → read? form pattern (t ++ s) = none) :
    Skips form pattern before s := by
  induction before with
  | nil => trivial
  | cons c before ih =>
    exact ⟨h (c :: before) List.suffix_rfl (List.cons_ne_nil c before),
      ih fun t ht => h t (ht.trans (List.suffix_cons c before))⟩

/-- What follows may be exchanged if no start before it comes to be a definition by that. -/
theorem Skips.exchange {before s s' : Text} (h : Skips form pattern before s)
    (hread : ∀ t, t <:+ before → read? form pattern (t ++ s) = none →
      read? form pattern (t ++ s') = none) : Skips form pattern before s' := by
  induction before with
  | nil => trivial
  | cons c before ih =>
    refine ⟨hread (c :: before) List.suffix_rfl h.1, ih h.2 ?_⟩
    intro t ht
    exact hread t (ht.trans (List.suffix_cons c before))

theorem scanFrom_of_skips {before s : Text} (h : Skips form pattern before s) (offset : Nat) :
    scanFrom form pattern offset (before ++ s) =
      scanFrom form pattern (offset + before.length) s := by
  induction before generalizing offset with
  | nil => rfl
  | cons c before ih =>
    rw [List.cons_append, scanFrom_of_read?_eq_none offset h.1, ih h.2]
    congr 1
    simp only [List.length_cons]
    omega

/-- The definition that a reading behind `offset` characters stands for. -/
def ofReading (form : Form) (offset : Nat) (s : Text) (r : Reading) : Definition :=
  { name := r.name, form, raw := r.raw, start := offset + (s.length - r.inside.length) }

theorem read?_nil : read? form pattern [] = none :=
  read?_eq_none_of_not_mem form pattern List.not_mem_nil

theorem scanFrom_of_reading {s : Text} {r : Reading} (h : read? form pattern s = some r)
    (offset : Nat) : scanFrom form pattern offset s = ofReading form offset s r ::
      scanFrom form pattern (offset + (s.length - r.after.length)) r.after := by
  cases s with
  | nil =>
    rw [read?_nil] at h
    cases h
  | cons c s => exact scanFrom_of_read? offset h

theorem head?_scanFrom_of_read? {s : Text} {r : Reading} (h : read? form pattern s = some r)
    (offset : Nat) : (scanFrom form pattern offset s).head? = some (ofReading form offset s r) := by
  rw [scanFrom_of_reading h, List.head?_cons]

/-- Every definition that is found was read somewhere. -/
theorem exists_read?_of_mem_scanFrom {offset : Nat} {t : Text} {d : Definition}
    (h : d ∈ scanFrom form pattern offset t) :
    ∃ offset' s r, read? form pattern s = some r ∧ d = ofReading form offset' s r := by
  induction offset, t using scanFrom.induct form pattern with
  | case1 offset =>
    rw [scanFrom_nil] at h
    cases h
  | case2 offset c rest r hr ih =>
    rw [scanFrom_of_read? offset hr] at h
    rcases List.mem_cons.1 h with rfl | h
    · exact ⟨offset, c :: rest, r, hr, rfl⟩
    · exact ih h
  | case3 offset c rest hr ih =>
    rw [scanFrom_of_read?_eq_none offset hr] at h
    exact ih h

theorem scanFrom_eq_nil_iff {offset : Nat} {t : Text} :
    scanFrom form pattern offset t = [] ↔ Skips form pattern t [] := by
  induction t generalizing offset with
  | nil => simp [scanFrom_nil, Skips]
  | cons c t ih =>
    rw [Skips, List.append_nil]
    cases h : read? form pattern (c :: t) with
    | none => rw [scanFrom_of_read?_eq_none offset h, ih, and_iff_right rfl]
    | some r => rw [scanFrom_of_read? offset h]; simp

theorem scan_eq_nil_iff {t : Text} : scan form pattern t = [] ↔ Skips form pattern t [] :=
  scanFrom_eq_nil_iff

theorem head?_scanFrom_eq_some_iff {offset : Nat} {t : Text} {d : Definition} :
    (scanFrom form pattern offset t).head? = some d ↔
      ∃ before s r, t = before ++ s ∧ Skips form pattern before s ∧
        read? form pattern s = some r ∧ d = ofReading form (offset + before.length) s r := by
  constructor
  · intro h
    induction t generalizing offset with
    | nil =>
      rw [scanFrom_nil] at h
      cases h
    | cons c t ih =>
      cases hread : read? form pattern (c :: t) with
      | some r =>
        rw [head?_scanFrom_of_read? hread] at h
        exact ⟨[], c :: t, r, rfl, trivial, hread, (Option.some.inj h).symm⟩
      | none =>
        rw [scanFrom_of_read?_eq_none offset hread] at h
        obtain ⟨before, s, r, rfl, hskips, hr, rfl⟩ := ih h
        refine ⟨c :: before, s, r, rfl, ⟨hread, hskips⟩, hr, ?_⟩
        rw [List.length_cons, Nat.add_assoc, Nat.add_comm 1]
  · rintro ⟨before, s, r, rfl, hskips, hr, rfl⟩
    rw [scanFrom_of_skips hskips, head?_scanFrom_of_read? hr]

theorem head?_scan_eq_some_iff {t : Text} {d : Definition} :
    (scan form pattern t).head? = some d ↔
      ∃ before s r, t = before ++ s ∧ Skips form pattern before s ∧
        read? form pattern s = some r ∧ d = ofReading form before.length s r := by
  rw [scan, head?_scanFrom_eq_some_iff]
  simp only [Nat.zero_add]

end

/-! ## Definitions in their surroundings -/

theorem isComponentName_of_mem_scanAll {t : Text} {d : Definition} (h : d ∈ scanAll t) :
    isComponentName d.name = true := by
  have hscan : ∀ form, d ∈ scan form .anyComponent t → isComponentName d.name = true := by
    intro form hmem
    obtain ⟨offset, s, r, hr, rfl⟩ := exists_read?_of_mem_scanFrom hmem
    obtain ⟨rest, -, hr⟩ := List.exists_of_findSome?_eq_some hr
    unfold readNamed? at hr
    simp only [Option.bind_eq_bind, Option.bind_eq_some_iff, Prod.exists] at hr
    obtain ⟨name, _, hname, _, _, _, _, _, _, heq⟩ := hr
    cases heq
    exact isComponentName_of_read? hname
  exact (List.mem_append.1 h).elim (hscan .function) (hscan .arrow)

theorem fromMark_append {mark : Char} {t : Text} (h : mark ∉ t) (s : Text) :
    fromMark mark (t ++ s) = fromMark mark s := by
  rw [fromMark, List.dropWhile_append_of_pos]
  · rfl
  · intro c hc
    exact decide_eq_true fun heq => h (heq ▸ hc)

theorem fromMark_cons (mark : Char) (s : Text) : fromMark mark (mark :: s) = mark :: s := by
  rw [fromMark, List.dropWhile_cons_of_neg (by simp)]

theorem fromMark_cons_of_ne {mark c : Char} (h : c ≠ mark) (s : Text) :
    fromMark mark (c :: s) = fromMark mark s :=
  List.dropWhile_cons_of_pos (by simpa using h)

theorem closes?_append (form : Form) {raw : Text} (h : '}' ∉ raw) (closed : Text) :
    closes? form (raw ++ '}' :: closed) = afterHead? form closed := by
  rw [closes?, fromMark_append h, fromMark_cons]
  rfl

theorem raw_append {raw : Text} (h : '}' ∉ raw) (name closed after : Text) :
    Reading.raw { name, inside := raw ++ '}' :: closed, after } = raw :=
  Text.before_append_mark h closed

/-- The text around a parameter list. -/
def around (before head raw closed : Text) : Text :=
  before ++ (head ++ '{' :: (raw ++ '}' :: closed))

/-- The definition that is found when the text of its parameter list stands in these surroundings. -/
structure Stands (name before head closed : Text) (d : Definition) : Prop where
  named : d.name = name
  place : d.start = before.length + head.length + 1
  free : '{' ∉ head
  opened : isHead d.form name head = true
  inner : '}' ∉ d.raw
  ended : (afterHead? d.form closed).isSome = true
  first : Skips d.form (.exactly name) before (head ++ '{' :: (d.raw ++ '}' :: closed))
  preferred : d.form = .arrow →
    Skips .function (.exactly name) (around before head d.raw closed) []

theorem head?_scan_of_stands {name before head closed : Text} {d : Definition} (hname : '{' ∉ name)
    (h : Stands name before head closed d) :
    (scan d.form (.exactly name) (around before head d.raw closed)).head? = some d := by
  obtain ⟨after, hafter⟩ := Option.isSome_iff_exists.1 h.ended
  refine head?_scan_eq_some_iff.2 ⟨before, _, ⟨name, d.raw ++ '}' :: closed, after⟩, rfl, h.first,
    ?_, ?_⟩
  · rw [read?_exactly_append d.form h.free _ hname, if_pos h.opened, closes?_append d.form h.inner,
      hafter]
    rfl
  · rw [ofReading, raw_append h.inner]
    cases d with
    | mk dname form raw start =>
      obtain rfl : dname = name := h.named
      obtain rfl : start = _ := h.place
      simp only [List.length_append, List.length_cons, Definition.mk.injEq, true_and]
      omega

theorem mem_of_closes? {form : Form} {inside after : Text} (h : closes? form inside = some after) :
    '}' ∈ inside := by
  by_contra hnot
  have hfrom := fromMark_append hnot []
  rw [List.append_nil] at hfrom
  rw [closes?, hfrom] at h
  cases h

theorem exists_stands_of_head?_scan {form : Form} {name t : Text} {d : Definition}
    (hname : '{' ∉ name) (h : (scan form (.exactly name) t).head? = some d)
    (hpreferred : form = .arrow → Skips .function (.exactly name) t []) :
    ∃ before head closed, t = around before head d.raw closed ∧
      Stands name before head closed d := by
  obtain ⟨before, s, r, rfl, hskips, hr, rfl⟩ := head?_scan_eq_some_iff.1 h
  have hopen : '{' ∈ s := by
    by_contra hnot
    rw [read?_eq_none_of_not_mem form _ hnot] at hr
    cases hr
  obtain ⟨head, inside, rfl, hfree⟩ := List.eq_append_cons_of_mem hopen
  rw [read?_exactly_append form hfree _ hname] at hr
  split at hr
  · rename_i hhead
    obtain ⟨after, hcloses, rfl⟩ := Option.map_eq_some_iff.1 hr
    obtain ⟨raw, closed, rfl, hinner⟩ := List.eq_append_cons_of_mem (mem_of_closes? hcloses)
    rw [closes?_append form hinner] at hcloses
    refine ⟨before, head, closed, ?_, ?_⟩
    · rw [ofReading, raw_append hinner, around]
    · rw [ofReading, raw_append hinner]
      refine ⟨rfl, ?_, hfree, hhead, hinner, by rw [hcloses]; rfl, hskips, hpreferred⟩
      simp only [List.length_append, List.length_cons]
      omega
  · cases hr

theorem find?_eq_none_iff {t name : Text} :
    find? t name = none ↔
      scan .function (.exactly name) t = [] ∧ scan .arrow (.exactly name) t = [] := by
  simp [find?]

theorem cases_of_find? {t name : Text} {d : Definition} (h : find? t name = some d) :
    (scan .function (.exactly name) t).head? = some d ∨
      scan .function (.exactly name) t = [] ∧ (scan .arrow (.exactly name) t).head? = some d := by
  rw [find?] at h
  cases hfunction : (scan .function (.exactly name) t).head? with
  | some d' =>
    rw [hfunction] at h
    exact Or.inl h
  | none =>
    rw [hfunction] at h
    exact Or.inr ⟨List.head?_eq_none_iff.1 hfunction, h⟩

/-- Where a definition is found. -/
theorem find?_eq_some_iff {name : Text} (hname : '{' ∉ name) {t : Text} {d : Definition} :
    find? t name = some d ↔
      ∃ before head closed, t = around before head d.raw closed ∧
        Stands name before head closed d := by
  constructor
  · intro h
    rcases cases_of_find? h with hfunction | ⟨hnil, harrow⟩
    · exact exists_stands_of_head?_scan hname hfunction nofun
    · exact exists_stands_of_head?_scan hname harrow fun _ => scan_eq_nil_iff.1 hnil
  · rintro ⟨before, head, closed, rfl, h⟩
    have hscan := head?_scan_of_stands hname h
    rw [find?]
    cases hform : d.form with
    | function =>
      rw [hform] at hscan
      rw [hscan]
      rfl
    | arrow =>
      rw [hform] at hscan
      rw [scan_eq_nil_iff.2 (h.preferred hform), hscan]
      rfl

/-! ## What a reading takes up -/

/-- A definition of any component that is read begins with a head. -/
theorem exists_of_read? {form : Form} {s : Text} {r : Reading}
    (h : read? form .anyComponent s = some r) :
    ∃ head, s = head ++ '{' :: r.inside ∧ '{' ∉ head ∧
      headName? form .anyComponent head = some r.name ∧ closes? form r.inside = some r.after := by
  by_cases hbrace : '{' ∈ s
  · obtain ⟨head, inside, rfl, hfree⟩ := List.eq_append_cons_of_mem hbrace
    rw [read?_append form hfree inside opens_anyComponent] at h
    obtain ⟨name, hname, h⟩ := Option.bind_eq_some_iff.1 h
    obtain ⟨after, hafter, rfl⟩ := Option.map_eq_some_iff.1 h
    exact ⟨head, rfl, hfree, hname, hafter⟩
  · rw [read?_eq_none_of_not_mem form _ hbrace] at h
    cases h

theorem isComponentName_of_headName? {form : Form} {head name : Text}
    (h : headName? form .anyComponent head = some name) : isComponentName name = true := by
  obtain ⟨rest, -, hnamed⟩ := List.exists_of_findSome?_eq_some h
  obtain ⟨⟨name', behind⟩, hread, hnamed⟩ := Option.bind_eq_some_iff.1 hnamed
  simp only at hnamed
  split at hnamed
  · rw [← Option.some.inj hnamed]
    exact isComponentName_of_read? hread
  · cases hnamed

theorem suffix_of_afterHead? {form : Form} {s after : Text} (h : afterHead? form s = some after) :
    after <:+ s := by
  have hstrip : ∀ t : Text, t.stripStart <:+ t := fun t => List.dropWhile_suffix isBlank
  have htoken : ∀ {token t rest : Text}, Text.after? token t = some rest → rest <:+ t := by
    intro token t rest ht
    rw [Text.after?_eq_some_iff.1 ht]
    exact List.suffix_append token rest
  have hannotation : annotationPassed s <:+ s := by
    have hs := hstrip s
    unfold annotationPassed
    split
    · rename_i rest heq
      rw [heq] at hs
      exact (List.dropWhile_suffix _).trans ((List.suffix_cons _ _).trans hs)
    · exact hs
  cases form with
  | function => exact (htoken h).trans hannotation
  | arrow =>
    obtain ⟨rest, hrest, h⟩ := Option.bind_eq_some_iff.1 h
    exact (htoken h).trans ((hstrip rest).trans ((htoken hrest).trans hannotation))

theorem exists_of_closes? {form : Form} {inside after : Text} (h : closes? form inside = some after) :
    ∃ closed, inside = inside.before '}' ++ '}' :: closed ∧ afterHead? form closed = some after := by
  obtain ⟨raw, closed, rfl, hraw⟩ := List.eq_append_cons_of_mem (mem_of_closes? h)
  rw [closes?_append form hraw] at h
  refine ⟨closed, ?_, h⟩
  rw [Text.before_append_mark hraw]

theorem suffix_of_read? {form : Form} {s : Text} {r : Reading}
    (h : read? form .anyComponent s = some r) : r.inside <:+ s ∧ r.after <:+ r.inside := by
  obtain ⟨head, hhead, -, -, hcloses⟩ := exists_of_read? h
  obtain ⟨closed, hinside, hafter⟩ := exists_of_closes? hcloses
  constructor
  · rw [hhead]
    exact (List.suffix_cons '{' r.inside).trans (List.suffix_append head _)
  · rw [hinside]
    exact (suffix_of_afterHead? hafter).trans
      ((List.suffix_cons '}' closed).trans (List.suffix_append _ _))

end Definition

end PropAccord
