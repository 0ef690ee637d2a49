import Mathlib.Data.List.Infix
import PropAccord.Proofs.DefinitionLookup
import PropAccord.Proofs.Widening

/-!
# The grammar of definitions

An occurrence of a definition is a text cut into the parts of a definition and what stands around them.
The definition that is found for a name is the one whose keyword comes first among all occurrences of a
form, whatever stands before the keyword: the words of a qualifier are no keywords, so a reading that
begins with a qualifier passes over no other occurrence.
-/

namespace PropAccord

set_option autoImplicit false

namespace Definition

/-- What stands between the name and the opening brace. -/
inductive Signs : Form → Text → Prop where
  | function {b b' : Text} : b.allBlank = true → b'.allBlank = true → Signs .function (b ++ '(' :: b')
  | arrow {b b' b'' : Text} : b.allBlank = true → b'.allBlank = true → b''.allBlank = true →
      Signs .arrow (b ++ '=' :: (b' ++ '(' :: b''))

/-- Blanks, perhaps an annotation, and a closing parenthesis. -/
inductive Tail : Text → Prop where
  | plain {b : Text} : b.allBlank = true → Tail (b ++ [')'])
  | annotated {b note : Text} : b.allBlank = true → ')' ∉ note → Tail (b ++ ':' :: (note ++ [')']))

/-- What stands behind the closing brace. -/
inductive Ending : Form → Text → Prop where
  | function {tail : Text} : Tail tail → Ending .function tail
  | arrow {tail b : Text} : Tail tail → b.allBlank = true → Ending .arrow (tail ++ (b ++ ['=', '>']))

/-- A text cut into the parts of a definition and what stands before and behind it. -/
structure Occurrence (form : Form) (name : Text) where
  before : Text
  word : Text
  gap : Text
  signs : Text
  raw : Text
  ending : Text
  after : Text
  isKeyword : word ∈ form.keywords
  isGap : Gap gap
  isSigns : Signs form signs
  free : '}' ∉ raw
  isEnding : Ending form ending

/-! ## Reading the parts -/

theorem afterMark?_eq_some_iff {mark : Char} (hm : isBlank mark = false) {t rest : Text} :
    afterMark? mark t = some rest ↔ ∃ b : Text, b.allBlank = true ∧ t = b ++ mark :: rest := by
  constructor
  · intro h
    obtain ⟨b, rfl, hb⟩ := exists_of_afterMark? h
    exact ⟨b, hb, rfl⟩
  · rintro ⟨b, hb, rfl⟩
    rw [afterMark?, Text.stripStart_append_blanks hb, Text.stripStart,
      List.dropWhile_cons_of_neg (ne_true_of_eq_false hm)]
    exact Text.after?_eq_some_iff.2 rfl

theorem isNamedHead_iff {form : Form} {t : Text} : isNamedHead form [] t = true ↔ Signs form t := by
  have hparen : isBlank '(' = false := by decide
  have hequals : isBlank '=' = false := by decide
  cases form with
  | function =>
    simp only [isNamedHead, Text.after?, Option.bind_some, Option.any_eq_true,
      afterMark?_eq_some_iff hparen]
    constructor
    · rintro ⟨b', ⟨b, hb, rfl⟩, hb'⟩
      exact .function hb hb'
    · intro h
      cases h with
      | function hb hb' => exact ⟨_, ⟨_, hb, rfl⟩, hb'⟩
  | arrow =>
    simp only [isNamedHead, Text.after?, Option.bind_some, Option.any_eq_true,
      Option.bind_eq_some_iff, afterMark?_eq_some_iff hparen, afterMark?_eq_some_iff hequals]
    constructor
    · rintro ⟨b'', ⟨_, ⟨b, hb, rfl⟩, b', hb', rfl⟩, hb''⟩
      exact .arrow hb hb' hb''
    · intro h
      cases h with
      | arrow hb hb' hb'' => exact ⟨_, ⟨_, ⟨_, hb, rfl⟩, _, hb', rfl⟩, hb''⟩

theorem stripStart_of_blanks {b : Text} (hb : b.allBlank = true) {c : Char} (hc : isBlank c = false)
    (rest : Text) : Text.stripStart (b ++ c :: rest) = c :: rest := by
  rw [Text.stripStart_append_blanks hb]
  exact List.dropWhile_cons_of_neg (ne_true_of_eq_false hc)

theorem after?_annotationPassed_iff {t after : Text} :
    Text.after? [')'] (annotationPassed t) = some after ↔ ∃ tail, Tail tail ∧ t = tail ++ after := by
  constructor
  · intro h
    rw [Text.after?_eq_some_iff, List.singleton_append] at h
    have hblank := Text.allBlank_leadingBlanks t
    have hparts : t.leadingBlanks ++ t.stripStart = t := List.takeWhile_append_dropWhile
    by_cases hcolon : t.stripStart.head? = some ':'
    · obtain ⟨rest, hrest⟩ : ∃ rest : Text, t.stripStart = ':' :: rest :=
        List.head?_eq_some_iff.1 hcolon
      rw [annotationPassed_of_colon hrest] at h
      have hnote : rest.before ')' ++ fromMark ')' rest = rest :=
        List.takeWhile_append_dropWhile
      rw [h] at hnote
      refine ⟨_, .annotated hblank (Text.not_mem_before ')' rest), ?_⟩
      simp only [List.append_assoc, List.cons_append, List.nil_append, hnote, ← hrest, hparts]
    · rw [annotationPassed_of_ne hcolon] at h
      exact ⟨_, .plain hblank, by rw [List.append_assoc, List.singleton_append, ← h, hparts]⟩
  · rintro ⟨tail, htail, rfl⟩
    rw [Text.after?_eq_some_iff, List.singleton_append]
    cases htail with
    | plain hb =>
      have hstrip := stripStart_of_blanks hb (show isBlank ')' = false by decide) after
      rw [List.append_assoc, List.singleton_append, annotationPassed_of_ne, hstrip]
      rw [hstrip, List.head?_cons]
      decide
    | @annotated b note hb hnote =>
      have hstrip := stripStart_of_blanks hb (show isBlank ':' = false by decide)
        (note ++ ')' :: after)
      have hparts : b ++ ':' :: (note ++ [')']) ++ after =
          b ++ ':' :: (note ++ ')' :: after) := by simp
      rw [hparts, annotationPassed_of_colon hstrip, fromMark_append hnote, fromMark_cons]

theorem afterHead?_eq_some_iff {form : Form} {t after : Text} :
    afterHead? form t = some after ↔ ∃ ending, Ending form ending ∧ t = ending ++ after := by
  cases form with
  | function =>
    rw [afterHead?, after?_annotationPassed_iff]
    constructor
    · rintro ⟨tail, htail, rfl⟩
      exact ⟨tail, .function htail, rfl⟩
    · rintro ⟨ending, hending, rfl⟩
      cases hending with
      | function htail => exact ⟨ending, htail, rfl⟩
  | arrow =>
    rw [afterHead?, Option.bind_eq_bind, Option.bind_eq_some_iff]
    simp only [after?_annotationPassed_iff]
    constructor
    · rintro ⟨rest, ⟨tail, htail, rfl⟩, harrow⟩
      rw [Text.after?_eq_some_iff] at harrow
      have hparts : rest.leadingBlanks ++ rest.stripStart = rest := List.takeWhile_append_dropWhile
      refine ⟨_, .arrow htail (Text.allBlank_leadingBlanks rest), ?_⟩
      rw [List.append_assoc, List.append_assoc, ← harrow, hparts]
    · rintro ⟨ending, hending, rfl⟩
      cases hending with
      | @arrow tail b htail hb =>
        refine ⟨b ++ '=' :: '>' :: after, ⟨tail, htail, by simp⟩, ?_⟩
        rw [stripStart_of_blanks hb (by decide)]
        exact Text.after?_eq_some_iff.2 rfl

theorem isHead_iff_exists {form : Form} {name t : Text} :
    isHead form name t = true ↔ ∃ q, Qualifier q ∧ ∃ word ∈ form.keywords, ∃ gap, Gap gap ∧
      ∃ signs, Signs form signs ∧ t = q ++ (word ++ (gap ++ (name ++ signs))) := by
  simp only [isHead_iff, mem_rests_iff, isNamedHead_iff]
  constructor
  · rintro ⟨signs, ⟨q, hq, word, hword, gap, hgap, rfl⟩, hsigns⟩
    exact ⟨q, hq, word, hword, gap, hgap, signs, hsigns, rfl⟩
  · rintro ⟨q, hq, word, hword, gap, hgap, signs, hsigns, rfl⟩
    exact ⟨signs, ⟨q, hq, word, hword, gap, hgap, rfl⟩, hsigns⟩

/-! ## Occurrences are what is read -/

theorem Signs.not_mem {form : Form} {signs : Text} (h : Signs form signs) : '{' ∉ signs := by
  have hblank : ∀ b : Text, b.allBlank = true → '{' ∉ b :=
    fun b hb => Text.not_mem_of_allBlank (by decide) hb
  cases h with
  | function hb hb' => simp [hblank _ hb, hblank _ hb']
  | arrow hb hb' hb'' => simp [hblank _ hb, hblank _ hb', hblank _ hb'']

namespace Occurrence

variable {form : Form} {name : Text} (o : Occurrence form name)

def head : Text := o.word ++ (o.gap ++ (name ++ o.signs))

def inside : Text := o.raw ++ '}' :: (o.ending ++ o.after)

def text : Text := o.before ++ (o.head ++ '{' :: o.inside)

/-- The definition that occurs, with its offset in the whole text. -/
def definition : Definition where
  name := name
  form := form
  raw := o.raw
  start := o.before.length + (o.head.length + 1)

/-- The same occurrence with more text before it. -/
def behind (more : Text) : Occurrence form name := { o with before := more ++ o.before }

theorem text_behind (more : Text) : (o.behind more).text = more ++ o.text :=
  List.append_assoc more o.before _

theorem not_mem_head (hname : '{' ∉ name) : '{' ∉ o.head := by
  have hword : '{' ∉ o.word := not_mem_of_all_isNameChar
    (List.all_eq_true.1 (isNameChar_of_mem_keyword o.isKeyword)) (by decide)
  have hgap : '{' ∉ o.gap := Text.not_mem_of_allBlank (by decide) o.isGap.blank
  exact List.not_mem_append hword
    (List.not_mem_append hgap (List.not_mem_append hname o.isSigns.not_mem))

theorem read?_eq (hname : '{' ∉ name) :
    read? form (.exactly name) (o.head ++ '{' :: o.inside) =
      some { name, inside := o.inside, after := o.after } := by
  have hhead : isHead form name o.head = true :=
    isHead_iff_exists.2 ⟨[], .none, o.word, o.isKeyword, o.gap, o.isGap, o.signs, o.isSigns, rfl⟩
  have hcloses : closes? form o.inside = some o.after := by
    rw [inside, closes?_append form o.free]
    exact afterHead?_eq_some_iff.2 ⟨o.ending, o.isEnding, rfl⟩
  rw [read?_exactly_append form (o.not_mem_head hname) _ hname, if_pos hhead, hcloses]
  rfl

theorem ofReading_eq (before : Text) :
    ofReading form before.length o.text { name, inside := o.inside, after := o.after } =
      (o.behind before).definition := by
  rw [ofReading, inside, raw_append o.free, definition]
  congr 1
  simp only [text, inside, behind, head, List.length_append, List.length_cons]
  omega

end Occurrence

theorem exists_occurrence_of_read? {form : Form} {name s : Text} {r : Reading} (hname : '{' ∉ name)
    (h : read? form (.exactly name) s = some r) :
    ∃ o : Occurrence form name, Qualifier o.before ∧ o.text = s ∧
      r = { name, inside := o.inside, after := o.after } := by
  have hopen : '{' ∈ s := by
    by_contra hnot
    rw [read?_eq_none_of_not_mem form _ hnot] at h
    cases h
  obtain ⟨front, inside, rfl, hfree⟩ := List.eq_append_cons_of_mem hopen
  rw [read?_exactly_append form hfree _ hname] at h
  split at h
  · rename_i hhead
    obtain ⟨after, hcloses, rfl⟩ := Option.map_eq_some_iff.1 h
    obtain ⟨q, hq, word, hword, gap, hgap, signs, hsigns, rfl⟩ := isHead_iff_exists.1 hhead
    obtain ⟨raw, closed, rfl, hraw⟩ := List.eq_append_cons_of_mem (mem_of_closes? hcloses)
    rw [closes?_append form hraw] at hcloses
    obtain ⟨ending, hending, rfl⟩ := afterHead?_eq_some_iff.1 hcloses
    refine ⟨⟨q, word, gap, signs, raw, ending, after, hword, hgap, hsigns, hraw, hending⟩, hq, ?_, rfl⟩
    simp only [Occurrence.text, Occurrence.head, Occurrence.inside, List.append_assoc]
  · cases h


/-! ## The first occurrence -/

theorem Skips.read?_eq_none {form : Form} {pattern : NamePattern} {before s t : Text}
    (h : Skips form pattern before s) (ht : t <:+ before) (hne : t ≠ []) :
    read? form pattern (t ++ s) = none := by
  obtain ⟨front, rfl⟩ := ht
  obtain ⟨c, rest, rfl⟩ := List.exists_cons_of_ne_nil hne
  exact (skips_append.1 h).2.1

/-- A suffix of a word and its blanks begins inside the word, or with a blank, or behind both. -/
theorem takeWhile_of_suffix {word b more v : Text} (hword : word.all isNameChar = true) (hb : Gap b)
    (h : v <:+ word ++ (b ++ more)) (rest : Text) :
    v <:+ more ∨ (v ++ rest).takeWhile isNameChar <:+ word := by
  have hblank : ∀ w : Text, w <:+ b → w ≠ [] → ∀ s : Text, (w ++ s).takeWhile isNameChar = [] := by
    intro w hw hne s
    obtain ⟨c, w, rfl⟩ := List.exists_cons_of_ne_nil hne
    have hc : isBlank c = true := List.all_eq_true.1 hb.blank c (hw.subset List.mem_cons_self)
    exact List.takeWhile_cons_of_neg (ne_true_of_eq_false (isNameChar_eq_false_of_isBlank hc))
  obtain ⟨u, hu⟩ := h
  rcases List.append_eq_append_iff.1 hu with ⟨w, rfl, rfl⟩ | ⟨w, rfl, hw⟩
  · right
    have hw : ∀ c ∈ w, isNameChar c = true :=
      fun c hc => List.all_eq_true.1 hword c (List.mem_append_right u hc)
    rw [List.append_assoc, List.takeWhile_append_of_pos hw, List.append_assoc,
      hblank b List.suffix_rfl hb.nonempty, List.append_nil]
    exact List.suffix_append u w
  · rcases List.append_eq_append_iff.1 hw with ⟨w', rfl, rfl⟩ | ⟨w', rfl, rfl⟩
    · exact Or.inl (List.suffix_append w' v)
    · by_cases hnil : w' = []
      · subst hnil
        exact Or.inl List.suffix_rfl
      · right
        rw [List.append_assoc, hblank w' (List.suffix_append w w') hnil]
        exact List.nil_suffix

/-- No keyword begins inside a qualifier. -/
theorem Qualifier.takeWhile_not_mem {q v : Text} (hq : Qualifier q) (hv : v <:+ q) (hne : v ≠ [])
    (form : Form) (rest : Text) : (v ++ rest).takeWhile isNameChar ∉ form.keywords := by
  have hexport : ∀ w : Text, w <:+ "export".toList → w ∉ form.keywords := by
    simp only [← List.mem_tails]
    cases form <;> decide
  have hdefault : ∀ w : Text, w <:+ "default".toList → w ∉ form.keywords := by
    simp only [← List.mem_tails]
    cases form <;> decide
  cases hq with
  | none => exact absurd (List.suffix_nil.1 hv) hne
  | exported hb =>
    rw [← List.append_nil (_ ++ _), List.append_assoc] at hv
    rcases takeWhile_of_suffix (by decide) hb hv rest with hnil | hword
    · exact absurd (List.suffix_nil.1 hnil) hne
    · exact hexport _ hword
  | default hb hb' =>
    rcases takeWhile_of_suffix (by decide) hb hv rest with hv | hword
    · rw [← List.append_nil (_ ++ _), List.append_assoc] at hv
      rcases takeWhile_of_suffix (by decide) hb' hv rest with hnil | hword
      · exact absurd (List.suffix_nil.1 hnil) hne
      · exact hdefault _ hword
    · exact hexport _ hword

namespace Occurrence

variable {form : Form} {name t : Text}

theorem takeWhile_head (o : Occurrence form name) (rest : Text) :
    (o.head ++ rest).takeWhile isNameChar = o.word := by
  obtain ⟨c, gap, hgap⟩ := List.exists_cons_of_ne_nil o.isGap.nonempty
  have hc : isBlank c = true :=
    List.all_eq_true.1 o.isGap.blank c (hgap ▸ List.mem_cons_self)
  rw [head, hgap, List.append_assoc,
    List.takeWhile_append_of_pos (List.all_eq_true.1 (isNameChar_of_mem_keyword o.isKeyword)),
    List.cons_append, List.cons_append,
    List.takeWhile_cons_of_neg (ne_true_of_eq_false (isNameChar_eq_false_of_isBlank hc)),
    List.append_nil]

/-- It is an occurrence in the text, and none has its keyword further left. -/
structure IsFirst (o : Occurrence form name) (t : Text) : Prop where
  text_eq : o.text = t
  le : ∀ o' : Occurrence form name, o'.text = t → o.before.length ≤ o'.before.length

/-- The part of the text from the keyword on decides what the definition is. -/
theorem definition_eq_of_before_eq (hname : '{' ∉ name) {o o' : Occurrence form name}
    (htext : o.text = o'.text) (hbefore : o.before = o'.before) : o.definition = o'.definition := by
  have hrest : o.head ++ '{' :: o.inside = o'.head ++ '{' :: o'.inside := by
    rw [text, text, hbefore] at htext
    exact List.append_cancel_left htext
  have hread := o.read?_eq hname
  rw [hrest, o'.read?_eq hname, Option.some.injEq, Reading.mk.injEq] at hread
  obtain ⟨-, hinside, -⟩ := hread
  have hraw : o.raw = o'.raw := by
    have hparts := raw_append o.free name (o.ending ++ o.after) []
    rw [show o.raw ++ '}' :: (o.ending ++ o.after) = o.inside from rfl, ← hinside] at hparts
    exact hparts.symm.trans (raw_append o'.free name (o'.ending ++ o'.after) [])
  have hhead : o.head.length = o'.head.length := by
    have hlength := congrArg List.length hrest
    simp only [hinside, List.length_append, List.length_cons] at hlength
    omega
  rw [definition, definition, hraw, hhead, hbefore]

end Occurrence

section

variable {form : Form} {name t : Text}

theorem scan_eq_nil_iff_no_occurrence (hname : '{' ∉ name) :
    scan form (.exactly name) t = [] ↔ ∀ o : Occurrence form name, o.text ≠ t := by
  rw [scan_eq_nil_iff]
  constructor
  · rintro hskips o rfl
    have hnone := hskips.read?_eq_none (List.suffix_append o.before _) (by simp)
    rw [List.append_nil, o.read?_eq hname] at hnone
    cases hnone
  · intro hall
    refine skips_of_forall fun s ⟨before, hs⟩ _ => ?_
    rw [List.append_nil]
    by_contra hread
    obtain ⟨r, hr⟩ := Option.ne_none_iff_exists'.1 hread
    obtain ⟨o, -, rfl, -⟩ := exists_occurrence_of_read? hname hr
    exact hall (o.behind before) ((o.text_behind before).trans hs)

/-- An occurrence has its keyword no further left than one that is read behind what was skipped: a start
in what was skipped is read as nothing, and inside a qualifier there is no keyword. -/
theorem Occurrence.length_le_of_skips (hname : '{' ∉ name) {before : Text}
    {o o' : Occurrence form name} (hq : Qualifier o.before)
    (hskips : Skips form (.exactly name) before o.text) (ho' : o'.text = before ++ o.text) :
    (before ++ o.before).length ≤ o'.before.length := by
  by_contra hlt
  have hparts : o'.before ++ (o'.head ++ '{' :: o'.inside) =
      before ++ o.before ++ (o.head ++ '{' :: o.inside) := by
    rw [List.append_assoc]
    exact ho'
  obtain ⟨v, hfront, hrest, hne⟩ : ∃ v, before ++ o.before = o'.before ++ v ∧
      o'.head ++ '{' :: o'.inside = v ++ (o.head ++ '{' :: o.inside) ∧ v ≠ [] := by
    rcases List.append_eq_append_iff.1 hparts with ⟨v, hfront, hrest⟩ | ⟨v, hfront, -⟩
    · refine ⟨v, hfront, hrest, ?_⟩
      rintro rfl
      exact hlt (by rw [hfront, List.append_nil])
    · exact absurd (hfront ▸ List.prefix_append _ v).length_le hlt
  -- What stands between the two keywords is `v`: it lies in the qualifier, or reaches in front of it.
  have hword : ¬ v <:+ o.before := fun hv =>
    hq.takeWhile_not_mem hv hne form (o.head ++ '{' :: o.inside)
      (hrest ▸ (o'.takeWhile_head _).symm ▸ o'.isKeyword)
  rcases List.append_eq_append_iff.1 hfront with ⟨u, -, hu⟩ | ⟨u, rfl, rfl⟩
  · exact hword (hu ▸ List.suffix_append u v)
  · have hu : u ≠ [] := by
      rintro rfl
      exact hword List.suffix_rfl
    have hnone := hskips.read?_eq_none (List.suffix_append o'.before u) hu
    rw [text, ← List.append_assoc, ← hrest, o'.read?_eq hname] at hnone
    cases hnone

theorem exists_isFirst_of_head?_scan (hname : '{' ∉ name) {d : Definition}
    (h : (scan form (.exactly name) t).head? = some d) :
    ∃ o : Occurrence form name, o.IsFirst t ∧ o.definition = d := by
  obtain ⟨before, s, r, rfl, hskips, hr, rfl⟩ := head?_scan_eq_some_iff.1 h
  obtain ⟨o, hq, rfl, rfl⟩ := exists_occurrence_of_read? hname hr
  exact ⟨o.behind before,
    ⟨o.text_behind before, fun o' ho' => Occurrence.length_le_of_skips hname hq hskips ho'⟩,
    (o.ofReading_eq before).symm⟩

/-- The first definition of a form that is found is the first occurrence of that form. -/
theorem head?_scan_eq_some_iff_isFirst (hname : '{' ∉ name) {d : Definition} :
    (scan form (.exactly name) t).head? = some d ↔
      ∃ o : Occurrence form name, o.IsFirst t ∧ o.definition = d := by
  refine ⟨exists_isFirst_of_head?_scan hname, ?_⟩
  rintro ⟨o, hfirst, rfl⟩
  cases hscan : (scan form (.exactly name) t).head? with
  | none =>
    have hnone := (scan_eq_nil_iff_no_occurrence hname).1 (List.head?_eq_none_iff.1 hscan)
    exact absurd hfirst.text_eq (hnone o)
  | some d =>
    obtain ⟨o', hfirst', rfl⟩ := exists_isFirst_of_head?_scan hname hscan
    have hlength := Nat.le_antisymm (hfirst.le o' hfirst'.text_eq) (hfirst'.le o hfirst.text_eq)
    have htext : o'.text = o.text := hfirst'.text_eq.trans hfirst.text_eq.symm
    rw [Occurrence.definition_eq_of_before_eq hname htext
      (List.append_inj_left htext hlength.symm)]

end

/-- The offsets of a definition that occurs are those of the text between its braces. -/
theorem Occurrence.slices {form : Form} {name : Text} (o : Occurrence form name) :
    0 < o.definition.start ∧ o.text[o.definition.start - 1]? = some '{' ∧
      (o.text.drop o.definition.start).take (o.definition.stop - o.definition.start) =
        o.definition.raw ∧ o.text[o.definition.stop]? = some '}' := by
  have htext : o.text =
      (o.before ++ o.head) ++ ['{'] ++ (o.raw ++ '}' :: (o.ending ++ o.after)) := by
    simp only [text, inside, List.append_assoc, List.singleton_append]
  have hstart : o.definition.start = (o.before ++ o.head ++ ['{']).length := by
    simp only [definition, List.length_append, List.length_cons, List.length_nil, Nat.add_assoc]
  have hlength : o.definition.stop - o.definition.start = o.raw.length := Nat.add_sub_cancel_left ..
  have hstop : o.definition.stop = (o.before ++ o.head ++ ['{'] ++ o.raw).length := by
    rw [List.length_append, ← hstart]
    rfl
  refine ⟨?_, ?_, ?_, ?_⟩
  · rw [hstart, List.length_append]
    exact Nat.succ_pos _
  · rw [hstart, htext, List.length_append, List.length_singleton, Nat.add_sub_cancel,
      List.append_assoc _ ['{'], List.getElem?_append_right (Nat.le_refl _), Nat.sub_self]
    rfl
  · rw [hlength, hstart, htext, List.drop_left, List.take_left]
    rfl
  · rw [hstop, htext, ← List.append_assoc, List.getElem?_append_right (Nat.le_refl _), Nat.sub_self]
    rfl

end Definition

/-- A text has a definition of a component exactly if one occurs in it. The definition that is found is
the first function occurrence by the place of its keyword, or else the first arrow occurrence, and its
offsets are those of the text between its braces. -/
theorem Definition.found_is_first_occurrence {name : Text} (hname : isComponentName name = true)
    (t : Text) :
    (Scanner.lexical.findDefinition? t name = none ↔
      ∀ (form : Form) (o : Occurrence form name), o.text ≠ t) ∧
    (∀ d, Scanner.lexical.findDefinition? t name = some d ↔
      ∃ (form : Form) (o : Occurrence form name), o.IsFirst t ∧ o.definition = d ∧
        (form = .arrow → ∀ o' : Occurrence .function name, o'.text ≠ t)) ∧
    ∀ d, Scanner.lexical.findDefinition? t name = some d →
      0 < d.start ∧ t[d.start - 1]? = some '{' ∧
        (t.drop d.start).take (d.stop - d.start) = d.raw ∧ t[d.stop]? = some '}' := by
  have hfree : '{' ∉ name := not_mem_of_isComponentName hname (by decide)
  have hsome : ∀ d, find? t name = some d ↔
      ∃ (form : Form) (o : Occurrence form name), o.IsFirst t ∧ o.definition = d ∧
        (form = .arrow → ∀ o' : Occurrence .function name, o'.text ≠ t) := by
    intro d
    constructor
    · intro h
      rcases cases_of_find? h with hfunction | ⟨hnil, harrow⟩
      · obtain ⟨o, hfirst, heq⟩ := (head?_scan_eq_some_iff_isFirst hfree).1 hfunction
        exact ⟨.function, o, hfirst, heq, nofun⟩
      · obtain ⟨o, hfirst, heq⟩ := (head?_scan_eq_some_iff_isFirst hfree).1 harrow
        exact ⟨.arrow, o, hfirst, heq, fun _ => (scan_eq_nil_iff_no_occurrence hfree).1 hnil⟩
    · rintro ⟨form, o, hfirst, heq, hpreferred⟩
      have hscan := (head?_scan_eq_some_iff_isFirst hfree).2 ⟨o, hfirst, heq⟩
      cases form with
      | function =>
        rw [find?, hscan]
        rfl
      | arrow =>
        rw [find?, (scan_eq_nil_iff_no_occurrence hfree).2 (hpreferred rfl), hscan]
        rfl
  refine ⟨?_, hsome, ?_⟩
  · refine find?_eq_none_iff.trans ?_
    simp only [scan_eq_nil_iff_no_occurrence hfree]
    constructor
    · rintro ⟨hfunction, harrow⟩ form
      cases form with
      | function => exact hfunction
      | arrow => exact harrow
    · exact fun h => ⟨h .function, h .arrow⟩
  · intro d hd
    obtain ⟨form, o, hfirst, rfl, -⟩ := (hsome d).1 hd
    rw [← hfirst.text_eq]
    exact o.slices

/-- The arrow stands first, and the first start of a function fails at its empty parameter list. What is
found is the function behind its qualifier, the first brace inside its parameter list being text. -/
theorem Definition.found_is_first_occurrence_of_three_starts :
    let t := ("const Card = ({ a }) => 1; function Card() {}\n".toList ++
      "export default function Card ( \x7b b = \x7b, c \x7d : Props) \x7b\x7d".toList)
    isComponentName "Card".toList = true ∧
      ∃ d, Scanner.lexical.findDefinition? t "Card".toList = some d ∧
        d.raw = " b = \x7b, c ".toList ∧
        (∃ (form : Form) (o : Occurrence form "Card".toList), o.IsFirst t ∧ o.definition = d) ∧
        t[d.start - 1]? = some '{' ∧ t[d.stop]? = some '}' := by
  intro t
  have hname : isComponentName "Card".toList = true := by decide
  obtain ⟨-, hsome, hslices⟩ := Definition.found_is_first_occurrence hname t
  have hraw : (Scanner.lexical.findDefinition? t "Card".toList).map Definition.raw =
      some " b = \x7b, c ".toList := by decide +kernel
  obtain ⟨d, hd, hd'⟩ := Option.map_eq_some_iff.1 hraw
  obtain ⟨form, o, hfirst, heq, -⟩ := (hsome d).1 hd
  obtain ⟨-, hopen, -, hclose⟩ := hslices d hd
  exact ⟨hname, d, hd, hd', ⟨form, o, hfirst, heq⟩, hopen, hclose⟩

end PropAccord
