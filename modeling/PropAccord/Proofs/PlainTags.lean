import PropAccord.Proofs.KeptTags
import PropAccord.Proofs.TagLookup

/-!
# Plain tags

A plain tag has attributes that stand apart, each written by its name alone or with a value in double
quotes or braces, and no value holds a mark of the syntax. Here the reading can be compared with what
was written. A tag is found that takes up the whole text; every attribute with a value is read on its
own, whatever stands beside it, and an attribute without one is not read, since it has no equals sign.
A name that is an identifier is read as it stands. A name may also have hyphens, at which words end; what
is read then is a part of the name at most.
-/

namespace PropAccord

set_option autoImplicit false

namespace Attribute

/-! ## What stands before an attribute -/

variable {previous previous' : Option Char}

/-- Of the character before a text it matters only whether it belongs to a word. -/
theorem read?_congr (h : previous.any isWordChar = previous'.any isWordChar) (t : Text) :
    read? previous t = read? previous' t := by
  cases t with
  | nil => rfl
  | cons c t => rw [read?, read?, isBoundary, isBoundary, h]

theorem occurrences_congr (h : previous.any isWordChar = previous'.any isWordChar) (t : Text) :
    occurrences previous t = occurrences previous' t := by
  cases t with
  | nil => rw [occurrences_nil, occurrences_nil]
  | cons c t =>
    cases hread : read? previous (c :: t) with
    | none =>
      rw [occurrences_of_read?_eq_none hread,
        occurrences_of_read?_eq_none (read?_congr h (c :: t) ▸ hread)]
    | some found =>
      rw [occurrences_of_read? hread, occurrences_of_read? (read?_congr h (c :: t) ▸ hread)]

/-- Both sides of a seam are read on their own, and what stands before the second one is of no
matter. -/
theorem occurrences_append_of_seam {t : Text} (ht : Seam t) (previous previous' : Option Char)
    (s : Text) : occurrences previous (s ++ t) = occurrences previous s ++ occurrences previous' t := by
  cases t with
  | nil => rw [occurrences_nil, List.append_nil, List.append_nil]
  | cons c t =>
    rw [occurrences_append ht, occurrences_of_read?_eq_none (read?_of_not_isNameChar ht.1 previous' t)]

theorem occurrences_blanks_append {gap : Text} (hne : gap ≠ []) (hblank : gap.allBlank = true)
    (previous : Option Char) (t : Text) : occurrences previous (gap ++ t) = occurrences none t := by
  induction gap generalizing previous with
  | nil => exact absurd rfl hne
  | cons c gap ih =>
    obtain ⟨hc, hgap⟩ := Bool.and_eq_true_iff.1 hblank
    have hname := isNameChar_eq_false_of_isBlank hc
    rw [List.cons_append, occurrences_of_read?_eq_none (read?_of_not_isNameChar hname previous _)]
    cases gap with
    | nil =>
      have hword : (some c).any isWordChar = (none : Option Char).any isWordChar :=
        not_isWordChar_of_isBlank hc
      exact occurrences_congr hword t
    | cons d gap => exact ih (List.cons_ne_nil d gap) hgap (some c)

/-! ## Attributes as they are written -/

/-- The marks that no value of a plain attribute holds. -/
def isMark (c : Char) : Bool := List.contains ['<', '>', '=', '/', '"', '\x27', '{', '}'] c

/-- A name as it may be written in a tag: an identifier in which hyphens may stand. -/
def isWrittenName : Text → Bool
  | [] => false
  | c :: rest => (c.isAlpha || c == '_') && rest.all fun d => isNameChar d || d == '-'

/-- What a value stands between. -/
inductive Enclosure where
  | quotes
  | braces

namespace Enclosure

def first : Enclosure → Char
  | quotes => '"'
  | braces => '{'

def last : Enclosure → Char
  | quotes => '"'
  | braces => '}'

end Enclosure

/-- An attribute of a plain tag, with the blanks before it. -/
structure Plain where
  gap : Text
  name : Text
  value : Option (Enclosure × Text)
  gap_ne_nil : gap ≠ [] := by decide
  gap_blank : gap.allBlank = true := by decide
  name_written : isWrittenName name = true := by decide
  value_plain : (value.any fun (_, t) => t.any isMark) = false := by decide

/-- A value with the equals sign before it. -/
def valueText : Option (Enclosure × Text) → Text
  | none => []
  | some (e, t) => '=' :: e.first :: (t ++ [e.last])

namespace Plain

def text (a : Plain) : Text := a.gap ++ (a.name ++ valueText a.value)

/-- The name, if it is given a value. -/
def given (a : Plain) : List Text := if a.value.isSome then [a.name] else []

end Plain

theorem not_mem_of_any_isMark {value : Text} (h : value.any isMark = false) {c : Char}
    (hc : isMark c = true) : c ∉ value := by
  intro hmem
  rw [List.any_eq_true.2 ⟨c, hmem, hc⟩] at h
  cases h

theorem isIdentifier_of_isWrittenName {name : Text} (h : isWrittenName name = true)
    (hyphen : '-' ∉ name) : isIdentifier name = true := by
  cases name with
  | nil => cases h
  | cons c rest =>
    rw [isWrittenName, Bool.and_eq_true, List.all_eq_true] at h
    rw [isIdentifier, h.1, Bool.true_and, List.all_eq_true]
    intro d hd
    rcases Bool.or_eq_true_iff.1 (h.2 d hd) with hd' | hd'
    · exact hd'
    · exact absurd (List.mem_cons_of_mem c (eq_of_beq hd' ▸ hd)) hyphen

theorem exists_cons_of_isWrittenName {name : Text} (h : isWrittenName name = true) :
    ∃ c rest, name = c :: rest ∧ isNameChar c = true := by
  cases name with
  | nil => cases h
  | cons c rest => exact ⟨c, rest, rfl, isNameChar_of_starts (Bool.and_eq_true_iff.1 h).1⟩

theorem isNameChar_or_hyphen {name : Text} (h : isWrittenName name = true) :
    ∀ c ∈ name, isNameChar c = true ∨ c = '-' := by
  cases name with
  | nil => cases h
  | cons c rest =>
    rw [isWrittenName, Bool.and_eq_true, List.all_eq_true] at h
    intro d hd
    rcases List.mem_cons.1 hd with rfl | hd
    · exact Or.inl (isNameChar_of_starts h.1)
    · exact (Bool.or_eq_true_iff.1 (h.2 d hd)).imp_right eq_of_beq

theorem not_mem_writtenName {name : Text} (h : isWrittenName name = true) {c : Char}
    (hname : isNameChar c = false) (hyphen : c ≠ '-') : c ∉ name := by
  intro hmem
  rcases isNameChar_or_hyphen h c hmem with hc | hc
  · rw [hc] at hname
    cases hname
  · exact hyphen hc

/-- Nothing is read of a value, since its marks keep it apart from the equals sign. -/
theorem occurrences_value (e : Enclosure) {name value : Text} (hvalue : value.any isMark = false)
    (previous : Option Char) :
    occurrences previous (name ++ '=' :: e.first :: (value ++ [e.last])) =
      occurrences previous (name ++ ['=']) := by
  have hmarks : isNameChar e.first = false ∧ isBlank e.first = false ∧ e.first ≠ '=' ∧
      e.last ≠ '=' := by cases e <;> decide
  obtain ⟨hname, hblank, hfirst, hlast⟩ := hmarks
  have hequals : '=' ∉ value := not_mem_of_any_isMark hvalue (by decide)
  have hnone : '=' ∉ e.first :: (value ++ [e.last]) := by
    simp [hfirst.symm, hlast.symm, hequals]
  rw [List.append_cons, occurrences_append_of_seam (seam_of_mark hname hblank hfirst _) previous none,
    occurrences_eq_nil hnone, List.append_nil]

/-- A plain attribute is read for its name alone, and only if it has a value. -/
theorem Plain.occurrences_text (a : Plain) (previous : Option Char) :
    occurrences previous a.text = a.given.flatMap fun name => occurrences none (name ++ ['=']) := by
  obtain ⟨gap, name, value, hne, hblank, hname, hvalue⟩ := a
  simp only [Plain.text, occurrences_blanks_append hne hblank]
  cases value with
  | none =>
    have hnone : '=' ∉ name := not_mem_writtenName hname (by decide) (by decide)
    rw [valueText, List.append_nil, occurrences_eq_nil hnone]
    rfl
  | some value =>
    rw [valueText, occurrences_value value.1 hvalue]
    exact (List.flatMap_singleton _ _).symm

theorem occurrences_of_identifier {name : Text} (hname : isIdentifier name = true) :
    occurrences none (name ++ ['=']) = [name] := by
  have hspace : (none : Option Char).any isWordChar = (some ' ').any isWordChar := by decide
  rw [occurrences_congr hspace, occurrences_identifier hname (by decide), occurrences_nil]

/-- No end mark stands in an attribute. -/
theorem Plain.not_mem_text (a : Plain) {c : Char} (hc : c = '>' ∨ c = '/') : c ∉ a.text := by
  have hgap : c ∉ a.gap := Text.not_mem_of_allBlank (by rcases hc with rfl | rfl <;> decide) a.gap_blank
  have hname : c ∉ a.name := not_mem_writtenName a.name_written
    (by rcases hc with rfl | rfl <;> decide) (by rcases hc with rfl | rfl <;> decide)
  have hvalue : c ∉ valueText a.value := by
    cases hv : a.value with
    | none => exact List.not_mem_nil
    | some value =>
      have hplain := a.value_plain
      rw [hv, Option.any_some] at hplain
      have hinner : c ∉ value.2 :=
        not_mem_of_any_isMark hplain (by rcases hc with rfl | rfl <;> decide)
      have hmarks : c ≠ '=' ∧ c ≠ value.1.first ∧ c ≠ value.1.last := by
        cases value.1 <;> rcases hc with rfl | rfl <;> decide
      simp [valueText, hinner, hmarks]
  simp only [Plain.text, List.mem_append, not_or]
  exact ⟨hgap, hname, hvalue⟩

end Attribute

namespace Tag

/-- A tag with plain attributes and blanks before its end mark. -/
structure Plain where
  component : Text
  attributes : List Attribute.Plain
  blanks : Text
  closed : Bool
  component_valid : isComponentName component = true := by decide
  blanks_blank : blanks.allBlank = true := by decide

namespace Plain

variable (t : Plain)

/-- What stands between the name and the end mark. -/
def region : Text := t.attributes.flatMap Attribute.Plain.text ++ t.blanks

def text : Text :=
  '<' :: (t.component ++ (t.region ++ if t.closed then ['/', '>'] else ['>']))

/-- The names that are given a value, in order. -/
def given : List Text := t.attributes.flatMap Attribute.Plain.given

end Plain

open Attribute (Seam occurrences)

section Region

variable {blanks : Text} (hblanks : blanks.allBlank = true) (attributes : List Attribute.Plain)
include hblanks

theorem isBlank_of_mem_head?_region {c : Char}
    (h : c ∈ (attributes.flatMap Attribute.Plain.text ++ blanks).head?) : isBlank c = true := by
  cases attributes with
  | nil =>
    rw [List.flatMap_nil, List.nil_append] at h
    exact List.all_eq_true.1 hblanks c (List.mem_of_mem_head? h)
  | cons a rest =>
    obtain ⟨d, gap, hgap⟩ := List.exists_cons_of_ne_nil a.gap_ne_nil
    have hd : isBlank d = true := List.all_eq_true.1 a.gap_blank d (hgap ▸ List.mem_cons_self)
    rw [List.flatMap_cons, Attribute.Plain.text, hgap] at h
    exact Option.mem_some.1 h ▸ hd

/-- Blanks stand first, and behind them a name or nothing. -/
theorem seam_region : Seam (attributes.flatMap Attribute.Plain.text ++ blanks) := by
  refine ⟨(Option.any_eq_false _ _).2 fun c hc =>
    isNameChar_eq_false_of_isBlank (isBlank_of_mem_head?_region hblanks attributes hc), ?_⟩
  cases attributes with
  | nil =>
    rw [List.flatMap_nil, List.nil_append, List.dropWhile_eq_nil_iff.2 (List.all_eq_true.1 hblanks)]
    exact nofun
  | cons a rest =>
    obtain ⟨c, name, hname, hc⟩ := Attribute.exists_cons_of_isWrittenName a.name_written
    rw [List.flatMap_cons, Attribute.Plain.text, List.append_assoc, List.append_assoc,
      List.dropWhile_append_of_pos (List.all_eq_true.1 a.gap_blank), hname, List.cons_append,
      List.cons_append, List.dropWhile_cons_of_neg (by rw [not_isBlank_of_isNameChar hc]; exact nofun)]
    intro heq
    rw [Option.some.inj heq] at hc
    cases hc

/-- Each attribute is read on its own. -/
theorem occurrences_region (previous : Option Char) :
    occurrences previous (attributes.flatMap Attribute.Plain.text ++ blanks) =
      (attributes.flatMap Attribute.Plain.given).flatMap fun name => occurrences none (name ++ ['=']) := by
  induction attributes generalizing previous with
  | nil => exact Attribute.occurrences_eq_nil (Text.not_mem_of_allBlank (by decide) hblanks) previous
  | cons a rest ih =>
    rw [List.flatMap_cons, List.append_assoc,
      Attribute.occurrences_append_of_seam (seam_region hblanks rest) previous none,
      a.occurrences_text, ih none, List.flatMap_cons, List.flatMap_append]

end Region

namespace Plain

variable (t : Plain)

theorem not_mem_region {c : Char} (hc : c = '>' ∨ c = '/') : c ∉ t.region := by
  have hblank : isBlank c = false := by rcases hc with rfl | rfl <;> decide
  simp only [region, List.mem_append, List.mem_flatMap, not_or, not_exists, not_and]
  exact ⟨fun a _ => a.not_mem_text hc, Text.not_mem_of_allBlank hblank t.blanks_blank⟩

theorem closing?_region :
    closing? (t.region ++ if t.closed then ['/', '>'] else ['>']) = some (t.region, t.closed, []) := by
  have hend : '>' ∉ t.region := t.not_mem_region (Or.inl rfl)
  have hslash : '/' ∉ t.region := t.not_mem_region (Or.inr rfl)
  cases t.closed with
  | true =>
    have hbody : '>' ∉ t.region ++ ['/'] := by simp [hend]
    have hclosing := closing?_append hbody []
    rw [List.append_assoc] at hclosing
    simpa [stem, slashed] using hclosing
  | false =>
    have hlast : slashed t.region = false :=
      decide_eq_false fun h => hslash (List.mem_of_getLast? h)
    have hclosing := closing?_append hend []
    rwa [stem, hlast] at hclosing

/-- The whole text is read as one tag. -/
theorem read?_text : Tag.read? (.exactly t.component) t.text =
    some ⟨t.component, t.region, t.closed, []⟩ := by
  refine read?_eq_some_iff.2 ⟨_, _, rfl, ?_, ?_, t.closing?_region⟩
  · rw [NamePattern.read?, Text.after?_eq_some_iff.2 rfl]
    rfl
  · rw [isBoundary_after_componentName t.component_valid, Bool.not_eq_true', Option.any_eq_false]
    intro c hc
    by_cases hregion : t.region = []
    · rw [hregion] at hc
      revert hc
      cases t.closed <;> rintro ⟨⟩ <;> decide
    · rw [List.head?_append_of_ne_nil _ hregion] at hc
      exact not_isWordChar_of_isBlank (isBlank_of_mem_head?_region t.blanks_blank t.attributes hc)

theorem scan_text {pattern : NamePattern}
    (h : Tag.read? pattern t.text = some ⟨t.component, t.region, t.closed, []⟩) :
    scan pattern t.text = [Reading.tag ⟨t.component, t.region, t.closed, []⟩ 0] := by
  rw [scan, text, scanFrom_of_read? 0 h, scanFrom_nil]

theorem length_text :
    t.text.length = 1 + t.component.length + t.region.length + if t.closed then 2 else 1 := by
  rw [text]
  cases t.closed <;> simp <;> omega

theorem names_region : Attribute.names t.region =
    (t.given.flatMap fun name => occurrences none (name ++ ['='])).eraseDups := by
  rw [Attribute.names, region, occurrences_region t.blanks_blank t.attributes, given]

/-- The text has a usage unless no attribute is read. -/
theorem usages_text : Scanner.lexical.usages t.text =
    if Attribute.names t.region = [] then [] else [⟨t.component, Attribute.names t.region⟩] := by
  have hread : Tag.read? .anyComponent t.text =
      some ⟨t.component, t.region, t.closed, []⟩ :=
    read?_anyComponent_iff.2 ⟨t.component_valid, t.read?_text⟩
  change ((scan .anyComponent t.text).filter _).map _ = _
  rw [t.scan_text hread, List.filter_singleton]
  cases hnames : Attribute.names t.region with
  | nil => simp [Reading.tag, hnames]
  | cons name names => simp [Reading.tag, hnames]

theorem isWrittenName_of_mem_given {name : Text} (h : name ∈ t.given) :
    Attribute.isWrittenName name = true := by
  obtain ⟨a, -, ha⟩ := List.mem_flatMap.1 h
  rw [Attribute.Plain.given] at ha
  split at ha
  · exact List.mem_singleton.1 ha ▸ a.name_written
  · cases ha

variable {t}

theorem occurrences_of_mem_given {name : Text} (h : name ∈ t.given) (hyphen : '-' ∉ name) :
    occurrences none (name ++ ['=']) = [name] :=
  Attribute.occurrences_of_identifier
    (Attribute.isIdentifier_of_isWrittenName (t.isWrittenName_of_mem_given h) hyphen)

/-- Names without hyphens are read as they are given. -/
theorem names_region_of_identifiers (h : ∀ name ∈ t.given, '-' ∉ name) :
    Attribute.names t.region = t.given.eraseDups := by
  have hnames : (t.given.flatMap fun name => occurrences none (name ++ ['='])) = t.given := by
    rw [List.flatMap_congr fun name hname => occurrences_of_mem_given hname (h name hname)]
    exact List.flatMap_singleton' t.given
  rw [names_region, hnames]

variable (t)

/-- A plain tag is found as the one tag of its text. The names that are given a value are read each on
its own; one without a hyphen is read as it stands and so is never missing. If none has a hyphen, the
attributes are the given names, the missing props are those that are not given, and a usage reports
no others. -/
theorem found_as_given :
    ∃ tag, Scanner.lexical.findTags t.text t.component = [tag] ∧
      tag.component = t.component ∧ tag.start = 0 ∧ tag.stop = t.text.length ∧
      tag.selfClosing = t.closed ∧
      tag.insertAt + (if t.closed then 2 else 1) = t.text.length ∧
      tag.attributes = (t.given.flatMap fun name => occurrences none (name ++ ['='])).eraseDups ∧
      (∀ name ∈ t.given, '-' ∉ name → ∀ wanted, name ∉ tag.missing wanted) ∧
      Scanner.lexical.usages t.text =
        (if tag.attributes = [] then [] else [⟨t.component, tag.attributes⟩]) ∧
      ((∀ name ∈ t.given, '-' ∉ name) → tag.attributes = t.given.eraseDups ∧
        (∀ wanted, tag.missing wanted = Props.missing t.given wanted) ∧
        ∀ usage ∈ Scanner.lexical.usages t.text, ∀ prop ∈ usage.props, prop ∈ t.given) := by
  refine ⟨Reading.tag ⟨t.component, t.region, t.closed, []⟩ 0, t.scan_text t.read?_text, rfl, rfl, ?_,
    rfl, ?_, t.names_region, ?_,
    t.usages_text, ?_⟩
  · rw [t.length_text]
    exact Nat.zero_add _
  · rw [t.length_text]
    simp only [Reading.tag, Nat.zero_add]
  · intro name hname hyphen wanted hmissing
    have hfound : name ∈ Attribute.names t.region := by
      rw [t.names_region, List.mem_eraseDups]
      exact List.mem_flatMap.2 ⟨name, hname, by simp [occurrences_of_mem_given hname hyphen]⟩
    exact (Props.mem_missing_iff.1 hmissing).2 hfound
  · intro hyphens
    have hnames := names_region_of_identifiers hyphens
    refine ⟨hnames, fun wanted => ?_, fun usage husage prop hprop => ?_⟩
    · simp only [missing, Reading.tag, hnames, Props.missing, List.mem_eraseDups]
    · rw [t.usages_text, hnames] at husage
      split at husage
      · cases husage
      · obtain rfl := List.mem_singleton.1 husage
        exact List.mem_eraseDups.1 hprop

/-- A tag of two lines with all three ways to write an attribute, one of them written twice. -/
def threeForms : Plain where
  component := "Card".toList
  attributes := [
    { gap := " ".toList, name := "title".toList, value := some (.quotes, "x y".toList) },
    { gap := "\n\t".toList, name := "size".toList, value := some (.braces, " n ".toList) },
    { gap := " ".toList, name := "disabled".toList, value := none },
    { gap := " ".toList, name := "title".toList, value := some (.braces, "z".toList) }]
  blanks := " ".toList
  closed := true

theorem found_as_given_of_three_forms :
    threeForms.text =
        "<Card title=\"x y\"\n\tsize=\x7b n \x7d disabled title=\x7bz\x7d />".toList ∧
      (∀ name ∈ threeForms.given, '-' ∉ name) ∧
      ∃ tag, Scanner.lexical.findTags threeForms.text "Card".toList = [tag] ∧ tag.stop = 51 ∧
        tag.attributes = ["title".toList, "size".toList] ∧
        tag.missing ["disabled".toList, "size".toList] = ["disabled".toList] := by
  have hyphens : ∀ name ∈ threeForms.given, '-' ∉ name := by decide
  obtain ⟨tag, htag, -, -, hstop, -, -, -, -, -, hgiven⟩ := found_as_given threeForms
  obtain ⟨hattributes, hmissing, -⟩ := hgiven hyphens
  exact ⟨by decide, hyphens, tag, htag, hstop.trans (by decide), hattributes.trans (by decide),
    (hmissing _).trans (by decide)⟩

/-- A tag with one attribute. -/
def single (a : Attribute.Plain) : Plain where
  component := "Card".toList
  attributes := [a]
  blanks := " ".toList
  closed := true

/-- A name without a value is not read, and of a name with a hyphen another one is. -/
theorem reads_other_names :
    let alone := single { gap := " ".toList, name := "disabled".toList, value := none }
    let hyphened := single
      { gap := " ".toList, name := "data-id".toList, value := some (.quotes, "x".toList) }
    alone.text = "<Card disabled />".toList ∧ hyphened.text = "<Card data-id=\"x\" />".toList ∧
      (¬ ∀ t : Plain, ∃ tag, Scanner.lexical.findTags t.text t.component = [tag] ∧
        tag.attributes = (t.attributes.map fun a => a.name).eraseDups) ∧
      (Scanner.lexical.findTags alone.text alone.component).map
        (fun tag => tag.missing ["disabled".toList]) = [["disabled".toList]] ∧
      Scanner.lexical.usages hyphened.text = [⟨"Card".toList, ["id".toList]⟩] := by
  intro alone hyphened
  refine ⟨by decide, by decide, fun h => ?_, by decide +kernel, by decide +kernel⟩
  obtain ⟨tag, htag, hattributes⟩ := h alone
  have hfound : (Scanner.lexical.findTags alone.text alone.component).map Tag.attributes = [[]] := by
    decide +kernel
  rw [htag, List.map_singleton, hattributes] at hfound
  revert hfound
  decide

end Plain

end Tag

end PropAccord
