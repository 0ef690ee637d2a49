import PropAccord.Proofs.Completion
import PropAccord.Proofs.Lists
import PropAccord.Proofs.Widening

/-!
# Tags that are kept

The tags of a component are compared by their lists of attributes. Completing the tags of one component
makes such lists longer at most. Appending names to a parameter list changes none: the names stand
before the closing brace, where no equals sign follows, and they lengthen no name that stood there. So
whatever edits of both kinds follow, a tag that has certain props goes on to have them.
-/

namespace PropAccord

set_option autoImplicit false

theorem not_isWordChar_of_isBlank {c : Char} (h : isBlank c = true) : isWordChar c = false := by
  rw [isWordChar]
  split
  · exact isNameChar_eq_false_of_isBlank h
  · rename_i hascii
    have hnone : ∀ code ∈ [0x85, 0xA0, 0x1680, 0x2000, 0x2001, 0x2002, 0x2003, 0x2004, 0x2005,
        0x2006, 0x2007, 0x2008, 0x2009, 0x200A, 0x2028, 0x2029, 0x202F, 0x205F, 0x3000],
        (Ranges.alphanumeric.any fun range => range.1 ≤ code && code ≤ range.2) = false := by
      decide +kernel
    apply hnone
    simp only [isBlank, Bool.or_eq_true, Bool.and_eq_true, decide_eq_true_eq, beq_iff_eq] at h
    simp only [List.mem_cons, List.not_mem_nil, or_false]
    omega

namespace Tag

/-! ## Lists of attributes -/

/-- The attributes of each tag of a component in a text. -/
def attributesIn (name t : Text) : List (List Text) := (scan (.exactly name) t).map attributes

theorem attributesIn_of_not_mem (name : Text) {t : Text} (h : '>' ∉ t) :
    attributesIn name t = [] := by
  rw [attributesIn, scan, scanFrom_of_not_mem name h]
  rfl

/-- Where a text stands makes no difference to the attributes. -/
theorem map_attributes_scanFrom {name : Text} (hname : isComponentName name = true) (offset : Nat)
    (t : Text) : (scanFrom (.exactly name) offset t).map attributes = attributesIn name t := by
  rw [attributesIn, scan]
  generalize 0 = offset'
  induction t using Text.pieces_induction '>' generalizing offset offset' with
  | last t h => rw [scanFrom_of_not_mem name h, scanFrom_of_not_mem name h]
  | piece p rest hp ih =>
    rw [scanFrom_append hname hp, scanFrom_append hname hp, List.map_append, List.map_append,
      ih (offset + p.length + 1) (offset' + p.length + 1)]
    cases inPiece? name p <;> rfl

/-- The attributes of the tag in a piece. -/
def attributesOf? (name piece : Text) : Option (List Text) :=
  (inPiece? name piece).map fun (_, body) => Attribute.names body

theorem attributesIn_append {name : Text} (hname : isComponentName name = true) {piece : Text}
    (h : '>' ∉ piece) (rest : Text) :
    attributesIn name (piece ++ '>' :: rest) =
      (attributesOf? name piece).toList ++ attributesIn name rest := by
  rw [attributesIn, scan, scanFrom_append hname h, List.map_append, map_attributes_scanFrom hname,
    attributesOf?]
  cases inPiece? name piece with
  | none => rfl
  | some found =>
    simp only [Option.map_some, Option.toList_some, List.map_singleton, Reading.tag, names_stem]

/-! ## Exchanging names before a closing brace -/

open Sync (isListChar)

/-- A text of names, commas and blanks that may stand behind another one without changing the last
name there: it begins with no word character, or a brace is between, or there is nothing before. -/
structure Loose (before t : Text) : Prop where
  chars : ∀ c ∈ t, isListChar c = true
  apart : before = [] ∨ before.getLast? = some '{' ∨ t.head?.any isWordChar = false

theorem Loose.not_mem {before t : Text} (h : Loose before t) {c : Char} (hc : isListChar c = false) :
    c ∉ t := by
  intro hmem
  rw [h.chars c hmem] at hc
  cases hc

theorem Loose.tail {c : Char} {before t : Text} (h : Loose (c :: before) t) : Loose before t := by
  refine ⟨h.chars, ?_⟩
  cases before with
  | nil => exact Or.inl rfl
  | cons d before => exact Or.inr (h.apart.resolve_left nofun)

theorem Loose.of_append {a before t : Text} (h : Loose (a ++ before) t) : Loose before t := by
  induction a with
  | nil => exact h
  | cons c a ih => exact ih h.tail

theorem occurrences_loose {before t : Text} (h : Loose before t) (previous : Option Char) :
    Attribute.occurrences previous (before ++ t) = Attribute.occurrences previous before := by
  have hequals : '=' ∉ t := h.not_mem (by decide)
  rcases h.apart with rfl | hbrace | hword
  · rw [List.nil_append, Attribute.occurrences_eq_nil hequals, Attribute.occurrences_nil]
  · obtain ⟨front, rfl⟩ := List.getLast?_eq_some_iff.1 hbrace
    have hseam := Attribute.seam_of_mark (c := '{') (by decide) (by decide) (by decide)
    rw [List.append_assoc, List.singleton_append, Attribute.occurrences_append (hseam t),
      Attribute.occurrences_append (hseam []), Attribute.occurrences_eq_nil hequals,
      Attribute.occurrences_nil]
  · cases t with
    | nil => rw [List.append_nil]
    | cons c t =>
      have hname : isNameChar c = false := by
        refine Bool.eq_false_iff.2 fun hc => ?_
        have hc' : isWordChar c = false := hword
        rw [isWordChar_of_isNameChar hc] at hc'
        cases hc'
      have hseam : Attribute.Seam (c :: t) := ⟨hname, fun hhead =>
        hequals ((List.dropWhile_sublist isBlank).mem (List.mem_of_head? hhead))⟩
      rw [Attribute.occurrences_append hseam,
        Attribute.occurrences_eq_nil fun hmem => hequals (List.mem_cons_of_mem c hmem),
        List.append_nil]

/-- The names in a list of parameters are no attributes. -/
theorem names_loose {before t : Text} (h : Loose before t) (closed : Text) :
    Attribute.names (before ++ (t ++ '}' :: closed)) =
      (Attribute.occurrences none before ++ Attribute.occurrences (some '}') closed).eraseDups := by
  have hseam := Attribute.seam_of_mark (c := '}') (by decide) (by decide) (by decide) closed
  rw [Attribute.names, ← List.append_assoc, Attribute.occurrences_append hseam, occurrences_loose h]

section

variable {name : Text} (hname : isComponentName name = true)
include hname

theorem not_mem_token {c : Char} (hangle : c ≠ '<') (hc : isNameChar c = false) : c ∉ '<' :: name :=
  List.not_mem_cons_of_ne_of_not_mem hangle
    (not_mem_of_isComponentName hname hc)

theorem after?_loose {before t : Text} (h : Loose before t) (closed : Text) :
    Text.after? ('<' :: name) (before ++ (t ++ '}' :: closed)) =
      (Text.after? ('<' :: name) before).map (· ++ (t ++ '}' :: closed)) := by
  rcases h.apart with rfl | hbrace | hword
  · have hangle : '<' ∉ t := h.not_mem (by decide)
    cases t with
    | nil => rfl
    | cons c t =>
      have hc : '<' ≠ c := fun heq => hangle (heq ▸ List.mem_cons_self)
      simp only [List.nil_append, List.cons_append, Text.after?, if_neg hc, Option.map_none]
  · obtain ⟨front, rfl⟩ := List.getLast?_eq_some_iff.1 hbrace
    have hmark := not_mem_token hname (c := '{') (by decide) (by decide)
    rw [List.append_assoc, List.singleton_append, Text.after?_append hmark, Text.after?_append hmark,
      Option.map_map]
    congr 1
    funext rest
    simp
  · cases t with
    | nil => exact Text.after?_append (not_mem_token hname (by decide) (by decide)) before closed
    | cons c t =>
      have hangle : c ≠ '<' := by
        rintro rfl
        exact h.not_mem (by decide) List.mem_cons_self
      have hc : isNameChar c = false := by
        refine Bool.eq_false_iff.2 fun hc => ?_
        rw [List.head?_cons, Option.any_some, isWordChar_of_isNameChar hc] at hword
        cases hword
      exact Text.after?_append (not_mem_token hname hangle hc) before (t ++ '}' :: closed)

theorem opened?_loose {before t : Text} (h : Loose before t) (closed : Text) :
    opened? name (before ++ (t ++ '}' :: closed)) =
      (opened? name before).map (· ++ (t ++ '}' :: closed)) := by
  rw [opened?, opened?, after?_loose hname h]
  cases hr : Text.after? ('<' :: name) before with
  | none => rfl
  | some rest =>
    have hnext : (rest ++ (t ++ '}' :: closed)).head?.any isWordChar = rest.head?.any isWordChar := by
      cases rest with
      | cons c rest => rfl
      | nil =>
        -- The name ends the text before, so what follows begins with no word character.
        have hword : t.head?.any isWordChar = false := by
          have hbefore := Text.after?_eq_some_iff.1 hr
          rw [List.append_nil] at hbefore
          rcases h.apart with hnil | hbrace | hword
          · rw [hbefore] at hnil
            cases hnil
          · have hmark := not_mem_token hname (c := '{') (by decide) (by decide)
            rw [hbefore] at hbrace
            exact absurd (List.mem_of_getLast? hbrace) hmark
          · exact hword
        cases t with
        | nil => exact (by decide : isWordChar '}' = false)
        | cons c t => exact hword
    rw [Option.map_some, Option.filter_some, Option.filter_some, hnext]
    split <;> rfl

omit hname in
theorem attributesOf?_append_of_not_mem {before : Text} (h : '<' ∉ before) (rest : Text) :
    attributesOf? name (before ++ rest) = attributesOf? name rest := by
  induction before with
  | nil => rfl
  | cons c before ih =>
    have hc : '<' ≠ c := fun heq => h (heq ▸ List.mem_cons_self)
    have ho : opened? name (c :: (before ++ rest)) = none := by
      rw [opened?, Text.after?, if_neg hc]
      rfl
    rw [← ih fun hmem => h (List.mem_cons_of_mem c hmem), attributesOf?, List.cons_append, inPiece?,
      ho, attributesOf?]
    cases inPiece? name (before ++ rest) <;> rfl

/-- Exchanging names before a closing brace makes no difference to the tag in a piece. -/
theorem attributesOf?_exchange {before t t' : Text} (h : Loose before t) (h' : Loose before t')
    (closed : Text) :
    attributesOf? name (before ++ (t' ++ '}' :: closed)) =
      attributesOf? name (before ++ (t ++ '}' :: closed)) := by
  induction before with
  | nil =>
    rw [List.nil_append, List.nil_append,
      attributesOf?_append_of_not_mem (h.not_mem (by decide)),
      attributesOf?_append_of_not_mem (h'.not_mem (by decide))]
  | cons c before ih =>
    have hrest := ih h.tail h'.tail
    have ho := opened?_loose hname h closed
    have ho' := opened?_loose hname h' closed
    rw [attributesOf?, attributesOf?] at hrest ⊢
    rw [List.cons_append] at ho ho' ⊢
    rw [List.cons_append, inPiece?, inPiece?, ho, ho']
    cases hb : opened? name (c :: before) with
    | some body =>
      obtain ⟨front, hfront⟩ : ∃ front, c :: before = front ++ body := ⟨_, opened?_eq_some hb⟩
      rw [hfront] at h h'
      simp only [Option.map_some, names_loose h.of_append, names_loose h'.of_append]
    | none =>
      simp only [Option.map_none]
      cases hi : inPiece? name (before ++ (t ++ '}' :: closed)) with
      | none =>
        rw [hi, Option.map_none, Option.map_eq_none_iff] at hrest
        rw [hrest]
      | some found =>
        rw [hi, Option.map_some, Option.map_eq_some_iff] at hrest
        obtain ⟨found', hi', hnames⟩ := hrest
        rw [hi']
        exact congrArg some hnames

/-- Exchanging names before a closing brace leaves the attributes of all tags as they are. -/
theorem attributesIn_exchange {before t t' : Text} (h : Loose before t) (h' : Loose before t')
    (closed : Text) :
    attributesIn name (before ++ (t' ++ '}' :: closed)) =
      attributesIn name (before ++ (t ++ '}' :: closed)) := by
  have hangle : ∀ u, Loose before u → '>' ∉ u := fun u hu => hu.not_mem (by decide)
  induction before using Text.pieces_induction '>' with
  | last before hbefore =>
    by_cases hclosed : '>' ∈ closed
    · obtain ⟨front, rest, rfl, hfront⟩ := List.eq_append_cons_of_mem hclosed
      have hpiece : ∀ u, Loose before u → '>' ∉ before ++ (u ++ '}' :: front) := by
        intro u hu
        simp [hbefore, hangle u hu, hfront]
      have hassoc : ∀ u : Text, before ++ (u ++ '}' :: (front ++ '>' :: rest)) =
          before ++ (u ++ '}' :: front) ++ '>' :: rest := by simp
      rw [hassoc, hassoc, attributesIn_append hname (hpiece t h),
        attributesIn_append hname (hpiece t' h'), attributesOf?_exchange hname h h']
    · have hnone : ∀ u, Loose before u → '>' ∉ before ++ (u ++ '}' :: closed) := by
        intro u hu
        simp [hbefore, hangle u hu, hclosed]
      rw [attributesIn_of_not_mem name (hnone t h), attributesIn_of_not_mem name (hnone t' h')]
  | piece p rest hp ih =>
    have hsplit : ∀ u, Loose (p ++ '>' :: rest) u → Loose rest u := by
      intro u hu
      rw [← List.singleton_append, ← List.append_assoc] at hu
      exact hu.of_append
    simp only [List.append_assoc, List.cons_append]
    rw [attributesIn_append hname hp, attributesIn_append hname hp,
      ih (hsplit t h) (hsplit t' h') fun u hu => hu.not_mem (by decide)]

end

end Tag

namespace Sync

/-- Each component has as many tags in the second text as in the first one, and each of these has the
attributes it had before, if not more. -/
def TagsKept (t t' : Text) : Prop :=
  ∀ name, isComponentName name = true →
    List.Forall₂ (· <+: ·) (Tag.attributesIn name t) (Tag.attributesIn name t')

theorem TagsKept.refl (t : Text) : TagsKept t t :=
  fun _ _ => List.forall₂_same.2 fun attributes _ => List.prefix_refl attributes

theorem TagsKept.trans {t t' t'' : Text} (h : TagsKept t t') (h' : TagsKept t' t'') :
    TagsKept t t'' := by
  intro name hname
  exact forall₂_trans (fun _ _ _ hab hbc => hab.trans hbc) (h name hname) (h' name hname)

theorem Completed.tagsKept {placeholder name : Text} {props : List Text}
    (hplaceholder : ∀ c ∈ placeholder, c ≠ '<' ∧ c ≠ '>')
    (hprops : ∀ prop ∈ props, isIdentifier prop = true) {t t' : Text}
    (h : Completed placeholder name props t t') : TagsKept t t' := by
  intro other hother
  rw [Tag.attributesIn, Tag.attributesIn, List.forall₂_map_left_iff, List.forall₂_map_right_iff]
  exact forall₂_attributes_prefix hplaceholder hprops name hother h

/-- Appending the props of a usage to a definition that is found keeps all tags. -/
theorem tagsKept_widened {name t : Text} {d : Definition} (hname : isComponentName name = true)
    (hd : Definition.find? t name = some d) {used : List Text}
    (hused : ∀ prop ∈ used, isIdentifier prop = true) :
    TagsKept t (Edit.replace ⟨d.start, d.stop, widenedRaw .append d used⟩ t) := by
  have hopen : '{' ∉ name := not_mem_of_isComponentName hname (by decide)
  obtain ⟨before, head, closed, rfl, hstands⟩ := (Definition.find?_eq_some_iff hopen).1 hd
  obtain ⟨body, tail, tail', hraw, hraw', htail, htail', hseam⟩ := exists_tail_of_widenedRaw d hused
  have hnext : ∀ u : Text, (∀ c ∈ u.head?, isBlank c = true ∨ c = ',') →
      u.head?.any isWordChar = false := by
    intro u hu
    cases u with
    | nil => rfl
    | cons c u =>
      rcases hu c rfl with hblank | rfl
      · exact not_isWordChar_of_isBlank hblank
      · exact (by decide : isWordChar ',' = false)
  have hloose : Tag.Loose (before ++ head ++ '{' :: body) tail ∧
      Tag.Loose (before ++ head ++ '{' :: body) tail' := by
    rcases hseam with rfl | ⟨hblank, hblank'⟩
    · have hbrace : (before ++ head ++ ['{']).getLast? = some '{' := List.getLast?_concat
      exact ⟨⟨htail, Or.inr (Or.inl hbrace)⟩, htail', Or.inr (Or.inl hbrace)⟩
    · exact ⟨⟨htail, Or.inr (Or.inr (hnext _ hblank))⟩, htail', Or.inr (Or.inr (hnext _ hblank'))⟩
  have haround : ∀ u, Definition.around before head (body ++ u) closed =
      before ++ head ++ '{' :: body ++ (u ++ '}' :: closed) := by
    intro u
    simp [Definition.around]
  rw [replace_around hstands, hraw, hraw', haround, haround]
  intro other hother
  rw [Tag.attributesIn_exchange hother hloose.1 hloose.2]
  exact List.forall₂_same.2 fun attributes _ => List.prefix_refl attributes

/-- All tags of the component have all of the props. -/
def Complete (name : Text) (props : List Text) (t : Text) : Prop :=
  ∀ attributes ∈ Tag.attributesIn name t, ∀ prop ∈ props, prop ∈ attributes

theorem Complete.kept {name : Text} {props : List Text} {t t' : Text}
    (h : Complete name props t) (hname : isComponentName name = true) (hkept : TagsKept t t') :
    Complete name props t' := by
  intro attributes' hattributes' prop hprop
  obtain ⟨attributes, hmem, hprefix⟩ := exists_of_forall₂_of_mem (hkept name hname) hattributes'
  exact hprefix.subset (h attributes hmem prop hprop)

theorem Completed.complete {placeholder name : Text} {props : List Text}
    (hplaceholder : ∀ c ∈ placeholder, c ≠ '<' ∧ c ≠ '>')
    (hprops : ∀ prop ∈ props, isIdentifier prop = true) (hname : isComponentName name = true)
    {t t' : Text} (h : Completed placeholder name props t t') : Complete name props t' := by
  intro attributes hattributes
  obtain ⟨tag', htag', rfl⟩ := List.mem_map.1 hattributes
  have hown := forall₂_attributes_completed hplaceholder hprops hname h
  obtain ⟨tag, -, hall, -⟩ := exists_of_forall₂_of_mem hown htag'
  exact hall

/-- Nothing is planned exactly where all tags have all props. -/
theorem tagInsertions_eq_nil_iff (placeholder : Text) {name : Text} {props : List Text} {t : Text} :
    tagInsertions placeholder props (Scanner.lexical.findTags t name) = [] ↔
      Complete name props t := by
  have htag : ∀ tag : Tag, tagInsertion? placeholder props tag = none ↔
      ∀ prop ∈ props, prop ∈ tag.attributes := by
    intro tag
    rw [tagInsertion?, ← Props.missing_eq_nil_iff, ← List.isEmpty_iff]
    exact ite_eq_left_iff.trans (by simp [Tag.missing])
  rw [tagInsertions, List.filterMap_eq_nil_iff, Complete, Tag.attributesIn, List.forall_mem_map]
  exact forall₂_congr fun tag _ => htag tag

end Sync

end PropAccord
