import Mathlib.Data.List.Forall2
import PropAccord.Proofs.Edits
import PropAccord.Proofs.TagPieces
import PropAccord.Workspace.Writing

/-!
# Completing tags

An insertion before the end mark of a tag makes a piece of the text longer at its end, before the
slash if there is one. What is put in begins with a blank and has no brackets, so in every piece the
tag of each component stays where it is and gains attributes at most. From this follows what a
completed text is like, piece by piece: every component has as many tags as before, the tags of the
completed one have all props, and there is nothing left to complete.
-/

namespace PropAccord

set_option autoImplicit false

namespace Tag

/-- A piece with something put in before the slash at its end. -/
def grown (inserted piece : Text) : Text :=
  stem piece ++ inserted ++ if slashed piece then ['/'] else []

/-- What may be put into a tag: nothing, or a text that begins with a blank and has no brackets. -/
structure Insertable (inserted : Text) : Prop where
  spaced : ∀ c ∈ inserted.head?, c = ' '
  noOpening : '<' ∉ inserted
  noClosing : '>' ∉ inserted

theorem grown_nil_left (piece : Text) : grown [] piece = piece := by
  rw [grown, List.append_nil, stem_append_slash]

theorem grown_nil_right (inserted : Text) : grown inserted [] = inserted := by
  simp [grown, stem, slashed]

theorem grown_slash (inserted : Text) : grown inserted ['/'] = inserted ++ ['/'] := by
  simp [grown, stem, slashed]

theorem grown_cons (inserted : Text) {c : Char} {piece : Text} (h : c :: piece ≠ ['/']) :
    grown inserted (c :: piece) = c :: grown inserted piece := by
  cases piece with
  | nil =>
    have hc : c ≠ '/' := fun he => h (by rw [he])
    simp [grown, stem, slashed, hc]
  | cons d piece =>
    have hne := List.cons_ne_nil d piece
    rw [grown, stem_cons hne, slashed_cons hne]
    rfl

theorem mem_grown {inserted piece : Text} {c : Char} (h : c ∈ grown inserted piece) :
    c ∈ inserted ∨ c ∈ piece := by
  have hp := stem_append_slash piece
  simp only [grown, List.mem_append] at h
  rcases h with (h | h) | h
  · exact Or.inr (hp ▸ List.mem_append_left _ h)
  · exact Or.inl h
  · exact Or.inr (hp ▸ List.mem_append_right _ h)

section Grown

variable {inserted : Text} (hi : ∀ c ∈ inserted.head?, c = ' ')
include hi

theorem head?_append_slash {c : Char} (hc : c ∈ (inserted ++ ['/']).head?) : c = ' ' ∨ c = '/' := by
  cases inserted with
  | nil =>
    simp only [List.nil_append, List.head?_cons, Option.mem_some_iff] at hc
    exact Or.inr hc.symm
  | cons d inserted => exact Or.inl (hi c hc)

theorem after?_grown {token : Text} (hspace : ' ' ∉ token) (hslash : '/' ∉ token) (piece : Text) :
    Text.after? token (grown inserted piece) =
      (Text.after? token piece).map (grown inserted) := by
  induction token generalizing piece with
  | nil => rfl
  | cons a token ih =>
    have ha : a ≠ ' ' := fun he => hspace (he ▸ List.mem_cons_self)
    have ha' : a ≠ '/' := fun he => hslash (he ▸ List.mem_cons_self)
    have hstop (t : Text) (ht : ∀ c ∈ t.head?, c = ' ' ∨ c = '/') :
        Text.after? (a :: token) t = none := by
      cases t with
      | nil => rfl
      | cons c t =>
        rcases ht c rfl with rfl | rfl
        · simp [Text.after?, ha]
        · simp [Text.after?, ha']
    by_cases hp : piece = ['/']
    · subst piece
      rw [grown_slash, hstop _ (fun c hc => head?_append_slash hi hc), hstop ['/'] (by simp),
        Option.map_none]
    · cases piece with
      | nil =>
        rw [grown_nil_right, hstop _ (fun c hc => Or.inl (hi c hc))]
        rfl
      | cons c piece =>
        rw [grown_cons inserted hp, Text.after?, Text.after?]
        split
        · exact ih (fun hm => hspace (List.mem_cons_of_mem a hm))
            (fun hm => hslash (List.mem_cons_of_mem a hm)) piece
        · rfl

/-- The character behind a name stays a word character or stays none. -/
theorem head?_any_grown (body : Text) :
    (grown inserted body).head?.any isWordChar = body.head?.any isWordChar := by
  have hstop (t : Text) (ht : ∀ c ∈ t.head?, c = ' ' ∨ c = '/') :
      t.head?.any isWordChar = false := by
    cases t with
    | nil => rfl
    | cons c t => rcases ht c rfl with rfl | rfl <;> rfl
  by_cases hb : body = ['/']
  · subst body
    rw [grown_slash, hstop _ (fun c hc => head?_append_slash hi hc)]
    rfl
  · cases body with
    | nil =>
      rw [grown_nil_right, hstop _ (fun c hc => Or.inl (hi c hc))]
      rfl
    | cons c body =>
      rw [grown_cons inserted hb]
      rfl

theorem opened?_grown {name : Text} (hname : isComponentName name = true) (piece : Text) :
    opened? name (grown inserted piece) = (opened? name piece).map (grown inserted) := by
  have hchars := isNameChar_of_mem_componentName hname
  have hspace : ' ' ∉ '<' :: name := by
    simpa using not_mem_of_all_isNameChar hchars (by decide)
  have hslash : '/' ∉ '<' :: name := by
    simpa using not_mem_of_all_isNameChar hchars (by decide)
  rw [opened?, after?_grown hi hspace hslash, opened?]
  cases Text.after? ('<' :: name) piece with
  | none => rfl
  | some body =>
    rw [Option.map_some, Option.filter_some, Option.filter_some, head?_any_grown hi]
    split <;> rfl

end Grown

theorem inPiece?_grown {inserted : Text} (hi : Insertable inserted) {name : Text}
    (hname : isComponentName name = true) (piece : Text) :
    inPiece? name (grown inserted piece) =
      (inPiece? name piece).map fun (n, body) => (n, grown inserted body) := by
  induction piece with
  | nil =>
    rw [grown_nil_right, inPiece?_eq_none_of_not_mem name hi.noOpening]
    rfl
  | cons c piece ih =>
    by_cases hp : c :: piece = ['/']
    · have hbefore : '<' ∉ inserted ++ ['/'] := by simp [hi.noOpening]
      have hslash : '<' ∉ ['/'] := by simp
      rw [hp, grown_slash, inPiece?_eq_none_of_not_mem name hbefore,
        inPiece?_eq_none_of_not_mem name hslash, Option.map_none]
    · have ho := opened?_grown hi.spaced hname (c :: piece)
      rw [grown_cons inserted hp] at ho ⊢
      rw [inPiece?, inPiece?, ho, ih]
      cases opened? name (c :: piece) with
      | some body => rfl
      | none => cases inPiece? name piece <;> rfl

theorem names_grown (inserted body : Text) :
    Attribute.names (grown inserted body) = Attribute.names (stem body ++ inserted) := by
  rw [grown]
  split
  · rw [Attribute.names_append_slash]
  · rw [List.append_nil]

theorem slashed_of_inPiece? {name : Text} (hname : isComponentName name = true) {piece body : Text}
    {n : Nat} (h : inPiece? name piece = some (n, body)) : slashed piece = slashed body := by
  obtain ⟨before, -, rfl⟩ := inPiece?_eq_some h
  exact slashed_append_name hname before body

/-- The end mark of the tag in a piece stands behind the stem of the piece. -/
theorem length_stem_of_inPiece? {name : Text} (hname : isComponentName name = true)
    {piece body : Text} {n : Nat} (h : inPiece? name piece = some (n, body)) :
    (stem piece).length = n + (1 + name.length + (stem body).length) := by
  have h₁ := length_stem piece
  have h₂ := length_stem body
  rw [slashed_of_inPiece? hname h] at h₁
  obtain ⟨before, rfl, rfl⟩ := inPiece?_eq_some h
  simp only [List.length_append, List.length_cons] at h₁
  omega

end Tag

namespace Sync

/-- What is put into a tag that has `body` between its name and its closing bracket. -/
def insertedFor (placeholder : Text) (props : List Text) (body : Text) : Text :=
  (Props.missing (Attribute.names body) props).flatMap (attributeText placeholder)

theorem mem_of_mem_attributes {placeholder : Text} {names : List Text} {c : Char}
    (h : c ∈ names.flatMap (attributeText placeholder)) :
    c = ' ' ∨ c = '=' ∨ c ∈ placeholder ∨ ∃ name ∈ names, c ∈ name := by
  obtain ⟨name, hname, hc⟩ := List.mem_flatMap.1 h
  simp only [attributeText, List.mem_cons, List.mem_append] at hc
  rcases hc with hc | hc | hc | hc
  · exact Or.inl hc
  · exact Or.inr (Or.inr (Or.inr ⟨name, hname, hc⟩))
  · exact Or.inr (Or.inl hc)
  · exact Or.inr (Or.inr (Or.inl hc))

/-- The insertion into a piece that stands `offset` characters into a text. -/
def pieceInsertion? (placeholder name : Text) (props : List Text) (offset : Nat) (piece : Text) :
    Option Insertion :=
  (Tag.inPiece? name piece).bind fun (_, body) =>
    if (Props.missing (Attribute.names body) props).isEmpty then none
    else some ⟨offset + (Tag.stem piece).length, insertedFor placeholder props body⟩

/-- What is put into a piece. -/
def insertedIn (placeholder name : Text) (props : List Text) (piece : Text) : Text :=
  match Tag.inPiece? name piece with
  | some (_, body) => insertedFor placeholder props body
  | none => []

/-- A piece with its tag completed. -/
def completedPiece (placeholder name : Text) (props : List Text) (piece : Text) : Text :=
  Tag.grown (insertedIn placeholder name props piece) piece

/-- A text and what it becomes when the tags of a component are completed. -/
inductive Completed (placeholder name : Text) (props : List Text) : Text → Text → Prop
  | last {t : Text} : '>' ∉ t → Completed placeholder name props t t
  | piece {p rest rest' : Text} : '>' ∉ p → Completed placeholder name props rest rest' →
    Completed placeholder name props (p ++ '>' :: rest)
      (completedPiece placeholder name props p ++ '>' :: rest')

section

variable {placeholder name : Text} {props : List Text}

theorem Completed.of_append {p rest t' : Text} (hp : '>' ∉ p)
    (h : Completed placeholder name props (p ++ '>' :: rest) t') :
    ∃ rest', Completed placeholder name props rest rest' ∧
      t' = completedPiece placeholder name props p ++ '>' :: rest' := by
  generalize ht : p ++ '>' :: rest = t at h
  cases h with
  | last hnone => exact absurd (ht ▸ List.mem_append_right p List.mem_cons_self) hnone
  | @piece q more more' hq hmore =>
    obtain rfl := Text.eq_of_append_mark hp hq ht
    obtain rfl : rest = more := (List.cons.inj (List.append_cancel_left ht)).2
    exact ⟨more', hmore, rfl⟩

theorem Completed.unique {t t₁ t₂ : Text} (h : Completed placeholder name props t t₁)
    (h' : Completed placeholder name props t t₂) : t₁ = t₂ := by
  induction h generalizing t₂ with
  | last ht =>
    cases h' with
    | last => rfl
    | piece => exact absurd (List.mem_append_right _ List.mem_cons_self) ht
  | piece hp _ ih =>
    obtain ⟨rest', hrest', rfl⟩ := h'.of_append hp
    rw [ih hrest']

end

theorem offset_of_tagInsertion? {placeholder : Text} {props : List Text} {tag : Tag} {i : Insertion}
    (h : tagInsertion? placeholder props tag = some i) : i.offset = tag.insertAt := by
  rw [tagInsertion?] at h
  split at h
  · cases h
  · rw [← Option.some.inj h]

/-- What is put in stands before the end of a tag that lacks a prop. -/
theorem exists_tag_of_mem_tagInsertions {placeholder : Text} {props : List Text} {tags : List Tag}
    {i : Insertion} (h : i ∈ tagInsertions placeholder props tags) :
    ∃ tag ∈ tags, tag.missing props ≠ [] ∧ i.offset = tag.insertAt := by
  obtain ⟨tag, htag, hinsertion⟩ := List.mem_filterMap.1 h
  refine ⟨tag, htag, fun hnil => ?_, offset_of_tagInsertion? hinsertion⟩
  rw [tagInsertion?, hnil] at hinsertion
  cases hinsertion

/-- The insertions stand in the text, in increasing order. -/
theorem tagInsertions_ordered (pattern : NamePattern) (placeholder : Text) (props : List Text)
    (t : Text) :
    (∀ i ∈ tagInsertions placeholder props (Tag.scan pattern t),
      0 ≤ i.offset ∧ i.offset ≤ t.length) ∧
    (tagInsertions placeholder props (Tag.scan pattern t)).Pairwise
      fun i j => i.offset < j.offset := by
  obtain ⟨hbounds, hordered⟩ := Tag.scanFrom_ordered pattern 0 t
  constructor
  · intro i hi
    obtain ⟨tag, htag, hinsertion⟩ := List.mem_filterMap.1 hi
    have := hbounds tag htag
    rw [offset_of_tagInsertion? hinsertion]
    omega
  · refine List.pairwise_filterMap.2 (hordered.imp_of_mem ?_)
    intro tag later htag hlater hbehind i hi j hj
    have := hbounds tag htag
    have := hbounds later hlater
    rw [offset_of_tagInsertion? hi, offset_of_tagInsertion? hj]
    omega

section Insertions

variable {name : Text} (hname : isComponentName name = true) (placeholder : Text)
  (props : List Text)
include hname

theorem tagInsertions_append {piece : Text} (h : '>' ∉ piece) (offset : Nat) (rest : Text) :
    tagInsertions placeholder props (Tag.scanFrom (.exactly name) offset (piece ++ '>' :: rest)) =
      (pieceInsertion? placeholder name props offset piece).toList ++
      tagInsertions placeholder props
        (Tag.scanFrom (.exactly name) (offset + piece.length + 1) rest) := by
  rw [Tag.scanFrom_append hname h, tagInsertions, List.filterMap_append, tagInsertions,
    pieceInsertion?]
  congr 1
  cases hp : Tag.inPiece? name piece with
  | none => rfl
  | some found =>
    obtain ⟨n, body⟩ := found
    have hlen := Tag.length_stem_of_inPiece? hname hp
    have hoffset : offset + n + (1 + name.length + (Tag.stem body).length) =
        offset + (Tag.stem piece).length := by omega
    simp only [Option.map_some, Option.toList_some, List.filterMap_cons, List.filterMap_nil,
      Option.bind_some, tagInsertion?, Tag.Reading.tag, Tag.missing, Tag.names_stem, hoffset,
      insertedFor]
    split <;> split <;> simp_all

end Insertions

theorem insertedFor_eq_nil {placeholder : Text} {props : List Text} {body : Text}
    (h : (Props.missing (Attribute.names body) props).isEmpty = true) :
    insertedFor placeholder props body = [] := by
  rw [insertedFor, List.isEmpty_iff.1 h, List.flatMap_nil]

theorem replace_grown (before inserted piece rest : Text) :
    Edit.replace (Insertion.edit ⟨(before.length + (Tag.stem piece).length : Nat), inserted⟩)
        (before ++ (piece ++ '>' :: rest)) =
      before ++ (Tag.grown inserted piece ++ '>' :: rest) := by
  have hp := Tag.stem_append_slash piece
  have hsplit : before ++ (piece ++ '>' :: rest) = (before ++ Tag.stem piece) ++
      ((if Tag.slashed piece then ['/'] else []) ++ '>' :: rest) := by
    rw [List.append_assoc before, ← List.append_assoc (Tag.stem piece), hp]
  have hlen : before.length + (Tag.stem piece).length = (before ++ Tag.stem piece).length := by
    rw [List.length_append]
  simp only [Edit.replace, Insertion.edit, Int.toNat_natCast]
  rw [hsplit, hlen, List.take_left, List.drop_left, Tag.grown]
  simp only [List.append_assoc]

/-- Carrying out the insertions into one piece completes the piece. -/
theorem replace_pieceInsertion? (placeholder name : Text) (props : List Text)
    (before piece rest : Text) :
    ((pieceInsertion? placeholder name props before.length piece).toList.map
        Insertion.edit).foldr Edit.replace (before ++ (piece ++ '>' :: rest)) =
      before ++ (completedPiece placeholder name props piece ++ '>' :: rest) := by
  rw [pieceInsertion?, completedPiece, insertedIn]
  cases Tag.inPiece? name piece with
  | none =>
    rw [Tag.grown_nil_left]
    rfl
  | some found =>
    obtain ⟨n, body⟩ := found
    simp only [Option.bind_some]
    split
    · rename_i hnone
      rw [insertedFor_eq_nil hnone, Tag.grown_nil_left]
      rfl
    · exact replace_grown before _ piece rest

/-- Carrying out the insertions into a text completes the text. -/
theorem exists_completed {name : Text} (hname : isComponentName name = true) (placeholder : Text)
    (props : List Text) (before t : Text) :
    ∃ t', Completed placeholder name props t t' ∧
      ((tagInsertions placeholder props
        (Tag.scanFrom (.exactly name) before.length t)).map Insertion.edit).foldr Edit.replace
          (before ++ t) = before ++ t' := by
  induction t using Text.pieces_induction '>' generalizing before with
  | last t h =>
    refine ⟨t, .last h, ?_⟩
    rw [Tag.scanFrom_of_not_mem name h]
    rfl
  | piece p rest hp ih =>
    obtain ⟨rest', hrest, hfold⟩ := ih (before ++ p ++ ['>'])
    refine ⟨_, .piece hp hrest, ?_⟩
    have hlen : (before ++ p ++ ['>']).length = before.length + p.length + 1 := by
      simp only [List.length_append, List.length_singleton]
    have hassoc (t : Text) : before ++ p ++ ['>'] ++ t = before ++ (p ++ '>' :: t) := by
      simp only [List.append_assoc, List.singleton_append]
    rw [hlen, hassoc, hassoc] at hfold
    rw [tagInsertions_append hname placeholder props hp, List.map_append, List.foldr_append, hfold,
      replace_pieceInsertion?]

section Tags

variable {placeholder : Text} {props : List Text}
  (hplaceholder : ∀ c ∈ placeholder, c ≠ '<' ∧ c ≠ '>')
  (hprops : ∀ prop ∈ props, isIdentifier prop = true)

include hprops in
theorem isIdentifier_of_mem_missing (present : List Text) :
    ∀ prop ∈ Props.missing present props, isIdentifier prop = true := by
  intro prop hprop
  exact hprops prop (Props.mem_missing_iff.1 hprop).1

include hplaceholder hprops in
theorem insertable_insertedFor (body : Text) :
    Tag.Insertable (insertedFor placeholder props body) := by
  have hmem (c : Char) (hc : c ∈ insertedFor placeholder props body) : c ≠ '<' ∧ c ≠ '>' := by
    obtain ⟨prop, hprop, hc⟩ := List.mem_flatMap.1 hc
    have hchars := isNameChar_of_mem_identifier (isIdentifier_of_mem_missing hprops _ prop hprop)
    simp only [attributeText, List.mem_cons, List.mem_append] at hc
    rcases hc with rfl | hc | rfl | hc
    · decide
    · have := hchars c hc
      constructor <;> rintro rfl <;> exact absurd this (by decide)
    · decide
    · exact hplaceholder c hc
  refine ⟨?_, fun h => (hmem _ h).1 rfl, fun h => (hmem _ h).2 rfl⟩
  intro c hc
  unfold insertedFor at hc
  cases hm : Props.missing (Attribute.names body) props with
  | nil => simp [hm] at hc
  | cons prop rest =>
    rw [hm] at hc
    simp only [List.flatMap_cons, attributeText, List.cons_append, List.head?_cons,
      Option.mem_some_iff] at hc
    exact hc.symm

include hprops in
/-- What is put into a piece are attributes. -/
theorem exists_insertedIn_eq (placeholder name piece : Text) :
    ∃ added : List Text, (∀ prop ∈ added, isIdentifier prop = true) ∧
      insertedIn placeholder name props piece = added.flatMap (attributeText placeholder) := by
  unfold insertedIn
  split
  · exact ⟨_, isIdentifier_of_mem_missing hprops _, rfl⟩
  · exact ⟨[], by simp, rfl⟩

include hplaceholder hprops

theorem insertable_insertedIn (name piece : Text) :
    Tag.Insertable (insertedIn placeholder name props piece) := by
  unfold insertedIn
  split
  · exact insertable_insertedFor hplaceholder hprops _
  · exact ⟨by simp, by simp, by simp⟩

theorem not_mem_completedPiece {piece : Text} (h : '>' ∉ piece) (name : Text) :
    '>' ∉ completedPiece placeholder name props piece := by
  intro hm
  rcases Tag.mem_grown hm with hm | hm
  · exact (insertable_insertedIn hplaceholder hprops name piece).noClosing hm
  · exact h hm

/-- If completing a piece does to the attributes of its tag what `Q` says, completing a text does so
to the attributes of each tag. -/
theorem forall₂_attributes {name other : Text} (hother : isComponentName other = true)
    {Q : List Text → List Text → Prop}
    (hQ : ∀ piece n body, Tag.inPiece? other piece = some (n, body) →
      Q (Attribute.names body)
        (Attribute.names (Tag.grown (insertedIn placeholder name props piece) body)))
    {t t' : Text} (h : Completed placeholder name props t t') (offset offset' : Nat) :
    List.Forall₂ (fun tag tag' => Q tag.attributes tag'.attributes)
      (Tag.scanFrom (.exactly other) offset t) (Tag.scanFrom (.exactly other) offset' t') := by
  induction h generalizing offset offset' with
  | last h =>
    rw [Tag.scanFrom_of_not_mem other h, Tag.scanFrom_of_not_mem other h]
    exact .nil
  | @piece p rest rest' hp _ ih =>
    have hinsertable := insertable_insertedIn hplaceholder hprops name p
    have hclosing := not_mem_completedPiece hplaceholder hprops hp name
    rw [Tag.scanFrom_append hother hp, Tag.scanFrom_append hother hclosing, completedPiece,
      Tag.inPiece?_grown hinsertable hother]
    apply List.rel_append _ (ih _ _)
    cases hpiece : Tag.inPiece? other p with
    | none => exact .nil
    | some found =>
      obtain ⟨n, body⟩ := found
      refine .cons ?_ .nil
      simp only [Tag.Reading.tag, Tag.names_stem]
      exact hQ p n body hpiece

/-- No tag of any component loses an attribute, and none appears or goes away. -/
theorem forall₂_attributes_prefix (name : Text) {other : Text}
    (hother : isComponentName other = true) {t t' : Text} (h : Completed placeholder name props t t') :
    List.Forall₂ (fun tag tag' => tag.attributes <+: tag'.attributes)
      (Tag.scan (.exactly other) t) (Tag.scan (.exactly other) t') := by
  apply forall₂_attributes hplaceholder hprops hother _ h
  intro piece n body _
  obtain ⟨added, hadded, heq⟩ := exists_insertedIn_eq hprops placeholder name piece
  rw [heq, Tag.names_grown, ← Tag.names_stem body]
  exact Attribute.names_prefix_append_written hadded placeholder (Tag.stem body)

/-- The tags of the completed component have all props, and exactly those if the placeholder brings
no attribute along. -/
theorem forall₂_attributes_completed {name : Text} (hname : isComponentName name = true)
    {t t' : Text} (h : Completed placeholder name props t t') :
    List.Forall₂ (fun tag tag' => (∀ prop ∈ props, prop ∈ tag'.attributes) ∧
        ('=' ∉ placeholder → tag'.attributes = tag.attributes ++ tag.missing props))
      (Tag.scan (.exactly name) t) (Tag.scan (.exactly name) t') := by
  apply forall₂_attributes hplaceholder hprops hname (Q := fun old new =>
    (∀ prop ∈ props, prop ∈ new) ∧ ('=' ∉ placeholder → new = old ++ Props.missing old props)) _ h
  intro piece n body hpiece
  have hmissing := isIdentifier_of_mem_missing hprops (Attribute.names body)
  have heq : insertedIn placeholder name props piece = insertedFor placeholder props body := by
    rw [insertedIn, hpiece]
  rw [heq, Tag.names_grown, insertedFor]
  constructor
  · intro prop hprop
    by_cases hold : prop ∈ Attribute.names body
    · rw [← Tag.names_stem body] at hold
      exact (Attribute.names_prefix_append_written hmissing placeholder _).subset hold
    · exact Attribute.mem_names_append_written hmissing placeholder _
        (Props.mem_missing_iff.2 ⟨hprop, hold⟩)
  · intro hequals
    rw [Attribute.names_append_written hmissing hequals _ (Props.nodup_missing _ _), Tag.names_stem]
    intro prop hprop
    rw [Tag.names_stem]
    exact (Props.mem_missing_iff.1 hprop).2

end Tags

theorem tagInsertions_eq_nil (placeholder : Text) {props : List Text} {R : Tag → Tag → Prop}
    {tags tags' : List Tag} (h : List.Forall₂ R tags tags')
    (hR : ∀ tag tag', R tag tag' → ∀ prop ∈ props, prop ∈ tag'.attributes) :
    tagInsertions placeholder props tags' = [] := by
  induction h with
  | nil => rfl
  | @cons tag tag' _ _ htag _ ih =>
    have hnone : tagInsertion? placeholder props tag' = none := by
      rw [tagInsertion?, Tag.missing, Props.missing_eq_nil_iff.2 (hR tag tag' htag)]
      rfl
    rw [tagInsertions, List.filterMap_cons_none hnone]
    exact ih

/-- What is planned for the tags of a component in one document. -/
def tagPlan (placeholder name : Text) (props : List Text) (s : Snapshot) : FilePlan :=
  { snapshot := s
    insertions := tagInsertions placeholder props (Scanner.lexical.findTags s.text name) }

/-- The text of a document once plans have been carried out. -/
def textAfter (plans : List FilePlan) (s : Snapshot) : Except Fault Text :=
  match plans.find? (·.snapshot = s) with
  | some f => f.apply
  | none => .ok s.text

theorem exists_apply_tagPlan {name : Text} (hname : isComponentName name = true)
    (placeholder : Text) (props : List Text) (s : Snapshot) :
    ∃ text, (tagPlan placeholder name props s).apply = .ok text ∧
      Completed placeholder name props s.text text := by
  obtain ⟨text, hcompleted, hfold⟩ := exists_completed hname placeholder props [] s.text
  obtain ⟨hbounds, hordered⟩ := tagInsertions_ordered (.exactly name) placeholder props s.text
  refine ⟨text, ?_, hcompleted⟩
  have happly := FilePlan.apply_insertions s (hordered.imp Int.le_of_lt) hbounds
  exact happly.trans (congrArg Except.ok hfold)

namespace Engine

variable {σ : Type}

/-- Only the built-in scanner is registered at first. -/
theorem lexical_of_lookup {keys : List Text} {key : Text} {scanner : Scanner}
    (h : ((keys.map fun k : Text => (k.toLower, Scanner.lexical)).reverse ++ []).lookup key =
      some scanner) : scanner = .lexical := by
  obtain ⟨l₁, l₂, heq, -⟩ := List.lookup_eq_some_iff.1 h
  have hmem : (key, scanner) ∈ l₁ ++ (key, scanner) :: l₂ := by simp
  rw [← heq, List.append_nil, List.mem_reverse, List.mem_map] at hmem
  obtain ⟨_, -, hentry⟩ := hmem
  exact (Prod.mk.inj hentry).2.symm

theorem lexical_of_forLanguage? {language : Text} {scanner : Scanner}
    (h : Registry.standard.forLanguage? language = some scanner) : scanner = .lexical := by
  rw [Registry.forLanguage?] at h
  split at h
  · cases h
  · exact lexical_of_lookup h

/-- An accepted language that is supported has the built-in scanner. -/
theorem forLanguage?_of_accepts {settings : Settings}
    (hlanguages : settings.languages ⊆ Language.supported) {language : Text}
    (h : settings.accepts language = true) :
    Registry.standard.forLanguage? language = some .lexical := by
  have hknown : ∀ l ∈ Language.supported, (Registry.standard.byLanguage.lookup l).isSome = true := by
    decide +kernel
  rw [Settings.accepts, Bool.and_eq_true, Bool.not_eq_true'] at h
  obtain ⟨scanner, hscanner⟩ :=
    Option.isSome_iff_exists.1 (hknown _ (hlanguages (List.contains_iff_mem.1 h.2)))
  have hfound : Registry.standard.forLanguage? language = some scanner := by
    rw [Registry.forLanguage?, h.1]
    exact hscanner
  rw [hfound, lexical_of_forLanguage? hfound]

theorem scannerFor_standard (host : Host σ) (settings : Settings) (p : Path) :
    scannerFor { host, settings } p = .ok .lexical := by
  have hgetD {found : Option Scanner} (h : ∀ scanner, found = some scanner → scanner = .lexical) :
      found.getD .lexical = .lexical := by
    cases found with
    | none => rfl
    | some scanner => exact h scanner rfl
  have hdefault : Registry.standard.default = .lexical := hgetD fun _ => lexical_of_lookup
  have hsuffix : (Registry.standard.forSuffix? p.suffix).getD .lexical = .lexical :=
    hgetD fun _ => lexical_of_lookup
  simp only [scannerFor, Registry.resolve, Option.bind_some, hdefault, hsuffix]

theorem planFiles_standard (host : Host σ) (settings : Settings) (name : Text) (props : List Text)
    (snapshots : List Snapshot) :
    planFiles { host, settings } name props snapshots =
      .ok ((snapshots.map (tagPlan settings.placeholder name props)).filter
        fun f => !f.insertions.isEmpty) := by
  induction snapshots with
  | nil => rfl
  | cons s rest ih =>
    rw [planFiles, scannerFor_standard, ih]
    simp only [bind, Except.bind, pure, Except.pure, List.map_cons, List.filter_cons, tagPlan]
    split <;> simp_all

theorem textAfter_standard (placeholder name : Text) (props : List Text)
    {snapshots : List Snapshot} {s : Snapshot} (hs : s ∈ snapshots) :
    textAfter ((snapshots.map (tagPlan placeholder name props)).filter
      fun f => !f.insertions.isEmpty) s = (tagPlan placeholder name props s).apply := by
  rw [textAfter]
  split
  · rename_i f hf
    have hplan := List.mem_of_find?_eq_some hf
    have hsnapshot := List.find?_some hf
    obtain ⟨s', -, rfl⟩ := List.mem_map.1 (List.mem_filter.1 hplan).1
    have heq : s' = s := of_decide_eq_true hsnapshot
    rw [heq]
  · rename_i hnone
    have hempty : (tagPlan placeholder name props s).insertions = [] := by
      have hmem : tagPlan placeholder name props s ∈
          snapshots.map (tagPlan placeholder name props) := List.mem_map_of_mem hs
      by_contra hne
      have := List.find?_eq_none.1 hnone _ (List.mem_filter.2 ⟨hmem, by simp [hne]⟩)
      simp [tagPlan] at this
    have heq : tagPlan placeholder name props s = { snapshot := s, insertions := [] } :=
      congrArg (FilePlan.mk s · []) hempty
    rw [heq]
    exact (FilePlan.apply_insertions s .nil (by simp)).symm

/-- Completing the usages of a component in documents. No tag of any component appears, goes away or
loses an attribute, the tags of the component end up with all props, and planning again on the
completed document gives nothing. -/
theorem planFiles_widens_usages (host : Host σ) (settings : Settings) {name : Text}
    (hname : isComponentName name = true) {props : List Text}
    (hprops : ∀ prop ∈ props, isIdentifier prop = true)
    (hplaceholder : ∀ c ∈ settings.placeholder, c ≠ '<' ∧ c ≠ '>') (snapshots : List Snapshot) :
    ∃ plans, planFiles { host, settings } name props snapshots = .ok plans ∧
      ∀ s ∈ snapshots, ∃ text, textAfter plans s = .ok text ∧
        (∀ other, isComponentName other = true →
          List.Forall₂ (fun tag tag' => tag.attributes <+: tag'.attributes)
            (Scanner.lexical.findTags s.text other) (Scanner.lexical.findTags text other)) ∧
        List.Forall₂ (fun tag tag' => (∀ prop ∈ props, prop ∈ tag'.attributes) ∧
            ('=' ∉ settings.placeholder → tag'.attributes = tag.attributes ++ tag.missing props))
          (Scanner.lexical.findTags s.text name) (Scanner.lexical.findTags text name) ∧
        planFiles { host, settings } name props [{ s with text }] = .ok [] := by
  refine ⟨_, planFiles_standard host settings name props snapshots, ?_⟩
  intro s hs
  obtain ⟨text, happly, hcompleted⟩ := exists_apply_tagPlan hname settings.placeholder props s
  have hown := forall₂_attributes_completed hplaceholder hprops hname hcompleted
  refine ⟨text, ?_, ?_, hown, ?_⟩
  · rw [textAfter_standard settings.placeholder name props hs, happly]
  · intro other hother
    exact forall₂_attributes_prefix hplaceholder hprops name hother hcompleted
  · have hnone : tagInsertions settings.placeholder props
        (Scanner.lexical.findTags text name) = [] :=
      tagInsertions_eq_nil settings.placeholder hown fun _ _ h => h.1
    rw [planFiles_standard, List.map_singleton, List.filter_cons_of_neg (by simp [tagPlan, hnone])]
    rfl

/-- A tag of the component inside one of another component, and one that has a prop already. -/
theorem planFiles_widens_usages_nested :
    let host := Workspace.host ⟨.root, []⟩ [] .silent
    let s : Snapshot :=
      ⟨⟨.root, ["a.tsx".toList]⟩, "<Box x=1 <Card>\n<Card title='t'/>".toList, none⟩
    let props := ["title".toList, "size".toList]
    isComponentName "Card".toList = true ∧ (∀ prop ∈ props, isIdentifier prop = true) ∧
      (∀ c ∈ ({} : Settings).placeholder, c ≠ '<' ∧ c ≠ '>') ∧
      ∃ plans text, planFiles { host } "Card".toList props [s] = .ok plans ∧
        textAfter plans s = .ok text ∧
        planFiles { host } "Card".toList props [{ s with text }] = .ok [] := by
  intro host s props
  have hname : isComponentName "Card".toList = true := by decide
  have hprops : ∀ prop ∈ props, isIdentifier prop = true := by decide
  have hplaceholder : ∀ c ∈ ({} : Settings).placeholder, c ≠ '<' ∧ c ≠ '>' := by simp
  obtain ⟨plans, hplans, htexts⟩ := planFiles_widens_usages host {} hname hprops hplaceholder [s]
  obtain ⟨text, htext, -, -, hagain⟩ := htexts s List.mem_cons_self
  exact ⟨hname, hprops, hplaceholder, plans, text, hplans, htext, hagain⟩

end Engine

end Sync

end PropAccord
