import PropAccord.Proofs.Completion
import PropAccord.Proofs.Places

/-!
# Line ends of completed texts

A text in memory has line feeds only, and a file that was written is read with line feeds for all its
line ends. A placeholder may have carriage returns, so a completed text need not be read back as it was
written. What is put into a tag begins with a blank and stands before a slash or a bracket, so no line
end reaches beyond it: the text is read back as one completed with the placeholder as that is read.
-/

namespace PropAccord

set_option autoImplicit false

namespace Text

theorem mem_of_mem_unifyNewlines {t : Text} {c : Char} (h : c ∈ unifyNewlines t) :
    c = '\n' ∨ c ∈ t := by
  fun_induction unifyNewlines t with
  | case1 => exact Or.inr h
  | case2 rest ih =>
    rcases List.mem_cons.1 h with rfl | h
    · exact Or.inl rfl
    · exact (ih h).imp_right fun hc => List.mem_cons_of_mem _ (List.mem_cons_of_mem _ hc)
  | case3 rest hnext ih =>
    rcases List.mem_cons.1 h with rfl | h
    · exact Or.inl rfl
    · exact (ih h).imp_right (List.mem_cons_of_mem _)
  | case4 d rest hpair hreturn ih =>
    rcases List.mem_cons.1 h with rfl | h
    · exact Or.inr List.mem_cons_self
    · exact (ih h).imp_right (List.mem_cons_of_mem _)

theorem unifyNewlines_append_of_not_mem {s : Text} (h : '\r' ∉ s) (t : Text) :
    unifyNewlines (s ++ t) = s ++ unifyNewlines t := by
  induction s with
  | nil => rfl
  | cons c s ih =>
    rw [List.mem_cons, not_or] at h
    rw [List.cons_append, unifyNewlines_cons fun _ hc => absurd hc.symm h.1, if_neg (Ne.symm h.1),
      ih h.2]
    rfl

/-- No line end is cut in two in front of a text that does not begin with a line feed. -/
theorem unifyNewlines_append (s : Text) {t : Text} (h : '\n' ∉ t.head?) :
    unifyNewlines (s ++ t) = unifyNewlines s ++ unifyNewlines t := by
  have hseam {s : Text} (hs : ∀ rest, s ≠ '\n' :: rest) : ∀ rest, s ++ t ≠ '\n' :: rest := by
    rintro rest heq
    cases s with
    | nil =>
      obtain rfl : t = '\n' :: rest := heq
      exact h rfl
    | cons c s => exact hs s (by rw [(List.cons.inj heq).1])
  fun_induction unifyNewlines s with
  | case1 => rfl
  | case2 rest ih => rw [List.cons_append, List.cons_append, unifyNewlines, ih]; rfl
  | case3 rest hnext ih =>
    rw [List.cons_append, unifyNewlines_cons fun rest' _ => hseam hnext rest', ih]
    rfl
  | case4 c rest hpair hreturn ih =>
    rw [List.cons_append, unifyNewlines_cons fun _ hc => absurd hc hreturn, if_neg hreturn, ih]
    rfl

end Text

namespace Sync

theorem Completed.not_mem {placeholder name : Text} {props : List Text} {c : Char}
    (hplaceholder : c ∉ placeholder) (hprops : ∀ prop ∈ props, c ∉ prop) (hspace : c ≠ ' ')
    (hequals : c ≠ '=') {t t' : Text} (h : Completed placeholder name props t t') (ht : c ∉ t) :
    c ∉ t' := by
  induction h with
  | last => exact ht
  | @piece p rest rest' hp _ ih =>
    rw [List.mem_append, not_or] at ht
    have hinserted : c ∉ insertedIn placeholder name props p := by
      rw [insertedIn]
      split
      · rename_i body _
        intro hmem
        rcases mem_of_mem_attributes hmem with hc | hc | hc | ⟨prop, hprop, hc⟩
        · exact hspace hc
        · exact hequals hc
        · exact hplaceholder hc
        · exact hprops prop (Props.mem_missing_iff.1 hprop).1 hc
      · exact List.not_mem_nil
    intro hmem
    rcases List.mem_append.1 hmem with hmem | hmem
    · exact (Tag.mem_grown hmem).elim hinserted ht.1
    · rcases List.mem_cons.1 hmem with rfl | hmem
      · exact ht.2 List.mem_cons_self
      · exact ih (fun hc => ht.2 (List.mem_cons_of_mem _ hc)) hmem

theorem unifyNewlines_attributes (placeholder : Text) {names : List Text}
    (hnames : ∀ name ∈ names, '\r' ∉ name) {t : Text} (ht : '\n' ∉ t.head?) :
    Text.unifyNewlines (names.flatMap (attributeText placeholder) ++ t) =
      names.flatMap (attributeText placeholder.unifyNewlines) ++ t.unifyNewlines := by
  induction names with
  | nil => rfl
  | cons name rest ih =>
    have hrest := ih fun other hother => hnames other (List.mem_cons_of_mem name hother)
    have hhead : '\n' ∉ (rest.flatMap (attributeText placeholder) ++ t).head? := by
      cases rest with
      | nil => exact ht
      | cons other rest => simp [attributeText]
    have hfront : '\r' ∉ ' ' :: (name ++ ['=']) := by
      simpa using hnames name List.mem_cons_self
    have hsplit (value rest : Text) :
        attributeText value name ++ rest = ' ' :: (name ++ ['=']) ++ (value ++ rest) := by
      simp [attributeText]
    rw [List.flatMap_cons, List.flatMap_cons, List.append_assoc, List.append_assoc, hsplit, hsplit,
      Text.unifyNewlines_append_of_not_mem hfront, Text.unifyNewlines_append _ hhead, hrest]

theorem unifyNewlines_unbracketed {placeholder : Text} (h : ∀ c ∈ placeholder, c ≠ '<' ∧ c ≠ '>') :
    ∀ c ∈ placeholder.unifyNewlines, c ≠ '<' ∧ c ≠ '>' := by
  intro c hc
  rcases Text.mem_of_mem_unifyNewlines hc with rfl | hc
  · exact ⟨by decide, by decide⟩
  · exact h c hc

section

variable {props : List Text} (hprops : ∀ prop ∈ props, '\r' ∉ prop)
include hprops

theorem unifyNewlines_completedPiece (placeholder name : Text) {piece : Text} (hpiece : '\r' ∉ piece)
    (rest : Text) :
    Text.unifyNewlines (completedPiece placeholder name props piece ++ '>' :: rest) =
      completedPiece placeholder.unifyNewlines name props piece ++ '>' :: Text.unifyNewlines rest := by
  have hstem : '\r' ∉ Tag.stem piece := fun hc =>
    hpiece (Tag.stem_append_slash piece ▸ List.mem_append_left _ hc)
  -- What is put in stands between the stem of the piece and its end mark.
  obtain ⟨mark, hsplit, hmark, hhead⟩ : ∃ mark : Text,
      (∀ inserted after, Tag.grown inserted piece ++ '>' :: after =
        Tag.stem piece ++ (inserted ++ (mark ++ after))) ∧
      '\r' ∉ mark ∧ ∀ after : Text, '\n' ∉ (mark ++ after).head? := by
    refine ⟨(if Tag.slashed piece then ['/'] else []) ++ ['>'], fun _ _ => by simp [Tag.grown], ?_, ?_⟩
    · split <;> decide
    · split <;> simp
  have hinserted : Text.unifyNewlines (insertedIn placeholder name props piece ++ (mark ++ rest)) =
      insertedIn placeholder.unifyNewlines name props piece ++ Text.unifyNewlines (mark ++ rest) := by
    rw [insertedIn, insertedIn]
    split
    · exact unifyNewlines_attributes placeholder
        (fun prop hprop => hprops prop (Props.mem_missing_iff.1 hprop).1) (hhead rest)
    · rfl
  rw [completedPiece, completedPiece, hsplit, hsplit, Text.unifyNewlines_append_of_not_mem hstem,
    hinserted, Text.unifyNewlines_append_of_not_mem hmark]

/-- A completed text is read back as one that was completed with the placeholder as that is read. -/
theorem Completed.unifyNewlines {placeholder name t t' : Text}
    (h : Completed placeholder name props t t') (ht : '\r' ∉ t) :
    Completed placeholder.unifyNewlines name props t t'.unifyNewlines := by
  induction h with
  | last hlast =>
    rw [Text.unifyNewlines_of_not_mem ht]
    exact .last hlast
  | @piece p rest rest' hp _ ih =>
    rw [List.mem_append, List.mem_cons, not_or, not_or] at ht
    rw [unifyNewlines_completedPiece hprops placeholder name ht.1]
    exact .piece hp (ih ht.2.2)

end

end Sync

end PropAccord
