import PropAccord.Proofs.KeptTags

/-!
# Tags that lie apart

Tags of two components overlap exactly where they stand in one piece of the text, since they end
together there. Where none do, each piece has a tag of one component at most, so completing the tags of
one leaves the pieces of the other as they are, wherever these have moved to. So the two can be completed
in either order, and any number of components in any order.
-/

namespace PropAccord

set_option autoImplicit false

namespace Tag

/-- No tag of the one component overlaps a tag of the other. -/
def Apart (name other t : Text) : Prop :=
  ∀ tag ∈ Scanner.lexical.findTags t name, ∀ tag' ∈ Scanner.lexical.findTags t other,
    tag.stop ≤ tag'.start ∨ tag'.stop ≤ tag.start

/-- No piece of the text has tags of both components. -/
inductive Separate (name other : Text) : Text → Prop
  | last {t : Text} : '>' ∉ t → Separate name other t
  | piece {p rest : Text} : '>' ∉ p → inPiece? name p = none ∨ inPiece? other p = none →
    Separate name other rest → Separate name other (p ++ '>' :: rest)

theorem Separate.symm {name other t : Text} (h : Separate name other t) : Separate other name t := by
  induction h with
  | last ht => exact .last ht
  | piece hp hnone _ ih => exact .piece hp hnone.symm ih

/-- The tag in a piece stands inside it and takes it up to its end, with the closing bracket. -/
theorem length_of_inPiece? {name piece body : Text} {n : Nat}
    (h : inPiece? name piece = some (n, body)) (rest : Text) :
    n + Reading.length ⟨name, stem body, slashed body, rest⟩ = piece.length + 1 := by
  obtain ⟨before, rfl, rfl⟩ := inPiece?_eq_some h
  have hstem := length_stem body
  simp only [Reading.length, List.length_append, List.length_cons]
  omega

theorem separate_of_apart {name other : Text} (hname : isComponentName name = true)
    (hother : isComponentName other = true) {t : Text} (h : Apart name other t) :
    Separate name other t := by
  change ∀ tag ∈ scanFrom (.exactly name) 0 t, ∀ tag' ∈ scanFrom (.exactly other) 0 t,
    tag.stop ≤ tag'.start ∨ tag'.stop ≤ tag.start at h
  generalize 0 = offset at h
  induction t using Text.pieces_induction '>' generalizing offset with
  | last t ht => exact .last ht
  | piece p rest hp ih =>
    rw [scanFrom_append hname hp, scanFrom_append hother hp] at h
    refine .piece hp ?_ (ih _ fun tag htag tag' htag' =>
      h tag (List.mem_append_right _ htag) tag' (List.mem_append_right _ htag'))
    cases hfirst : inPiece? name p with
    | none => exact Or.inl rfl
    | some found =>
      cases hsecond : inPiece? other p with
      | none => exact Or.inr rfl
      | some found' =>
        obtain ⟨n, body⟩ := found
        obtain ⟨n', body'⟩ := found'
        have hlength := length_of_inPiece? hfirst rest
        have hlength' := length_of_inPiece? hsecond rest
        have hpositive : 1 ≤ Reading.length ⟨name, stem body, slashed body, rest⟩ := by
          simp only [Reading.length]
          omega
        have hpositive' : 1 ≤ Reading.length ⟨other, stem body', slashed body', rest⟩ := by
          simp only [Reading.length]
          omega
        have hover := h (Reading.tag ⟨name, stem body, slashed body, rest⟩ (offset + n))
          (List.mem_append_left _ (by rw [hfirst]; exact List.mem_singleton_self _))
          (Reading.tag ⟨other, stem body', slashed body', rest⟩ (offset + n'))
          (List.mem_append_left _ (by rw [hsecond]; exact List.mem_singleton_self _))
        simp only [Reading.tag] at hover
        omega

end Tag

namespace Sync

/-! ## One component -/

section

variable {placeholder name : Text} {props : List Text}

theorem Completed.total (hname : isComponentName name = true) (placeholder : Text)
    (props : List Text) (t : Text) : ∃ t', Completed placeholder name props t t' := by
  obtain ⟨t', ht', -⟩ := exists_completed hname placeholder props [] t
  exact ⟨t', ht'⟩

theorem completedPiece_of_eq_none {piece : Text} (h : Tag.inPiece? name piece = none) :
    completedPiece placeholder name props piece = piece := by
  rw [completedPiece, insertedIn, h, Tag.grown_nil_left]

end

/-! ## Two components -/

section

variable {placeholder : Text} (hplaceholder : ∀ c ∈ placeholder, c ≠ '<' ∧ c ≠ '>')
include hplaceholder

/-- Completing the tags of one component gives no piece a tag of another. -/
theorem inPiece?_completedPiece {props : List Text} (hprops : ∀ prop ∈ props, isIdentifier prop = true)
    {other : Text} (hother : isComponentName other = true) {piece : Text}
    (h : Tag.inPiece? other piece = none) (name : Text) :
    Tag.inPiece? other (completedPiece placeholder name props piece) = none := by
  rw [completedPiece, Tag.inPiece?_grown (insertable_insertedIn hplaceholder hprops name piece) hother,
    h, Option.map_none]

theorem Completed.separate {props : List Text} (hprops : ∀ prop ∈ props, isIdentifier prop = true)
    {name other third t t' : Text} (hname : isComponentName name = true)
    (hother : isComponentName other = true) (hseparate : Tag.Separate name other t)
    (h : Completed placeholder third props t t') : Tag.Separate name other t' := by
  induction hseparate generalizing t' with
  | last ht =>
    cases h with
    | last => exact .last ht
    | piece => exact absurd (List.mem_append_right _ List.mem_cons_self) ht
  | piece hp hnone _ ih =>
    obtain ⟨rest', hrest', rfl⟩ := h.of_append hp
    refine .piece (not_mem_completedPiece hplaceholder hprops hp third) ?_ (ih hrest')
    exact hnone.imp (inPiece?_completedPiece hplaceholder hprops hname · third)
      (inPiece?_completedPiece hplaceholder hprops hother · third)

variable {name other : Text} (hname : isComponentName name = true)
  (hother : isComponentName other = true) {props others : List Text}
  (hprops : ∀ prop ∈ props, isIdentifier prop = true)
  (hothers : ∀ prop ∈ others, isIdentifier prop = true)
include hname hother hprops hothers

theorem completedPiece_comm {piece : Text}
    (h : Tag.inPiece? name piece = none ∨ Tag.inPiece? other piece = none) :
    completedPiece placeholder other others (completedPiece placeholder name props piece) =
      completedPiece placeholder name props (completedPiece placeholder other others piece) := by
  rcases h with h | h
  · have hstill := inPiece?_completedPiece hplaceholder hothers hname h other
    rw [completedPiece_of_eq_none h, completedPiece_of_eq_none hstill]
  · have hstill := inPiece?_completedPiece hplaceholder hprops hother h name
    rw [completedPiece_of_eq_none h, completedPiece_of_eq_none hstill]

/-- Two components whose tags stand in different pieces are completed in either order. -/
theorem exists_completed_both {t : Text} (h : Tag.Separate name other t) :
    ∃ first second both, Completed placeholder name props t first ∧
      Completed placeholder other others first both ∧ Completed placeholder other others t second ∧
      Completed placeholder name props second both := by
  induction h with
  | @last t ht => exact ⟨t, t, t, .last ht, .last ht, .last ht, .last ht⟩
  | @piece p rest hp hnone _ ih =>
    obtain ⟨first, second, both, hfirst, hthen, hsecond, hthen'⟩ := ih
    refine ⟨_, _, _, .piece hp hfirst,
      .piece (not_mem_completedPiece hplaceholder hprops hp name) hthen, .piece hp hsecond, ?_⟩
    rw [completedPiece_comm hplaceholder hname hother hprops hothers hnone]
    exact .piece (not_mem_completedPiece hplaceholder hothers hp other) hthen'

end

/-! ## Any number of components -/

/-- A text and what it becomes when the tags of the components defined are completed, those of the first
definition first. -/
inductive CompletedBy (placeholder : Text) : List Definition → Text → Text → Prop
  | nil {t : Text} : CompletedBy placeholder [] t t
  | cons {d : Definition} {rest : List Definition} {t t₁ t' : Text} :
    Completed placeholder d.name d.props t t₁ → CompletedBy placeholder rest t₁ t' →
    CompletedBy placeholder (d :: rest) t t'

/-- Definitions of components that have no tags in one piece, each with props that are identifiers. -/
structure Independent (definitions : List Definition) (t : Text) : Prop where
  named : ∀ d ∈ definitions, isComponentName d.name = true
  identifiers : ∀ d ∈ definitions, ∀ prop ∈ d.props, isIdentifier prop = true
  separate : definitions.Pairwise fun d d' => Tag.Separate d.name d'.name t

theorem Independent.tail {d : Definition} {rest : List Definition} {t : Text}
    (h : Independent (d :: rest) t) : Independent rest t :=
  ⟨fun d' hd' => h.named d' (List.mem_cons_of_mem d hd'),
    fun d' hd' => h.identifiers d' (List.mem_cons_of_mem d hd'), (List.pairwise_cons.1 h.separate).2⟩

theorem Independent.perm {definitions definitions' : List Definition} {t : Text}
    (h : Independent definitions t) (hperm : definitions.Perm definitions') :
    Independent definitions' t :=
  ⟨fun d hd => h.named d (hperm.mem_iff.2 hd), fun d hd => h.identifiers d (hperm.mem_iff.2 hd),
    (hperm.pairwise_iff fun hpair => hpair.symm).1 h.separate⟩

section

variable {placeholder : Text} (hplaceholder : ∀ c ∈ placeholder, c ≠ '<' ∧ c ≠ '>')
include hplaceholder

theorem Independent.completed {definitions : List Definition} {name : Text} {props : List Text}
    (hprops : ∀ prop ∈ props, isIdentifier prop = true) {t t' : Text} (h : Independent definitions t)
    (hcompleted : Completed placeholder name props t t') : Independent definitions t' :=
  ⟨h.named, h.identifiers, h.separate.imp_of_mem fun hd hd' hseparate =>
    hcompleted.separate hplaceholder hprops (h.named _ hd) (h.named _ hd') hseparate⟩

omit hplaceholder in
theorem CompletedBy.unique {definitions : List Definition} {t t₁ t₂ : Text}
    (h₁ : CompletedBy placeholder definitions t t₁) (h₂ : CompletedBy placeholder definitions t t₂) :
    t₁ = t₂ := by
  induction h₁ with
  | nil =>
    cases h₂
    rfl
  | cons hfirst₁ _ ih =>
    cases h₂ with
    | cons hfirst₂ hrest₂ =>
      obtain rfl := hfirst₁.unique hfirst₂
      exact ih hrest₂

omit hplaceholder in
theorem CompletedBy.total {definitions : List Definition}
    (hnames : ∀ d ∈ definitions, isComponentName d.name = true) (t : Text) :
    ∃ t', CompletedBy placeholder definitions t t' := by
  induction definitions generalizing t with
  | nil => exact ⟨t, .nil⟩
  | cons d rest ih =>
    obtain ⟨t₁, ht₁⟩ := Completed.total (hnames d List.mem_cons_self) placeholder d.props t
    obtain ⟨t', ht'⟩ := ih (fun d' hd' => hnames d' (List.mem_cons_of_mem d hd')) t₁
    exact ⟨t', .cons ht₁ ht'⟩

/-- In whatever order independent components are completed, the text becomes the same. -/
theorem CompletedBy.eq_of_perm {definitions definitions' : List Definition}
    (hperm : definitions.Perm definitions') {t t₁ t₂ : Text} (h : Independent definitions t)
    (h₁ : CompletedBy placeholder definitions t t₁) (h₂ : CompletedBy placeholder definitions' t t₂) :
    t₁ = t₂ := by
  induction hperm generalizing t t₁ t₂ with
  | nil =>
    cases h₁
    cases h₂
    rfl
  | cons d _ ih =>
    cases h₁ with
    | cons hfirst₁ hrest₁ =>
      cases h₂ with
      | cons hfirst₂ hrest₂ =>
        obtain rfl := hfirst₁.unique hfirst₂
        exact ih (h.tail.completed hplaceholder (h.identifiers d List.mem_cons_self) hfirst₁)
          hrest₁ hrest₂
  | swap d d' rest =>
    cases h₁ with
    | cons hfirst₁ hthen₁ =>
      cases hthen₁ with
      | cons hsecond₁ hrest₁ =>
        cases h₂ with
        | cons hfirst₂ hthen₂ =>
          cases hthen₂ with
          | cons hsecond₂ hrest₂ =>
            have hd' := List.mem_cons_self (a := d') (l := d :: rest)
            have hd := List.mem_cons_of_mem d' (List.mem_cons_self (a := d) (l := rest))
            obtain ⟨first, second, both, hfirst, hthen, hsecond, hthen'⟩ :=
              exists_completed_both hplaceholder (h.named d' hd') (h.named d hd)
                (h.identifiers d' hd') (h.identifiers d hd)
                ((List.pairwise_cons.1 h.separate).1 d List.mem_cons_self)
            obtain rfl := hfirst.unique hfirst₁
            obtain rfl := hthen.unique hsecond₁
            obtain rfl := hsecond.unique hfirst₂
            obtain rfl := hthen'.unique hsecond₂
            exact hrest₁.unique hrest₂
  | trans hleft _ ih ih' =>
    obtain ⟨t₀, h₀⟩ := CompletedBy.total (h.perm hleft).named t
    exact (ih h h₁ h₀).trans (ih' (h.perm hleft) h₀ h₂)

end

end Sync

end PropAccord
