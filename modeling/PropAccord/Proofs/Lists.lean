import Mathlib.Data.List.Forall2

/-!
# Lists

Lists that are compared member by member, members that a function is defined on, and lists whose members
are handled one after the other, which stops at the first fault.
-/

namespace PropAccord

set_option autoImplicit false

section

variable {α β : Type}

theorem forall₂_trans {R S T : α → α → Prop} (hT : ∀ a b c, R a b → S b c → T a c) {l₁ l₂ l₃ : List α}
    (h : List.Forall₂ R l₁ l₂) (h' : List.Forall₂ S l₂ l₃) : List.Forall₂ T l₁ l₃ := by
  induction h generalizing l₃ with
  | nil =>
    cases h'
    exact .nil
  | cons hab _ ih =>
    cases h' with
    | cons hbc hrest => exact .cons (hT _ _ _ hab hbc) (ih hrest)

theorem exists_of_forall₂_of_mem {R : α → β → Prop} {l₁ : List α} {l₂ : List β}
    (h : List.Forall₂ R l₁ l₂) {b : β} (hb : b ∈ l₂) : ∃ a ∈ l₁, R a b := by
  induction h with
  | nil => cases hb
  | cons hR _ ih =>
    rcases List.mem_cons.1 hb with rfl | hb
    · exact ⟨_, List.mem_cons_self, hR⟩
    · obtain ⟨a, ha, hab⟩ := ih hb
      exact ⟨a, List.mem_cons_of_mem _ ha, hab⟩

theorem map_filterMap_sublist {f : α → Option β} {g : β → α}
    (h : ∀ a b, f a = some b → g b = a) (l : List α) : ((l.filterMap f).map g).Sublist l := by
  induction l with
  | nil => exact .slnil
  | cons a rest ih =>
    cases ha : f a with
    | none =>
      rw [List.filterMap_cons_none ha]
      exact ih.cons a
    | some b =>
      rw [List.filterMap_cons_some ha, List.map_cons, h a b ha]
      exact ih.cons_cons a

theorem findSome?_eq_ite {p : α → Bool} {result : Option β} {f : α → Option β}
    {rests : List α} (h : ∀ a ∈ rests, f a = if p a then result else none) :
    rests.findSome? f = if rests.any p then result else none := by
  induction rests with
  | nil => rfl
  | cons a rests ih =>
    rw [List.findSome?_cons, List.any_cons, h a List.mem_cons_self,
      ih fun b hb => h b (List.mem_cons_of_mem a hb)]
    cases p a <;> cases result <;> simp

end

section

variable {ε α β : Type} {f : α → Except ε β} {l : List α}

theorem exists_mapM_forall₂ {R : α → β → Prop} (h : ∀ a ∈ l, ∃ b, f a = .ok b ∧ R a b) :
    ∃ bs, l.mapM f = .ok bs ∧ List.Forall₂ R l bs := by
  induction l with
  | nil => exact ⟨[], rfl, .nil⟩
  | cons a rest ih =>
    obtain ⟨b, hb, hab⟩ := h a List.mem_cons_self
    obtain ⟨bs, hbs, hrest⟩ := ih fun a' ha' => h a' (List.mem_cons_of_mem a ha')
    refine ⟨b :: bs, ?_, .cons hab hrest⟩
    rw [List.mapM_cons, hb, hbs]
    rfl

theorem mapM_eq_ok_map {g : α → β} (h : ∀ a ∈ l, f a = .ok (g a)) : l.mapM f = .ok (l.map g) := by
  obtain ⟨bs, hbs, hmap⟩ := exists_mapM_forall₂ fun a ha => ⟨g a, h a ha, Eq.refl (g a)⟩
  have hsame : List.Forall₂ Eq (l.map g) bs := List.forall₂_map_left_iff.2 hmap
  rw [List.forall₂_eq_eq_eq] at hsame
  rw [hbs, hsame]

theorem mapM_eq_some_map {f : α → Option β} {g : α → β} (h : ∀ a ∈ l, f a = some (g a)) :
    l.mapM f = some (l.map g) := by
  induction l with
  | nil => rfl
  | cons a rest ih =>
    rw [List.mapM_cons, h a List.mem_cons_self, ih fun a' ha' => h a' (List.mem_cons_of_mem a ha')]
    rfl

theorem forall₂_of_mapM_eq_ok {R : α → β → Prop} {results : List β} (h : l.mapM f = .ok results)
    (hR : ∀ a ∈ l, ∀ b, f a = .ok b → R a b) : List.Forall₂ R l results := by
  induction l generalizing results with
  | nil =>
    cases h
    exact .nil
  | cons a rest ih =>
    rw [List.mapM_cons] at h
    cases ha : f a with
    | error fault =>
      rw [ha] at h
      cases h
    | ok b =>
      cases hrest : rest.mapM f with
      | error fault =>
        rw [ha, hrest] at h
        cases h
      | ok others =>
        rw [ha, hrest] at h
        cases h
        exact .cons (hR a List.mem_cons_self b ha)
          (ih hrest fun a' ha' => hR a' (List.mem_cons_of_mem a ha'))

theorem exists_eq_ok_of_mapM_eq_ok {results : List β} (h : l.mapM f = .ok results) {a : α}
    (ha : a ∈ l) : ∃ b, f a = .ok b := by
  have hresults := forall₂_of_mapM_eq_ok (R := fun a b => f a = .ok b) h fun _ _ _ hb => hb
  obtain ⟨b, -, hb⟩ := exists_of_forall₂_of_mem hresults.flip ha
  exact ⟨b, hb⟩

end

end PropAccord
