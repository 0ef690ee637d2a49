import Mathlib.Data.List.TakeWhile
import PropAccord.Component.Name
import PropAccord.Text.Blank

/-!
# Characters of names

Names consist of ASCII word characters. None of them is blank or a mark of the syntax, so a name
ends where a mark or a blank stands, and a word boundary lies there.
-/

namespace PropAccord

set_option autoImplicit false

theorem isNameChar_iff {c : Char} : isNameChar c = true ↔
    (48 ≤ c.toNat ∧ c.toNat ≤ 57) ∨ (65 ≤ c.toNat ∧ c.toNat ≤ 90) ∨ c.toNat = 95 ∨
      (97 ≤ c.toNat ∧ c.toNat ≤ 122) := by
  have hunderscore : c = '_' ↔ c.toNat = 95 := by
    rw [← Char.toNat_inj]
    rfl
  have hupper : c.isUpper = true ↔ 65 ≤ c.toNat ∧ c.toNat ≤ 90 := decide_eq_true_iff
  have hlower : c.isLower = true ↔ 97 ≤ c.toNat ∧ c.toNat ≤ 122 :=
    Bool.and_eq_true_iff.trans (and_congr decide_eq_true_iff decide_eq_true_iff)
  have hdigit : c.isDigit = true ↔ 48 ≤ c.toNat ∧ c.toNat ≤ 57 :=
    Bool.and_eq_true_iff.trans (and_congr decide_eq_true_iff decide_eq_true_iff)
  have hchar : isNameChar c = (c.isUpper || c.isLower || c.isDigit || c == '_') := rfl
  rw [hchar, Bool.or_eq_true, Bool.or_eq_true, Bool.or_eq_true, beq_iff_eq, hupper, hlower, hdigit,
    hunderscore]
  omega

theorem isWordChar_of_isNameChar {c : Char} (h : isNameChar c = true) : isWordChar c = true := by
  have hc := isNameChar_iff.1 h
  rw [isWordChar, if_pos (by omega)]
  exact h

theorem not_isBlank_of_isNameChar {c : Char} (h : isNameChar c = true) : isBlank c = false := by
  have hc := isNameChar_iff.1 h
  simp only [isBlank, Bool.or_eq_false_iff, Bool.and_eq_false_iff, decide_eq_false_iff_not,
    beq_eq_false_iff_ne]
  omega

theorem isNameChar_eq_false_of_isBlank {c : Char} (h : isBlank c = true) : isNameChar c = false :=
  Bool.eq_false_iff.2 fun hc => by
    rw [not_isBlank_of_isNameChar hc] at h
    cases h

theorem not_mem_of_all_isNameChar {name : Text} {d : Char} (h : ∀ c ∈ name, isNameChar c = true)
    (hd : isNameChar d = false) : d ∉ name := by
  intro hm
  simp [h d hm] at hd

theorem isNameChar_of_starts {c : Char} (h : (c.isAlpha || c == '_') = true) :
    isNameChar c = true := by
  rcases Bool.or_eq_true_iff.1 h with h | h
  · exact Bool.or_eq_true_iff.2 (Or.inl (Bool.or_eq_true_iff.2 (Or.inl h)))
  · exact Bool.or_eq_true_iff.2 (Or.inr h)

theorem isNameChar_of_mem_identifier {name : Text} (h : isIdentifier name = true) :
    ∀ c ∈ name, isNameChar c = true := by
  cases name with
  | nil => simp
  | cons c rest =>
    simp only [isIdentifier, Bool.and_eq_true, List.all_eq_true] at h
    intro d hd
    rcases List.mem_cons.1 hd with rfl | hd
    · exact isNameChar_of_starts h.1
    · exact h.2 d hd

theorem not_mem_of_isIdentifier {name : Text} (h : isIdentifier name = true) {c : Char}
    (hc : isNameChar c = false) : c ∉ name :=
  not_mem_of_all_isNameChar (isNameChar_of_mem_identifier h) hc

theorem isIdentifier_of_isComponentName {name : Text} (h : isComponentName name = true) :
    isIdentifier name = true := by
  cases name with
  | nil => simp [isComponentName] at h
  | cons c rest =>
    obtain ⟨hfirst, hrest⟩ := Bool.and_eq_true_iff.1 h
    have halpha : c.isAlpha = true := Bool.or_eq_true_iff.2 (Or.inl hfirst)
    simp only [isIdentifier, halpha, hrest, Bool.true_or, Bool.and_true]

theorem isNameChar_of_mem_componentName {name : Text} (h : isComponentName name = true) :
    ∀ c ∈ name, isNameChar c = true :=
  isNameChar_of_mem_identifier (isIdentifier_of_isComponentName h)

theorem not_mem_of_isComponentName {name : Text} (h : isComponentName name = true) {c : Char}
    (hc : isNameChar c = false) : c ∉ name :=
  not_mem_of_isIdentifier (isIdentifier_of_isComponentName h) hc

theorem identifier_ne_nil {name : Text} (h : isIdentifier name = true) : name ≠ [] := by
  rintro rfl
  simp [isIdentifier] at h

theorem isComponentName_of_read? {text name rest : Text}
    (h : NamePattern.read? .anyComponent text = some (name, rest)) : isComponentName name = true := by
  cases text with
  | nil => cases h
  | cons c text =>
    rw [NamePattern.read?] at h
    split at h
    · rename_i hupper
      obtain ⟨rfl, -⟩ := Prod.mk.inj (Option.some.inj h)
      rw [isComponentName, hupper, Bool.true_and]
      exact List.all_eq_true.2 fun _ hc => List.mem_takeWhile_imp hc
    · cases h

/-- Behind a component name a word boundary lies unless a word character follows. -/
theorem isBoundary_after_componentName {name : Text} (h : isComponentName name = true) (c : Char)
    (next : Option Char) :
    isBoundary ((c :: name).getLast?) next = !next.any isWordChar := by
  have hne := identifier_ne_nil (isIdentifier_of_isComponentName h)
  have hlast := isWordChar_of_isNameChar
    (isNameChar_of_mem_componentName h _ (List.getLast_mem hne))
  rw [List.getLast?_cons_of_ne_nil hne, List.getLast?_eq_some_getLast hne, isBoundary,
    Option.any_some, hlast, Bool.true_bne]

/-- A component name is read to its end where no name goes on. -/
theorem NamePattern.read?_anyComponent {name : Text} (hname : isComponentName name = true)
    {rest : Text} (h : ∀ c ∈ rest.head?, isNameChar c = false) :
    NamePattern.anyComponent.read? (name ++ rest) = some (name, rest) := by
  cases name with
  | nil => cases hname
  | cons c name =>
    rw [isComponentName, Bool.and_eq_true, List.all_eq_true] at hname
    have hstop : rest.takeWhile isNameChar = [] ∧ rest.dropWhile isNameChar = rest := by
      cases rest with
      | nil => exact ⟨rfl, rfl⟩
      | cons d rest =>
        have hd : ¬ isNameChar d = true := Bool.eq_false_iff.1 (h d rfl)
        exact ⟨List.takeWhile_cons_of_neg hd, List.dropWhile_cons_of_neg hd⟩
    rw [List.cons_append, NamePattern.read?, if_pos hname.1, List.takeWhile_append_of_pos hname.2,
      List.dropWhile_append_of_pos hname.2, hstop.1, hstop.2, List.append_nil]

end PropAccord
