/-!
# Texts

A text is the list of its characters, so that every offset, length and column in this library
counts characters. Names of components and of props are texts as well. Characters are Unicode scalar
values: a text with a surrogate that stands alone, which UTF-8 has no bytes for, is left out.
-/

namespace PropAccord

set_option autoImplicit false

abbrev Text := List Char

namespace Text

def join (separator : Text) (parts : List Text) : Text := separator.intercalate parts

theorem mem_join {separator : Text} {parts : List Text} {c : Char} (h : c ∈ join separator parts) :
    c ∈ separator ∨ ∃ part ∈ parts, c ∈ part := by
  induction parts with
  | nil => cases h
  | cons first rest ih =>
    cases rest with
    | nil =>
      rw [join, List.intercalate_singleton] at h
      exact Or.inr ⟨first, List.mem_cons_self, h⟩
    | cons second rest =>
      rw [join, List.intercalate_cons_cons, List.append_assoc, List.mem_append, List.mem_append] at h
      rcases h with h | h | h
      · exact Or.inr ⟨first, List.mem_cons_self, h⟩
      · exact Or.inl h
      · rcases ih h with h | ⟨part, hpart, h⟩
        · exact Or.inl h
        · exact Or.inr ⟨part, List.mem_cons_of_mem first hpart, h⟩

theorem mem_of_mem_splitOn {mark c : Char} {text part : Text} (h : part ∈ text.splitOn mark)
    (hc : c ∈ part) : c ∈ text := by
  induction text generalizing part with
  | nil =>
    simp only [List.splitOn, List.splitOnP_nil, List.mem_singleton] at h
    simp [h] at hc
  | cons d rest ih =>
    simp only [List.splitOn, List.splitOnP_cons_eq_if_modifyHead] at h
    split at h
    · rcases List.mem_cons.1 h with rfl | h
      · simp at hc
      · exact List.mem_cons_of_mem d (ih h hc)
    · cases hs : List.splitOnP (· == mark) rest with
      | nil => simp [hs] at h
      | cons first others =>
        simp only [hs, List.modifyHead_cons, List.mem_cons] at h
        rcases h with rfl | h
        · rcases List.mem_cons.1 hc with rfl | hc
          · exact List.mem_cons_self
          · exact List.mem_cons_of_mem d (ih (by simp [List.splitOn, hs]) hc)
        · exact List.mem_cons_of_mem d (ih (by simp [List.splitOn, hs, h]) hc)

/-- The characters before the first `mark`, all of them when there is none. -/
def before (mark : Char) (t : Text) : Text := t.takeWhile (· ≠ mark)

/-- What follows `token` when the text begins with it. -/
def after? : (token text : Text) → Option Text
  | [], text => some text
  | _ :: _, [] => none
  | a :: token, c :: text => if a = c then after? token text else none

theorem after?_eq_some_iff {token text rest : Text} :
    after? token text = some rest ↔ text = token ++ rest := by
  induction token generalizing text with
  | nil => simp [after?]
  | cons a token ih =>
    cases text with
    | nil => simp [after?]
    | cons c text =>
      simp only [after?, List.cons_append, List.cons.injEq]
      split
      · rename_i h
        simp [ih, h]
      · rename_i h
        simp [Ne.symm h]

theorem length_dropWhile_le (p : Char → Bool) (t : Text) : (t.dropWhile p).length ≤ t.length :=
  (List.dropWhile_sublist p).length_le

theorem takeWhile_append_stop {p : Char → Bool} {c : Char} (hc : p c = false) (s t : Text) :
    (s ++ c :: t).takeWhile p = s.takeWhile p := by
  induction s with
  | nil => simp [hc]
  | cons a s ih => simp [List.takeWhile_cons, ih]

theorem dropWhile_append_stop {p : Char → Bool} {c : Char} (hc : p c = false) (s t : Text) :
    (s ++ c :: t).dropWhile p = s.dropWhile p ++ c :: t := by
  induction s with
  | nil => simp [hc]
  | cons a s ih =>
    simp only [List.cons_append, List.dropWhile_cons, ih]
    split <;> rfl

/-- Induction over the pieces into which a mark cuts a text. -/
theorem pieces_induction {motive : Text → Prop} (mark : Char) (last : ∀ t, mark ∉ t → motive t)
    (piece : ∀ p rest, mark ∉ p → motive rest → motive (p ++ mark :: rest)) (t : Text) :
    motive t := by
  induction h : t.length using Nat.strongRecOn generalizing t with
  | ind n ih =>
    by_cases hm : mark ∈ t
    · obtain ⟨p, rest, rfl, hp⟩ := List.eq_append_cons_of_mem hm
      rw [List.length_append, List.length_cons] at h
      exact piece p rest hp (ih rest.length (by omega) rest rfl)
    · exact last t hm

theorem not_mem_of_mem_splitOn {mark : Char} {part t : Text} (h : part ∈ t.splitOn mark) :
    mark ∉ part := by
  induction t using pieces_induction mark with
  | last t ht =>
    rw [List.splitOn_eq_singleton ht, List.mem_singleton] at h
    exact h ▸ ht
  | piece p rest hp ih =>
    rw [List.splitOn_append_cons_self_of_not_mem hp, List.mem_cons] at h
    rcases h with rfl | h
    · exact hp
    · exact ih h

theorem length_after?_le {token text rest : Text} (h : after? token text = some rest) :
    rest.length ≤ text.length := by
  rw [after?_eq_some_iff.1 h, List.length_append]
  exact Nat.le_add_left _ _

def contains (part : Text) : Text → Bool
  | [] => part.isEmpty
  | c :: rest => part.isPrefixOf (c :: rest) || contains part rest

/-- Texts compare by the code points of their characters, a proper beginning coming first. -/
def le : Text → Text → Bool
  | [], _ => true
  | _ :: _, [] => false
  | a :: s, b :: t => if a = b then le s t else decide (a.toNat < b.toNat)

/-- The texts in increasing order; equal ones keep their places. -/
def sort (texts : List Text) : List Text := texts.mergeSort Text.le

def ofNat (n : Nat) : Text := Nat.toDigits 10 n

def ofInt : Int → Text
  | .ofNat n => ofNat n
  | .negSucc n => '-' :: ofNat (n + 1)

end Text

end PropAccord
