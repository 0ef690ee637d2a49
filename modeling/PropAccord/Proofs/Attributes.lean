import PropAccord.Attribute
import PropAccord.Proofs.Names
import PropAccord.Proofs.PropLists
import PropAccord.Sync.Edits

/-!
# Attributes across a seam

A text is read for attributes from left to right, and an attribute that has been found is passed
over. Where the text is cut at a character that belongs to no name, and no equals sign follows there,
both sides are read on their own. So attributes that are written behind a blank are found behind all
others, and a final slash makes no difference.
-/

namespace PropAccord.Attribute

set_option autoImplicit false

/-- Behind the seam stands a character of no name, and blanks there are not followed by an equals
sign. -/
def Seam (t : Text) : Prop :=
  t.head?.any isNameChar = false ∧ (t.dropWhile isBlank).head? ≠ some '='

theorem seam_of_mark {c : Char} (hname : isNameChar c = false) (hblank : isBlank c = false)
    (hequals : c ≠ '=') (t : Text) : Seam (c :: t) := by
  refine ⟨hname, ?_⟩
  rw [List.dropWhile_cons_of_neg (by rw [hblank]; exact nofun)]
  exact fun heq => hequals (Option.some.inj heq)

theorem read?_of_not_isNameChar {c : Char} (hc : isNameChar c = false) (previous : Option Char)
    (t : Text) : read? previous (c :: t) = none := by
  have hn : ¬(c.isAlpha || c == '_') = true := fun h => by simp [isNameChar_of_starts h] at hc
  simp [read?, hn]

theorem dropWhile_blank_append {s t : Text} (ht : (t.dropWhile isBlank).head? ≠ some '=') :
    (∃ rest, s.dropWhile isBlank = '=' :: rest ∧ (s ++ t).dropWhile isBlank = '=' :: (rest ++ t)) ∨
      ((s.dropWhile isBlank).head? ≠ some '=' ∧ ((s ++ t).dropWhile isBlank).head? ≠ some '=') := by
  induction s with
  | nil => exact Or.inr ⟨by simp, ht⟩
  | cons a s ih =>
    by_cases ha : isBlank a = true
    · simpa [ha] using ih
    · by_cases he : a = '='
      · subst a
        exact Or.inl ⟨s, by simp [ha], by simp [ha]⟩
      · exact Or.inr ⟨by simp [ha, he], by simp [ha, he]⟩

/-- One attribute is read before a seam as if nothing followed. -/
theorem read?_append {t : Text} (ht : Seam t) (previous : Option Char) (c : Char) (s : Text) :
    read? previous (c :: (s ++ t)) =
      (read? previous (c :: s)).map fun (name, after) => (name, after ++ t) := by
  have hsplit : (s ++ t).takeWhile isNameChar = s.takeWhile isNameChar ∧
      (s ++ t).dropWhile isNameChar = s.dropWhile isNameChar ++ t := by
    cases t with
    | nil => simp
    | cons d t =>
      have hd : isNameChar d = false := ht.1
      exact ⟨Text.takeWhile_append_stop hd s t, Text.dropWhile_append_stop hd s t⟩
  simp only [read?, hsplit.1, hsplit.2]
  split
  · rcases dropWhile_blank_append (s := s.dropWhile isNameChar) ht.2 with ⟨rest, h₁, h₂⟩ | ⟨h₁, h₂⟩
    · simp [h₁, h₂]
    · split
      · rename_i heq
        simp [heq] at h₂
      · split
        · rename_i heq
          simp [heq] at h₁
        · rfl
  · rfl

/-- Both sides of a seam are read on their own. -/
theorem occurrences_append {c : Char} {t : Text} (ht : Seam (c :: t)) (previous : Option Char)
    (s : Text) :
    occurrences previous (s ++ c :: t) = occurrences previous s ++ occurrences (some c) t := by
  induction previous, s using occurrences.induct with
  | case1 previous =>
    rw [List.nil_append, occurrences_nil, List.nil_append]
    exact occurrences_of_read?_eq_none (read?_of_not_isNameChar ht.1 previous t)
  | case2 previous a s name after h ih =>
    have h' := read?_append ht previous a s
    rw [h, Option.map_some] at h'
    rw [List.cons_append, occurrences_of_read? h', occurrences_of_read? h, ih, List.cons_append]
  | case3 previous a s h ih =>
    have h' := read?_append ht previous a s
    rw [h, Option.map_none] at h'
    rw [List.cons_append, occurrences_of_read?_eq_none h', occurrences_of_read?_eq_none h, ih]

theorem occurrences_append_slash (previous : Option Char) (s : Text) :
    occurrences previous (s ++ ['/']) = occurrences previous s := by
  have hseam : Seam ['/'] := seam_of_mark (by decide) (by decide) (by decide) []
  rw [occurrences_append hseam, occurrences_nil, List.append_nil]

theorem occurrences_eq_nil {s : Text} (h : '=' ∉ s) (previous : Option Char) :
    occurrences previous s = [] := by
  induction previous, s using occurrences.induct with
  | case1 previous => exact occurrences_nil previous
  | case2 previous a s name after hr ih =>
    exfalso
    apply h
    apply List.mem_cons_of_mem
    simp only [read?] at hr
    split at hr
    · split at hr
      · rename_i heq
        have hmem : '=' ∈ (s.dropWhile isNameChar).dropWhile isBlank := by
          rw [heq]
          exact List.mem_cons_self
        exact (List.dropWhile_sublist _).subset ((List.dropWhile_sublist _).subset hmem)
      · simp at hr
    · simp at hr
  | case3 previous a s hr ih =>
    rw [occurrences_of_read?_eq_none hr]
    exact ih (fun hm => h (List.mem_cons_of_mem a hm))

theorem isIdentifier_of_read? {previous : Option Char} {t name after : Text}
    (h : read? previous t = some (name, after)) : isIdentifier name = true := by
  cases t with
  | nil => cases h
  | cons c t =>
    rw [read?] at h
    split at h
    · rename_i hstart
      split at h
      · obtain ⟨rfl, -⟩ := Prod.mk.inj (Option.some.inj h)
        rw [isIdentifier, (Bool.and_eq_true_iff.1 hstart).2, Bool.true_and]
        exact List.all_eq_true.2 fun _ hc => List.mem_takeWhile_imp hc
      · cases h
    · cases h

theorem isIdentifier_of_mem_occurrences {previous : Option Char} {t name : Text}
    (h : name ∈ occurrences previous t) : isIdentifier name = true := by
  induction previous, t using occurrences.induct with
  | case1 previous =>
    rw [occurrences_nil] at h
    cases h
  | case2 previous a t found after hr ih =>
    rw [occurrences_of_read? hr] at h
    rcases List.mem_cons.1 h with rfl | h
    · exact isIdentifier_of_read? hr
    · exact ih h
  | case3 previous a t hr ih =>
    rw [occurrences_of_read?_eq_none hr] at h
    exact ih h

theorem isIdentifier_of_mem_names {t name : Text} (h : name ∈ names t) : isIdentifier name = true :=
  isIdentifier_of_mem_occurrences (List.mem_eraseDups.1 h)

/-- An identifier that starts a word and is followed by an equals sign is an attribute. -/
theorem occurrences_identifier {name : Text} (hname : isIdentifier name = true) {previous : Char}
    (hp : isWordChar previous = false) (rest : Text) :
    occurrences (some previous) (name ++ '=' :: rest) = name :: occurrences (some '=') rest := by
  have hall := isNameChar_of_mem_identifier hname
  cases name with
  | nil => simp [isIdentifier] at hname
  | cons c name =>
    have hc := isWordChar_of_isNameChar (hall c List.mem_cons_self)
    have htail : ∀ a ∈ name, isNameChar a = true := fun a ha => hall a (List.mem_cons_of_mem c ha)
    simp only [isIdentifier, Bool.and_eq_true] at hname
    have htake : (name ++ '=' :: rest).takeWhile isNameChar = name := by
      rw [List.takeWhile_append_of_pos htail, List.takeWhile_cons_of_neg (by decide), List.append_nil]
    have hdrop : (name ++ '=' :: rest).dropWhile isNameChar = '=' :: rest := by
      rw [List.dropWhile_append_of_pos htail, List.dropWhile_cons_of_neg (by decide)]
    have hb : isBlank '=' = false := by decide
    apply occurrences_of_read?
    simp [read?, isBoundary, hp, hc, hname.1, htake, hdrop, hb]

/-- A blank and an identifier behind it make a seam. -/
theorem seam_identifier {blank : Char} (hblank : isBlank blank = true) {name : Text}
    (hname : isIdentifier name = true) (rest : Text) : Seam (blank :: (name ++ rest)) := by
  cases name with
  | nil => simp [isIdentifier] at hname
  | cons c name =>
    have hc := isNameChar_of_mem_identifier hname c List.mem_cons_self
    have hb := not_isBlank_of_isNameChar hc
    refine ⟨isNameChar_eq_false_of_isBlank hblank, ?_⟩
    simp only [List.cons_append, List.dropWhile_cons, hblank, hb, if_true, Bool.false_eq_true, if_false,
      List.head?_cons, ne_eq, Option.some.injEq]
    rintro rfl
    simp [isNameChar] at hc

/-- Attributes that are written behind a text are found behind those of the text, each followed by
what its placeholder brings along. -/
theorem occurrences_append_written {names : List Text}
    (hnames : ∀ name ∈ names, isIdentifier name = true) (placeholder : Text)
    (previous : Option Char) (s : Text) :
    occurrences previous (s ++ names.flatMap (Sync.attributeText placeholder)) =
      occurrences previous s ++
        names.flatMap fun name => name :: occurrences (some '=') placeholder := by
  induction names generalizing previous s with
  | nil => simp
  | cons name names ih =>
    have hname := hnames name List.mem_cons_self
    have hrest := ih (fun n hn => hnames n (List.mem_cons_of_mem name hn)) (some '=') placeholder
    simp only [List.flatMap_cons, Sync.attributeText, List.cons_append, List.append_assoc] at hrest ⊢
    rw [occurrences_append (seam_identifier (by decide) hname _),
      occurrences_identifier hname (by decide), hrest]

theorem names_append_slash (s : Text) : names (s ++ ['/']) = names s := by
  rw [names, occurrences_append_slash, names]

section Written

variable {added : List Text} (hadded : ∀ name ∈ added, isIdentifier name = true)
include hadded

theorem names_prefix_append_written (placeholder s : Text) :
    names s <+: names (s ++ added.flatMap (Sync.attributeText placeholder)) := by
  rw [names, names, occurrences_append_written hadded, List.eraseDups_append]
  exact List.prefix_append _ _

theorem mem_names_append_written (placeholder s : Text) {name : Text} (h : name ∈ added) :
    name ∈ names (s ++ added.flatMap (Sync.attributeText placeholder)) := by
  rw [names, occurrences_append_written hadded, List.mem_eraseDups]
  apply List.mem_append_right
  exact List.mem_flatMap.2 ⟨name, h, List.mem_cons_self⟩

/-- New names are found exactly, in their order, when the placeholder has no equals sign. -/
theorem names_append_written {placeholder : Text} (hp : '=' ∉ placeholder) {s : Text}
    (hnew : ∀ name ∈ added, name ∉ names s) (hnodup : added.Nodup) :
    names (s ++ added.flatMap (Sync.attributeText placeholder)) = names s ++ added := by
  have hflat : (added.flatMap fun name => name :: occurrences (some '=') placeholder) = added := by
    simp [occurrences_eq_nil hp]
  have hremove : added.removeAll (occurrences none s) = added := by
    rw [List.removeAll, List.filter_eq_self]
    intro name hname
    have hn := hnew name hname
    rw [names, List.mem_eraseDups] at hn
    simpa using hn
  rw [names, occurrences_append_written hadded, hflat, List.eraseDups_append, hremove,
    Props.eraseDups_of_nodup hnodup, names]

end Written

end PropAccord.Attribute
