import PropAccord.Proofs.Attributes

/-!
# Where attributes are declared

An attribute is declared by a run of name characters that begins a word and has an equals sign behind
it, with blanks between at most. Whether a run is one can be told at its own place. The search passes
over each attribute that it has found, but no other run begins inside: behind the first character of a
name the word has begun, and blanks and equals signs begin none. So the search finds the runs of all
places, in their order, and what is written behind a blank comes after them.
-/

namespace PropAccord.Attribute

set_option autoImplicit false

/-- A run of name characters stands at an offset, as long as it goes, that begins with a letter or an
underscore and behind no word character, and an equals sign follows, with blanks between at most. No
name character stands before the run either, since all of these are word characters. -/
structure DeclaredAt (s : Text) (i : Nat) (name : Text) : Prop where
  identifier : isIdentifier name = true
  run : name <+: s.drop i
  maximal : (s.drop (i + name.length)).head?.any isNameChar = false
  starts : (s.take i).getLast?.any isWordChar = false
  given : ∃ gap after : Text, gap.allBlank = true ∧ s.drop (i + name.length) = gap ++ '=' :: after

/-! ## Blanks and an equals sign -/

section

variable {gap : Text} (hgap : gap.allBlank = true)
include hgap

theorem exists_mark_of_gap (after : Text) :
    ∃ mark rest, gap ++ '=' :: after = mark :: rest ∧ isNameChar mark = false := by
  cases gap with
  | nil => exact ⟨'=', after, rfl, by decide⟩
  | cons c gap =>
    exact ⟨c, _, rfl, isNameChar_eq_false_of_isBlank (List.all_eq_true.1 hgap c List.mem_cons_self)⟩

theorem dropWhile_gap (after : Text) : (gap ++ '=' :: after).dropWhile isBlank = '=' :: after := by
  rw [List.dropWhile_append_of_pos (List.all_eq_true.1 hgap), List.dropWhile_cons_of_neg (by decide)]

/-- Nothing is found among the blanks. -/
theorem occurrences_gap (previous : Option Char) (after : Text) :
    occurrences previous (gap ++ '=' :: after) = occurrences (some '=') after := by
  induction gap generalizing previous with
  | nil => exact occurrences_of_read?_eq_none (read?_of_not_isNameChar (by decide) previous after)
  | cons c gap ih =>
    obtain ⟨hc, hrest⟩ := Bool.and_eq_true_iff.1 hgap
    have hnone := read?_of_not_isNameChar (isNameChar_eq_false_of_isBlank hc) previous
      (gap ++ '=' :: after)
    rw [List.cons_append, occurrences_of_read?_eq_none hnone, ih hrest]

end

/-! ## One attribute -/

/-- What is read at a place: an identifier behind no word character, blanks and an equals sign. -/
theorem read?_eq_some_iff {previous : Option Char} {s name after : Text} :
    read? previous s = some (name, after) ↔ isIdentifier name = true ∧
      previous.any isWordChar = false ∧
        ∃ gap : Text, gap.allBlank = true ∧ s = name ++ (gap ++ '=' :: after) := by
  constructor
  · intro h
    refine ⟨isIdentifier_of_read? h, ?_⟩
    cases s with
    | nil => cases h
    | cons c rest =>
      rw [read?] at h
      split at h
      · rename_i hstart
        obtain ⟨hboundary, hfirst⟩ := Bool.and_eq_true_iff.1 hstart
        have hword := isWordChar_of_isNameChar (isNameChar_of_starts hfirst)
        rw [isBoundary, Option.any_some, hword] at hboundary
        split at h
        · rename_i hequals
          obtain ⟨rfl, rfl⟩ := Prod.mk.inj (Option.some.inj h)
          refine ⟨by simpa using hboundary, (rest.dropWhile isNameChar).takeWhile isBlank,
            List.all_takeWhile, ?_⟩
          rw [← hequals, List.takeWhile_append_dropWhile, List.cons_append,
            List.takeWhile_append_dropWhile]
        · cases h
      · cases h
  · rintro ⟨hname, hprevious, gap, hgap, rfl⟩
    obtain ⟨mark, rest, hmark, hstop⟩ := exists_mark_of_gap hgap after
    cases name with
    | nil => cases hname
    | cons c name =>
      have hchars := isNameChar_of_mem_identifier hname
      have hword := isWordChar_of_isNameChar (hchars c List.mem_cons_self)
      have hinside : ∀ d ∈ name, isNameChar d = true := fun d hd => hchars d (List.mem_cons_of_mem c hd)
      rw [isIdentifier, Bool.and_eq_true] at hname
      have htake : (name ++ (gap ++ '=' :: after)).takeWhile isNameChar = name := by
        rw [List.takeWhile_append_of_pos hinside, hmark, List.takeWhile_cons_of_neg (by simp [hstop]),
          List.append_nil]
      have hdrop : (name ++ (gap ++ '=' :: after)).dropWhile isNameChar = gap ++ '=' :: after := by
        rw [List.dropWhile_append_of_pos hinside, hmark, List.dropWhile_cons_of_neg (by simp [hstop])]
      simp only [List.cons_append, read?, isBoundary, hprevious, Option.any_some, hword, hname.1, htake,
        hdrop, dropWhile_gap hgap]
      rfl

theorem declaredAt_iff {before s name : Text} :
    DeclaredAt (before ++ s) before.length name ↔
      ∃ after, read? before.getLast? s = some (name, after) := by
  have hbehind : (before ++ s).drop (before.length + name.length) = s.drop name.length := by
    rw [← List.drop_drop, List.drop_left]
  constructor
  · rintro ⟨hname, ⟨rest, hrest⟩, -, hstarts, gap, after, hgap, hgiven⟩
    rw [List.drop_left] at hrest
    rw [List.take_left] at hstarts
    rw [hbehind, ← hrest, List.drop_left] at hgiven
    exact ⟨after, read?_eq_some_iff.2 ⟨hname, hstarts, gap, hgap, by rw [← hrest, hgiven]⟩⟩
  · rintro ⟨after, h⟩
    obtain ⟨hname, hstarts, gap, hgap, rfl⟩ := read?_eq_some_iff.1 h
    obtain ⟨mark, rest, hmark, hstop⟩ := exists_mark_of_gap hgap after
    rw [List.drop_left] at hbehind
    refine ⟨hname, ?_, ?_, ?_, gap, after, hgap, hbehind⟩
    · rw [List.drop_left]
      exact List.prefix_append name _
    · rw [hbehind, hmark]
      exact hstop
    · rw [List.take_left]
      exact hstarts

/-! ## All attributes -/

/-- Behind a word character nothing is found before the word ends. -/
theorem occurrences_word {word : Text} (hword : ∀ d ∈ word, isNameChar d = true) {c : Char}
    (hc : isWordChar c = true) (rest : Text) :
    ∃ last, occurrences (some c) (word ++ rest) = occurrences (some last) rest := by
  induction word generalizing c with
  | nil => exact ⟨c, rfl⟩
  | cons d word ih =>
    have hd := isWordChar_of_isNameChar (hword d List.mem_cons_self)
    have hnone : read? (some c) (d :: (word ++ rest)) = none := by
      rw [read?, isBoundary, Option.any_some, Option.any_some, hc, hd]
      rfl
    rw [List.cons_append, occurrences_of_read?_eq_none hnone]
    exact ih (fun e he => hword e (List.mem_cons_of_mem d he)) hd

/-- An attribute that is found hides no other: the search might as well go on behind its first
character. -/
theorem occurrences_cons (previous : Option Char) (c : Char) (rest : Text) :
    occurrences previous (c :: rest) =
      ((read? previous (c :: rest)).map Prod.fst).toList ++ occurrences (some c) rest := by
  cases h : read? previous (c :: rest) with
  | none => exact occurrences_of_read?_eq_none h
  | some found =>
    obtain ⟨name, after⟩ := found
    rw [occurrences_of_read? h]
    obtain ⟨hname, -, gap, hgap, heq⟩ := read?_eq_some_iff.1 h
    cases name with
    | nil => cases hname
    | cons d name =>
      rw [List.cons_append] at heq
      obtain ⟨rfl, rfl⟩ := List.cons.inj heq
      have hchars := isNameChar_of_mem_identifier hname
      obtain ⟨last, hlast⟩ := occurrences_word (fun e he => hchars e (List.mem_cons_of_mem c he))
        (isWordChar_of_isNameChar (hchars c List.mem_cons_self)) (gap ++ '=' :: after)
      rw [hlast, occurrences_gap hgap]
      rfl

/-- The search behind a beginning finds the runs of the places there, in their order. -/
theorem exists_runs (before s : Text) : ∃ runs : List (Nat × Text),
    runs.Pairwise (fun run later => run.1 < later.1) ∧
    (∀ i name, (i, name) ∈ runs ↔ before.length ≤ i ∧ DeclaredAt (before ++ s) i name) ∧
    occurrences before.getLast? s = runs.map Prod.snd := by
  induction s generalizing before with
  | nil =>
    refine ⟨[], List.Pairwise.nil, fun i name => ⟨nofun, ?_⟩, occurrences_nil _⟩
    rintro ⟨hi, hname, hrun, -⟩
    rw [List.append_nil, List.drop_eq_nil_of_le hi, List.prefix_nil] at hrun
    rw [hrun] at hname
    cases hname
  | cons c s ih =>
    obtain ⟨runs, hordered, hmem, hruns⟩ := ih (before ++ [c])
    rw [List.append_assoc, List.singleton_append, List.length_append, List.length_singleton] at hmem
    rw [List.getLast?_concat] at hruns
    let here := (read? before.getLast? (c :: s)).map fun found => (before.length, found.1)
    have hhere (i : Nat) (name : Text) : (i, name) ∈ here.toList ↔
        i = before.length ∧ DeclaredAt (before ++ c :: s) i name := by
      rw [Option.mem_toList, Option.map_eq_some_iff]
      constructor
      · rintro ⟨⟨found, after⟩, hread, heq⟩
        obtain ⟨rfl, rfl⟩ := Prod.mk.inj heq
        exact ⟨rfl, declaredAt_iff.2 ⟨after, hread⟩⟩
      · rintro ⟨rfl, hdeclared⟩
        obtain ⟨after, hread⟩ := declaredAt_iff.1 hdeclared
        exact ⟨(name, after), hread, rfl⟩
    refine ⟨here.toList ++ runs, ?_, fun i name => ?_, ?_⟩
    · refine List.pairwise_append.2 ⟨?_, hordered, fun run hrun later hlater => ?_⟩
      · cases here with
        | none => exact List.Pairwise.nil
        | some run => exact List.pairwise_singleton _ run
      · rw [((hhere run.1 run.2).1 hrun).1]
        exact ((hmem later.1 later.2).1 hlater).1
    · rw [List.mem_append, hhere, hmem]
      constructor
      · rintro (⟨rfl, hdeclared⟩ | ⟨hi, hdeclared⟩)
        · exact ⟨Nat.le_refl _, hdeclared⟩
        · exact ⟨Nat.le_of_succ_le hi, hdeclared⟩
      · rintro ⟨hi, hdeclared⟩
        rcases Nat.eq_or_lt_of_le hi with rfl | hlt
        · exact Or.inl ⟨rfl, hdeclared⟩
        · exact Or.inr ⟨hlt, hdeclared⟩
    · rw [occurrences_cons, hruns, List.map_append]
      congr 1
      simp only [here]
      cases read? before.getLast? (c :: s) <;> rfl

theorem names_prefix_append {blank : Char} (hblank : isBlank blank = true) {name : Text}
    (hname : isIdentifier name = true) (s rest : Text) :
    names s <+: names (s ++ blank :: (name ++ rest)) := by
  rw [names, names, occurrences_append (seam_identifier hblank hname rest), List.eraseDups_append]
  exact List.prefix_append _ _

/-- The attribute names of a text are the names that are declared at some offset, each once and in the
order of their first places. What is written behind a blank and a further identifier leaves them in
front. -/
theorem names_are_declarations (s : Text) :
    (∃ runs : List (Nat × Text), runs.Pairwise (fun run later => run.1 < later.1) ∧
      (∀ i name, (i, name) ∈ runs ↔ DeclaredAt s i name) ∧
      names s = (runs.map Prod.snd).eraseDups) ∧
    (names s).Nodup ∧
    ∀ (blank : Char) (name rest : Text), isBlank blank = true → isIdentifier name = true →
      names s <+: names (s ++ blank :: (name ++ rest)) := by
  obtain ⟨runs, hordered, hmem, hruns⟩ := exists_runs [] s
  refine ⟨⟨runs, hordered, fun i name => ?_, by rw [names, ← hruns]; rfl⟩, ?_, ?_⟩
  · rw [hmem i name, List.nil_append]
    exact and_iff_right (Nat.zero_le i)
  · exact Props.nodup_eraseDups _
  · exact fun blank name rest hblank hname => names_prefix_append hblank hname s rest

/-- Two names are declared in one chain, a third is repeated, and two runs are none: one begins with a
digit, the other behind a letter. -/
theorem names_are_declarations_of_chain :
    let s := "a=b \t=1 1c= éd= a=2".toList
    names s = ["a".toList, "b".toList] ∧ DeclaredAt s 2 "b".toList ∧ isBlank '\n' = true ∧
      isIdentifier "e".toList = true ∧
      names s <+: names (s ++ '\n' :: ("e".toList ++ "=3".toList)) := by
  intro s
  have hblank : isBlank '\n' = true := by decide
  have hname : isIdentifier "e".toList = true := by decide
  have hchain : DeclaredAt ("a=".toList ++ "b \t=1 1c= éd= a=2".toList) 2 "b".toList :=
    declaredAt_iff.2 ⟨"1 1c= éd= a=2".toList, by decide +kernel⟩
  obtain ⟨-, -, hprefix⟩ := names_are_declarations s
  exact ⟨by decide +kernel, hchain, hblank, hname,
    hprefix '\n' "e".toList "=3".toList hblank hname⟩

end PropAccord.Attribute
