import Mathlib.Data.List.DropRight
import Mathlib.Data.List.TakeWhile
import PropAccord.Proofs.Names
import PropAccord.Props

/-!
# Merged and missing props

What is in a merged list and in a list of missing props, and that the latter has no repetitions.
Names that are written into a parameter list are read back from it, blanks at the ends of its
elements making no difference, unless a question mark stands at their end: it is taken for the mark of
an optional prop.
-/

namespace PropAccord

set_option autoImplicit false

namespace Text

theorem strip_sublist (t : Text) : t.strip.Sublist t := by
  have hend : t.strip.Sublist t.stripStart := by
    rw [strip, stripEnd, ← List.reverse_sublist, List.reverse_reverse]
    exact List.dropWhile_sublist isBlank
  exact hend.trans (List.dropWhile_sublist isBlank)

theorem stripEnd_append_trailingBlanks (t : Text) : t.stripEnd ++ t.trailingBlanks = t := by
  rw [stripEnd, trailingBlanks, ← List.reverse_append, List.takeWhile_append_dropWhile,
    List.reverse_reverse]

theorem allBlank_leadingBlanks (t : Text) : t.leadingBlanks.allBlank = true :=
  List.all_eq_true.2 fun _ hc => List.mem_takeWhile_imp hc

theorem allBlank_trailingBlanks (t : Text) : t.trailingBlanks.allBlank = true :=
  List.all_eq_true.2 fun _ hc => List.mem_takeWhile_imp (List.mem_reverse.1 hc)

theorem not_mem_of_allBlank {c : Char} (hb : isBlank c = false) {t : Text} (ht : t.allBlank = true) :
    c ∉ t := by
  intro hmem
  rw [List.all_eq_true.1 ht c hmem] at hb
  cases hb

theorem stripStart_append_blanks {b : Text} (hb : b.allBlank = true) (t : Text) :
    (b ++ t).stripStart = t.stripStart :=
  List.dropWhile_append_of_pos (List.all_eq_true.1 hb)

theorem stripEnd_append_blanks {b : Text} (hb : b.allBlank = true) (t : Text) :
    (t ++ b).stripEnd = t.stripEnd := by
  rw [stripEnd, stripEnd, List.reverse_append, List.dropWhile_append_of_pos]
  intro c hc
  exact List.all_eq_true.1 hb c (List.mem_reverse.1 hc)

theorem strip_append_blanks {b : Text} (hb : b.allBlank = true) (t : Text) :
    (t ++ b).strip = t.strip := by
  have hstart : (t ++ b).stripStart =
      if t.stripStart.isEmpty then b.stripStart else t.stripStart ++ b := List.dropWhile_append
  rw [strip, strip, hstart]
  split
  · rename_i hempty
    have hnil : b.stripStart = [] := by
      have := stripStart_append_blanks hb []
      rwa [List.append_nil] at this
    rw [hnil, List.isEmpty_iff.1 hempty]
  · exact stripEnd_append_blanks hb t.stripStart

theorem before_of_not_mem {mark : Char} {t : Text} (h : mark ∉ t) : t.before mark = t := by
  rw [before, List.takeWhile_eq_self_iff]
  intro c hc
  exact decide_eq_true fun heq => h (heq ▸ hc)

theorem before_append_mark {mark : Char} {t : Text} (h : mark ∉ t) (s : Text) :
    (t ++ mark :: s).before mark = t := by
  rw [before, List.takeWhile_append_of_pos]
  · simp
  · intro c hc
    exact decide_eq_true fun heq => h (heq ▸ hc)

theorem eq_of_append_mark {mark : Char} {a b s t : Text} (ha : mark ∉ a) (hs : mark ∉ s)
    (h : a ++ mark :: b = s ++ mark :: t) : a = s := by
  rw [← before_append_mark ha b, h, before_append_mark hs]

theorem before_append_blanks {mark : Char} (hm : isBlank mark = false) {b : Text}
    (hb : b.allBlank = true) (t : Text) :
    ∃ b', b'.allBlank = true ∧ (t ++ b).before mark = t.before mark ++ b' := by
  by_cases h : mark ∈ t
  · obtain ⟨a, rest, rfl, ha⟩ := List.eq_append_cons_of_mem h
    refine ⟨[], rfl, ?_⟩
    rw [List.append_assoc, List.cons_append, before_append_mark ha, before_append_mark ha,
      List.append_nil]
  · refine ⟨b, hb, ?_⟩
    rw [before_of_not_mem h, before_of_not_mem]
    exact List.not_mem_append h (not_mem_of_allBlank hm hb)

theorem strip_of_forall_not_isBlank {t : Text} (h : ∀ c ∈ t, isBlank c = false) : t.strip = t := by
  have hdrop : ∀ s : Text, (∀ c ∈ s, isBlank c = false) → s.dropWhile isBlank = s := by
    intro s hs
    cases s with
    | nil => rfl
    | cons c s => rw [List.dropWhile_cons_of_neg (by simp [hs c List.mem_cons_self])]
  rw [strip, stripStart, hdrop t h, stripEnd, hdrop, List.reverse_reverse]
  intro c hc
  exact h c (List.mem_reverse.1 hc)

theorem stripEnd_stripEnd (t : Text) : t.stripEnd.stripEnd = t.stripEnd :=
  List.rdropWhile_idempotent isBlank t

theorem stripEnd_cons {c : Char} (hc : isBlank c = false) (t : Text) :
    stripEnd (c :: t) = c :: t.stripEnd := by
  rw [stripEnd, List.reverse_cons, dropWhile_append_stop hc, List.reverse_append, stripEnd]
  rfl

theorem stripStart_strip (t : Text) : t.strip.stripStart = t.strip := by
  rw [strip]
  cases h : t.stripStart with
  | nil => rfl
  | cons c rest =>
    have hc : isBlank c = false := by
      have hhead := List.head?_dropWhile_not isBlank t
      rw [stripStart] at h
      rwa [h] at hhead
    rw [stripEnd_cons hc]
    exact List.dropWhile_cons_of_neg (by rw [hc]; exact nofun)

theorem strip_strip (t : Text) : t.strip.strip = t.strip := by
  rw [strip, stripStart_strip, strip, stripEnd_stripEnd]

theorem before_blanks_append {mark : Char} (hm : isBlank mark = false) {b : Text}
    (hb : b.allBlank = true) (t : Text) : (b ++ t).before mark = b ++ t.before mark := by
  rw [before, List.takeWhile_append_of_pos, before]
  intro c hc
  exact decide_eq_true fun heq => not_mem_of_allBlank hm hb (heq ▸ hc)

theorem not_mem_before (mark : Char) (t : Text) : mark ∉ t.before mark := by
  intro hmem
  rw [before] at hmem
  simpa using List.mem_takeWhile_imp hmem

end Text

namespace Props

theorem nodup_eraseDups (names : List Text) : names.eraseDups.Nodup := by
  induction h : names.length using Nat.strongRecOn generalizing names with
  | ind n ih =>
    cases names with
    | nil => exact List.nodup_nil
    | cons name names =>
      rw [List.eraseDups_cons, List.nodup_cons]
      have hlen : (names.filter fun other => !other == name).length < n := by
        have := List.length_filter_le (fun other => !other == name) names
        rw [List.length_cons] at h
        omega
      refine ⟨?_, ih _ hlen _ rfl⟩
      intro hm
      have hm' := (List.mem_filter.1 (List.mem_eraseDups.1 hm)).2
      simp at hm'

theorem eraseDups_of_nodup {names : List Text} (h : names.Nodup) : names.eraseDups = names := by
  induction names with
  | nil => rfl
  | cons name names ih =>
    obtain ⟨hn, hrest⟩ := List.nodup_cons.1 h
    have hfilter : (names.filter fun other => !other == name) = names := by
      rw [List.filter_eq_self]
      intro other hother
      have hne : other ≠ name := fun he => hn (he ▸ hother)
      simpa using hne
    rw [List.eraseDups_cons, hfilter, ih hrest]

theorem mem_missing_iff {present wanted : List Text} {name : Text} :
    name ∈ missing present wanted ↔ name ∈ wanted ∧ name ∉ present := by
  simp [missing, List.mem_eraseDups]

theorem nodup_missing (present wanted : List Text) : (missing present wanted).Nodup :=
  nodup_eraseDups _

theorem missing_eq_nil_iff {present wanted : List Text} :
    missing present wanted = [] ↔ ∀ name ∈ wanted, name ∈ present := by
  rw [List.eq_nil_iff_forall_not_mem]
  simp only [mem_missing_iff, not_and, Decidable.not_not]

theorem mem_merge_iff {defined used : List Text} {name : Text} :
    name ∈ merge defined used ↔ name ∈ defined ∨ name ∈ used := by
  simp [merge, List.mem_eraseDups]

theorem removeAll_eq_filter (used defined : List Text) :
    used.removeAll defined = used.filter (· ∉ defined) := by
  rw [List.removeAll]
  refine List.filter_congr fun name _ => ?_
  rw [List.elem_eq_contains, List.contains_eq_mem, ← decide_not]

/-- A merged list is the list that was there, without repetitions, and then what was missing from it. -/
theorem merge_eq_append (defined used : List Text) :
    merge defined used = defined.eraseDups ++ missing defined used := by
  rw [merge, List.eraseDups_append, removeAll_eq_filter, missing]

theorem added_eq_missing (defined used : List Text) :
    ((merge defined used).filter fun p => !defined.contains p) = missing defined used := by
  have hold : (defined.eraseDups.filter fun p => !defined.contains p) = [] := by
    rw [List.filter_eq_nil_iff]
    intro name hname
    simpa using List.mem_eraseDups.1 hname
  rw [merge_eq_append, List.filter_append, hold, List.nil_append, List.filter_eq_self]
  intro name hname
  simpa using (mem_missing_iff.1 hname).2

theorem missing_missing (defined used : List Text) :
    missing defined (missing defined used) = missing defined used := by
  have hnew : (missing defined used).filter (· ∉ defined) = missing defined used := by
    rw [List.filter_eq_self]
    exact fun name hname => decide_eq_true (mem_missing_iff.1 hname).2
  rw [missing, hnew, eraseDups_of_nodup (nodup_missing defined used)]

/-- Merging with the names that were new gives what was merged before. -/
theorem merge_added (defined used : List Text) :
    merge defined ((merge defined used).filter fun p => !defined.contains p) =
      merge defined used := by
  rw [added_eq_missing, merge_eq_append, missing_missing, ← merge_eq_append]

/-! ## Reading names that are written -/

theorem namesIn_append_comma (a b : Text) : namesIn (a ++ ',' :: b) = namesIn a ++ namesIn b := by
  simp only [namesIn, List.splitOn_append_cons_self, List.filter_append, List.map_append]

theorem nameOf_sublist (e : Text) : (nameOf e).Sublist ((e.before '=').before ':') := by
  have hmark : ∀ t : Text, (dropOptionalMark t).Sublist t := by
    intro t
    rw [dropOptionalMark]
    split
    · exact List.dropLast_sublist t
    · exact List.Sublist.refl t
  exact (Text.strip_sublist _).trans ((hmark _).trans (Text.strip_sublist _))

theorem mem_of_mem_nameOf {e : Text} {c : Char} (h : c ∈ nameOf e) : c ∈ e :=
  ((nameOf_sublist e).trans ((List.takeWhile_sublist _).trans (List.takeWhile_sublist _))).mem h

theorem mem_of_mem_namesIn {raw name : Text} (h : name ∈ namesIn raw) {c : Char} (hc : c ∈ name) :
    c ∈ raw := by
  obtain ⟨e, he, rfl⟩ := List.mem_map.1 (List.mem_filter.1 h).1
  exact Text.mem_of_mem_splitOn (List.mem_filter.1 he).1 (mem_of_mem_nameOf hc)

theorem nameOf_append_blanks {b : Text} (hb : b.allBlank = true) (e : Text) :
    nameOf (e ++ b) = nameOf e := by
  have hequals : isBlank '=' = false := by decide
  have hcolon : isBlank ':' = false := by decide
  obtain ⟨b₁, hb₁, h₁⟩ := Text.before_append_blanks hequals hb e
  obtain ⟨b₂, hb₂, h₂⟩ := Text.before_append_blanks hcolon hb₁ (e.before '=')
  rw [nameOf, nameOf, h₁, h₂, Text.strip_append_blanks hb₂]

theorem nameOf_blanks_append {b : Text} (hb : b.allBlank = true) (e : Text) :
    nameOf (b ++ e) = nameOf e := by
  have hstrip : ∀ t : Text, (b ++ t).strip = t.strip := fun t => by
    rw [Text.strip, Text.stripStart_append_blanks hb, Text.strip]
  rw [nameOf, Text.before_blanks_append (by decide) hb, Text.before_blanks_append (by decide) hb,
    hstrip, nameOf]

theorem nameOf_of_allBlank {e : Text} (h : e.allBlank = true) : nameOf e = [] := by
  rw [← List.append_nil e, nameOf_blanks_append h]
  rfl

theorem namesIn_of_not_mem {e : Text} (h : ',' ∉ e) : namesIn e = [nameOf e].filter (· ≠ []) := by
  rw [namesIn, List.splitOn_eq_singleton h]
  by_cases hb : e.allBlank = true
  · simp [hb, nameOf_of_allBlank hb]
  · simp [hb]

theorem namesIn_append_blanks {b : Text} (hb : b.allBlank = true) (raw : Text) :
    namesIn (raw ++ b) = namesIn raw := by
  have hcomma : ',' ∉ b := Text.not_mem_of_allBlank (by decide) hb
  induction raw using Text.pieces_induction ',' with
  | last e he =>
    rw [namesIn_of_not_mem (List.not_mem_append he hcomma), namesIn_of_not_mem he,
      nameOf_append_blanks hb]
  | piece e rest he ih =>
    rw [List.append_assoc, List.cons_append, namesIn_append_comma, namesIn_append_comma, ih]

/-- Nothing in the name ends an element of a list or the name in it, and no blank stands at its
ends. -/
structure Bare (name : Text) : Prop where
  nonempty : name ≠ []
  stripped : name.strip = name
  equals : '=' ∉ name
  colon : ':' ∉ name
  comma : ',' ∉ name

theorem exists_element_of_mem_namesIn {raw name : Text} (h : name ∈ namesIn raw) :
    ∃ e, ',' ∉ e ∧ nameOf e = name ∧ name ≠ [] := by
  have helement : ∀ e : Text, ',' ∉ e → name ∈ namesIn e → nameOf e = name ∧ name ≠ [] := by
    intro e he hmem
    rw [namesIn_of_not_mem he, List.mem_filter, List.mem_singleton, decide_eq_true_iff] at hmem
    exact ⟨hmem.1.symm, hmem.2⟩
  induction raw using Text.pieces_induction ',' with
  | last e he => exact ⟨e, he, helement e he h⟩
  | piece e rest he ih =>
    rw [namesIn_append_comma, List.mem_append] at h
    rcases h with h | h
    · exact ⟨e, he, helement e he h⟩
    · exact ih h

theorem bare_of_mem_namesIn {raw name : Text} (h : name ∈ namesIn raw) : Bare name := by
  obtain ⟨e, he, rfl, hne⟩ := exists_element_of_mem_namesIn h
  have hcolon : (nameOf e).Sublist ((e.before '=').before ':') := nameOf_sublist e
  have hequals : (nameOf e).Sublist (e.before '=') := hcolon.trans (List.takeWhile_sublist _)
  exact ⟨hne, Text.strip_strip _, fun hmem => Text.not_mem_before '=' e (hequals.mem hmem),
    fun hmem => Text.not_mem_before ':' _ (hcolon.mem hmem), fun hmem => he (mem_of_mem_nameOf hmem)⟩

theorem bare_of_isIdentifier {name : Text} (h : isIdentifier name = true) : Bare name := by
  have hchars := isNameChar_of_mem_identifier h
  have hmark : ∀ mark, isNameChar mark = false → mark ∉ name :=
    fun mark hmark => not_mem_of_all_isNameChar hchars hmark
  exact ⟨identifier_ne_nil h,
    Text.strip_of_forall_not_isBlank fun c hc => not_isBlank_of_isNameChar (hchars c hc),
    hmark '=' (by decide), hmark ':' (by decide), hmark ',' (by decide)⟩

theorem bare_of_mem_merge {raw : Text} {used : List Text}
    (hused : ∀ name ∈ used, isIdentifier name = true) :
    ∀ name ∈ merge (namesIn raw) used, Bare name := by
  intro name hname
  rcases mem_merge_iff.1 hname with hname | hname
  · exact bare_of_mem_namesIn hname
  · exact bare_of_isIdentifier (hused name hname)

theorem getLast?_ne_of_isIdentifier {name : Text} (h : isIdentifier name = true) :
    name.getLast? ≠ some '?' := by
  intro hlast
  exact not_mem_of_isIdentifier h (show isNameChar '?' = false by decide)
    (List.mem_of_getLast? hlast)

theorem nameOf_of_bare {name : Text} (h : Bare name) :
    nameOf name = (dropOptionalMark name).strip := by
  rw [nameOf, Text.before_of_not_mem h.equals, Text.before_of_not_mem h.colon, h.stripped]

/-- A name is read as it is written unless a question mark stands at its end. -/
theorem nameOf_eq_self_iff {name : Text} (h : Bare name) :
    nameOf name = name ↔ name.getLast? ≠ some '?' := by
  rw [nameOf_of_bare h, dropOptionalMark]
  split
  · rename_i hlast
    refine iff_of_false ?_ (not_not.2 hlast)
    intro heq
    have hlength := (Text.strip_sublist name.dropLast).length_le
    rw [heq, List.length_dropLast] at hlength
    have := List.length_pos_iff.2 h.nonempty
    omega
  · rename_i hlast
    exact iff_of_true h.stripped hlast

theorem namesIn_join {names : List Text} (h : ∀ name ∈ names, Bare name) {b : Text}
    (hb : b.allBlank = true) :
    namesIn (b ++ Text.join ", ".toList names) = (names.map nameOf).filter (· ≠ []) := by
  have hcomma : ∀ name, Bare name → ∀ b : Text, b.allBlank = true → ',' ∉ b ++ name :=
    fun name hname b hb => List.not_mem_append (Text.not_mem_of_allBlank (by decide) hb) hname.comma
  induction names generalizing b with
  | nil =>
    rw [Text.join, List.intercalate_nil, List.append_nil,
      namesIn_of_not_mem (Text.not_mem_of_allBlank (by decide) hb), nameOf_of_allBlank hb]
    rfl
  | cons first rest ih =>
    obtain ⟨hfirst, hrest⟩ := List.forall_mem_cons.1 h
    cases rest with
    | nil =>
      rw [Text.join, List.intercalate_singleton, namesIn_of_not_mem (hcomma first hfirst b hb),
        nameOf_blanks_append hb, List.map_singleton]
    | cons second rest =>
      have hjoin : b ++ Text.join ", ".toList (first :: second :: rest) =
          (b ++ first) ++ ',' :: ([' '] ++ Text.join ", ".toList (second :: rest)) := by
        rw [Text.join, List.intercalate_cons_cons, Text.join]
        simp
      rw [hjoin, namesIn_append_comma, namesIn_of_not_mem (hcomma first hfirst b hb),
        nameOf_blanks_append hb, ih hrest (by decide), List.map_cons, ← List.filter_append]
      rfl

/-- Written names are read back exactly if none of them ends in a question mark. -/
theorem namesIn_join_eq_self_iff {names : List Text} (h : ∀ name ∈ names, Bare name) {b : Text}
    (hb : b.allBlank = true) :
    namesIn (b ++ Text.join ", ".toList names) = names ↔
      ∀ name ∈ names, name.getLast? ≠ some '?' := by
  rw [namesIn_join h hb]
  constructor
  · intro heq
    -- As many names come back as were written, so none of them was dropped.
    have hsublist : names.Sublist (names.map nameOf) := by
      conv_lhs => rw [← heq]
      exact List.filter_sublist
    have hmap : names.map nameOf = names.map id := by
      rw [List.map_id]
      exact (hsublist.eq_of_length (List.length_map nameOf).symm).symm
    intro name hname
    exact (nameOf_eq_self_iff (h name hname)).1 (List.map_inj_left.1 hmap name hname)
  · intro hmark
    have hmap : names.map nameOf = names.map id :=
      List.map_congr_left fun name hname => (nameOf_eq_self_iff (h name hname)).2 (hmark name hname)
    rw [hmap, List.map_id, List.filter_eq_self]
    exact fun name hname => decide_eq_true (h name hname).nonempty

theorem mem_namesIn_join {names : List Text} (h : ∀ name ∈ names, Bare name) {name : Text}
    (hmem : name ∈ names) (hmark : name.getLast? ≠ some '?') {b : Text} (hb : b.allBlank = true) :
    name ∈ namesIn (b ++ Text.join ", ".toList names) := by
  have hname := (nameOf_eq_self_iff (h name hmem)).2 hmark
  rw [namesIn_join h hb, List.mem_filter, List.mem_map]
  exact ⟨⟨name, hmem, hname⟩, decide_eq_true (h name hmem).nonempty⟩

end Props

end PropAccord
