import PropAccord.Path.TestFile
import PropAccord.Proofs.Discovered
import PropAccord.Proofs.PropLists

/-!
# Where test files lie

Whether a file is a test file is looked up in one text, the path as seen from the root. What is found
there are whole folders, since a slash stands on either side, and marks inside a single name, since
none of these has a slash. So the names on the way from the root decide, and neither where the root
lies nor how the path is written matters.
-/

namespace PropAccord

set_option autoImplicit false

/-! ## Texts inside texts -/

namespace Text

theorem contains_iff {part t : Text} : contains part t = true ↔ part <:+: t := by
  induction t with
  | nil => rw [contains, List.isEmpty_iff, List.infix_nil]
  | cons c t ih => rw [contains, Bool.or_eq_true, List.isPrefixOf_iff_prefix, ih, List.infix_cons_iff]

/-- A part without the separator lies on one side of it. -/
theorem infix_append_cons_iff {part : Text} {c : Char} (h : c ∉ part) (s t : Text) :
    part <:+: s ++ c :: t ↔ part <:+: s ∨ part <:+: t := by
  have hfront {front : Text} (hfront : c ∉ front) (hstart : front <+: c :: t) : front = [] := by
    rcases List.prefix_cons_iff.1 hstart with rfl | ⟨rest, rfl, -⟩
    · rfl
    · exact absurd List.mem_cons_self hfront
  constructor
  · intro hinfix
    rcases List.infix_append_iff.1 hinfix with hs | ht | ⟨l, r, rfl, hl, hr⟩
    · exact Or.inl hs
    · rcases List.infix_cons_iff.1 ht with hprefix | ht
      · rw [hfront h hprefix]
        exact Or.inl (List.nil_infix)
      · exact Or.inr ht
    · rw [hfront (fun hc => h (List.mem_append_right l hc)) hr, List.append_nil]
      exact Or.inl hl.isInfix
  · rintro (hs | ht)
    · exact hs.trans (List.prefix_append s _).isInfix
    · exact ht.trans ((List.suffix_cons c t).trans (List.suffix_append s _)).isInfix

/-- What begins with a character is looked for behind all that has none of it. -/
theorem infix_append_iff_of_head {c : Char} {s : Text} (h : c ∉ s) (part t : Text) :
    c :: part <:+: s ++ t ↔ c :: part <:+: t := by
  induction s with
  | nil => rfl
  | cons d s ih =>
    have hd : ¬ c :: part <+: d :: (s ++ t) := by
      rintro ⟨rest, hrest⟩
      exact h ((List.cons.inj hrest).1 ▸ List.mem_cons_self)
    rw [List.cons_append, List.infix_cons_iff, or_iff_right hd]
    exact ih fun hc => h (List.mem_cons_of_mem d hc)

end Text

namespace Path

/-! ## The names on the way -/

def isSeparator (c : Char) : Bool := c = '/' || c = '\\'

/-- The names in a text between slashes and backslashes, empty ones included. -/
def parts (t : Text) : List Text := t.splitOnP isSeparator

def testFolders : List Text := ["__tests__".toList, "test".toList, "tests".toList]

def testInfixes : List Text := [".test.".toList, ".spec.".toList]

/-- A name other than the last is that of a folder for tests, or some name has a mark inside. -/
def TestParts (names : List Text) : Prop :=
  (∃ name ∈ names.dropLast, name ∈ testFolders) ∨
    ∃ name ∈ names, ∃ mark ∈ testInfixes, mark <:+: name

theorem parts_eq_splitOn (t : Text) :
    parts t = (t.map fun c => if c = '\\' then '/' else c).splitOn '/' := by
  rw [parts, List.splitOn_eq_splitOnP]
  induction t with
  | nil => rfl
  | cons c t ih =>
    rw [List.map_cons, List.splitOnP_cons_eq_if_modifyHead, List.splitOnP_cons_eq_if_modifyHead, ih]
    by_cases hback : c = '\\'
    · rw [hback]
      rfl
    · simp only [isSeparator, hback, if_false, decide_false, Bool.or_false, decide_eq_true_eq,
        beq_iff_eq]

/-- A name with a slash on either side is one that is not the last. -/
theorem folder_infix_iff {name : Text} (h : '/' ∉ name) (t : Text) :
    '/' :: (name ++ ['/']) <:+: '/' :: t ↔ name ∈ (t.splitOn '/').dropLast := by
  induction t using Text.pieces_induction '/' with
  | last t ht =>
    rw [List.splitOn_eq_singleton ht]
    refine ⟨fun hinfix => ?_, nofun⟩
    have hcount := hinfix.sublist.count_le '/'
    simp [List.count_eq_zero_of_not_mem h, List.count_eq_zero_of_not_mem ht] at hcount
  | piece p rest hp ih =>
    have hprefix : '/' :: (name ++ ['/']) <+: '/' :: (p ++ '/' :: rest) ↔ name = p := by
      rw [List.cons_prefix_cons, and_iff_right rfl]
      constructor
      · rintro ⟨tail, htail⟩
        rw [List.append_assoc, List.singleton_append] at htail
        exact Text.eq_of_append_mark h hp htail
      · rintro rfl
        exact ⟨rest, by rw [List.append_assoc, List.singleton_append]⟩
    rw [List.infix_cons_iff, hprefix, Text.infix_append_iff_of_head hp, ih,
      List.splitOn_append_cons_self_of_not_mem hp,
      List.dropLast_cons_of_ne_nil (List.splitOn_ne_nil _ _), List.mem_cons]

/-- A mark without slashes stands inside one name. -/
theorem mark_infix_iff {mark : Text} (h : '/' ∉ mark) (t : Text) :
    mark <:+: t ↔ ∃ name ∈ t.splitOn '/', mark <:+: name := by
  induction t using Text.pieces_induction '/' with
  | last t ht => simp only [List.splitOn_eq_singleton ht, List.mem_singleton, exists_eq_left]
  | piece p rest hp ih =>
    rw [Text.infix_append_cons_iff h, ih, List.splitOn_append_cons_self_of_not_mem hp]
    simp only [List.mem_cons, exists_eq_or_imp]

/-- Slashes in front are taken for one. -/
theorem infix_slashes_iff {mark : Text} (h : ∀ rest, ¬ mark <+: '/' :: '/' :: rest) (t : Text) :
    mark <:+: '/' :: t.dropWhile (· == '/') ↔ mark <:+: '/' :: t := by
  induction t with
  | nil => rfl
  | cons c t ih =>
    by_cases hc : c = '/'
    · subst c
      rw [List.dropWhile_cons_of_pos (by decide), ih]
      exact (List.infix_cons_iff.trans (or_iff_right (h t))).symm
    · rw [List.dropWhile_cons_of_neg (by simpa using hc)]

/-- The text of a path is one of a test file exactly if the names in it say so. -/
theorem isTestText_iff (t : Text) : isTestText t = true ↔ TestParts (parts t) := by
  have hdouble : ∀ mark ∈ testMarks, ∀ rest, ¬ mark <+: '/' :: '/' :: rest := by
    simp [testMarks, List.cons_prefix_cons]
  have hdot : ∀ mark ∈ testInfixes, ∀ rest, ¬ mark <+: '/' :: rest := by
    simp [testInfixes, List.cons_prefix_cons]
  have hmarks : testMarks = testInfixes ++ testFolders.map fun name => '/' :: (name ++ ['/']) := by
    decide
  have hfolders : ∀ name ∈ testFolders, '/' ∉ name := by decide
  have hinfixes : ∀ mark ∈ testInfixes, '/' ∉ mark := by decide
  generalize hu : (t.map fun c => if c = '\\' then '/' else c) = u
  calc isTestText t = true
    _ ↔ ∃ mark ∈ testMarks, mark <:+: '/' :: u := by
      rw [isTestText, List.any_eq_true]
      refine exists_congr fun mark => and_congr_right fun hmark => ?_
      rw [Text.contains_iff, slashed, hu, infix_slashes_iff (hdouble mark hmark)]
    _ ↔ (∃ name ∈ testFolders, '/' :: (name ++ ['/']) <:+: '/' :: u) ∨
        ∃ mark ∈ testInfixes, mark <:+: u := by
      have hbehind : ∀ mark ∈ testInfixes, (mark <:+: '/' :: u ↔ mark <:+: u) := fun mark hmark => by
        rw [List.infix_cons_iff, or_iff_right (hdot mark hmark u)]
      rw [hmarks, or_comm]
      simp only [List.mem_append, or_and_right, exists_or, List.mem_map, exists_exists_and_eq_and]
      exact or_congr_left (exists_congr fun mark => and_congr_right (hbehind mark))
    _ ↔ TestParts (parts t) := by
      rw [parts_eq_splitOn, hu, TestParts]
      refine or_congr ?_ ?_
      · refine exists_congr fun name => ?_
        rw [and_comm]
        exact and_congr_left fun hname => folder_infix_iff (hfolders name hname) u
      · constructor
        · rintro ⟨mark, hmark, hinfix⟩
          obtain ⟨name, hname, hinside⟩ := (mark_infix_iff (hinfixes mark hmark) u).1 hinfix
          exact ⟨name, hname, mark, hmark, hinside⟩
        · rintro ⟨name, hname, mark, hmark, hinside⟩
          exact ⟨mark, hmark, (mark_infix_iff (hinfixes mark hmark) u).2 ⟨name, hname, hinside⟩⟩

/-! ## Paths below a root -/

/-- A path leads below a root, and these names are on the way from there. -/
structure LiesBelow (cwd : List Text) (root p : Path) (names : List Text) : Prop where
  root_nameable : root.hasNull = false
  nameable : p.hasNull = false
  place : p.resolve cwd = root.resolve cwd ++ names

theorem below?_append (base rest : List Text) : below? base (base ++ rest) = some rest := by
  induction base with
  | nil => rfl
  | cons a base ih => rw [List.cons_append, below?, if_pos rfl, ih]

theorem LiesBelow.relativeText_eq {cwd : List Text} {root p : Path} {names : List Text}
    (h : LiesBelow cwd root p names) : relativeText cwd root p = text ⟨.relative, names⟩ := by
  rw [relativeText, h.root_nameable, h.nameable, h.place, below?_append]
  rfl

/-- Double dots never lead above the place that is this deep already. -/
def staysBelow : Nat → List Text → Bool
  | _, [] => true
  | depth, segment :: rest =>
    if segment = ['.', '.'] then 0 < depth && staysBelow (depth - 1) rest
    else staysBelow (depth + 1) rest

theorem follow_of_staysBelow (base inner : List Text) {segments : List Text}
    (h : staysBelow inner.length segments = true) :
    follow (inner ++ base) segments = follow inner segments ++ base := by
  induction segments generalizing inner with
  | nil => rfl
  | cons segment rest ih =>
    rw [staysBelow] at h
    rw [follow, follow]
    split at h
    · rename_i hdots
      obtain ⟨hdeep, hrest⟩ := Bool.and_eq_true_iff.1 h
      have hlength : 1 ≤ inner.length := of_decide_eq_true hdeep
      rw [← List.length_drop] at hrest
      rw [if_pos hdots, if_pos hdots, List.drop_append_of_le_length hlength, ih _ hrest]
    · rename_i hname
      rw [if_neg hname, if_neg hname, ← List.cons_append]
      exact ih _ h

/-- What is joined to a root lies below it, at the place that the joined segments lead to. -/
theorem liesBelow_join (cwd : List Text) {root : Path} {segments : List Text}
    (hroot : root.hasNull = false) (hclear : hasNull ⟨.relative, segments⟩ = false)
    (hstays : staysBelow 0 segments = true) :
    LiesBelow cwd root (root.join ⟨.relative, segments⟩) (follow [] segments).reverse := by
  have hjoin : root.join ⟨.relative, segments⟩ = ⟨root.anchor, root.segments ++ segments⟩ := rfl
  refine ⟨hroot, ?_, ?_⟩
  · rw [hjoin, hasNull, List.any_append]
    exact Bool.or_eq_false_iff.2 ⟨hroot, hclear⟩
  · rw [hjoin, resolve, resolve, follow_append, ← List.reverse_append]
    exact congrArg List.reverse (follow_of_staysBelow _ [] hstays)

/-- Only the names on the way from the root decide: two files that lie alike below their roots are
both test files or none is, wherever the roots are, and so are two that are joined to their roots
alike. -/
theorem test_files_lie_alike :
    (∀ cwd root p names, LiesBelow cwd root p names →
      (isTestFile cwd root p = true ↔ TestParts (parts (text ⟨.relative, names⟩)))) ∧
    (∀ cwd root p cwd' root' p' names, LiesBelow cwd root p names → LiesBelow cwd' root' p' names →
      isTestFile cwd root p = isTestFile cwd' root' p') ∧
    ∀ cwd root cwd' root' segments, root.hasNull = false → root'.hasNull = false →
      hasNull ⟨.relative, segments⟩ = false → staysBelow 0 segments = true →
      isTestFile cwd root (root.join ⟨.relative, segments⟩) =
        isTestFile cwd' root' (root'.join ⟨.relative, segments⟩) := by
  have htext {cwd : List Text} {root p : Path} {names : List Text} (h : LiesBelow cwd root p names) :
      isTestFile cwd root p = isTestText (text ⟨.relative, names⟩) := by
    rw [isTestFile, h.relativeText_eq]
  refine ⟨fun cwd root p names h => ?_, fun cwd root p cwd' root' p' names h h' => ?_, ?_⟩
  · rw [htext h, isTestText_iff]
  · rw [htext h, htext h']
  · intro cwd root cwd' root' segments hroot hroot' hclear hstays
    rw [htext (liesBelow_join cwd hroot hclear hstays),
      htext (liesBelow_join cwd' hroot' hclear hstays)]

/-- A root in a folder with tests, and a file whose name has a folder for tests behind a backslash. -/
theorem test_files_lie_alike_under_tests :
    let root := ofText "/w/tests/project".toList
    let other := ofText "app".toList
    let plain := ["src".toList, "lib".toList, "..".toList, "App.tsx".toList]
    let tested := ["src\\tests\\App.tsx".toList]
    isTestFile [] root (root.join ⟨.relative, plain⟩) =
        isTestFile ["v".toList] other (other.join ⟨.relative, plain⟩) ∧
      isTestFile [] root (root.join ⟨.relative, plain⟩) = false ∧
      isTestFile [] root (root.join ⟨.relative, tested⟩) =
        isTestFile ["v".toList] other (ofText "/v/app/src\\tests\\App.tsx".toList) ∧
      TestParts (parts (text ⟨.relative, tested⟩)) := by
  intro root other plain tested
  obtain ⟨hparts, halike, hjoined⟩ := test_files_lie_alike
  have htested : LiesBelow [] root (root.join ⟨.relative, tested⟩) tested :=
    ⟨by decide, by decide, by decide⟩
  have hother : LiesBelow ["v".toList] other (ofText "/v/app/src\\tests\\App.tsx".toList) tested :=
    ⟨by decide, by decide, by decide⟩
  exact ⟨hjoined [] root ["v".toList] other plain (by decide) (by decide) (by decide) (by decide),
    by decide +kernel, halike _ _ _ _ _ _ _ htested hother,
    (hparts _ _ _ _ htested).1 (by decide +kernel)⟩

end Path

end PropAccord
