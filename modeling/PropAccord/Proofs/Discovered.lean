import Mathlib.Data.List.Nodup
import PropAccord.Proofs.Documents
import PropAccord.Proofs.Walks

/-!
# Files that are found

What a walk through a folder finds, up to its order, is what it finds in each entry, one after the
other. So everything that is found stands below the folder and is a file there, it has been kept, and
no folder on the way to it has been pruned. Since the names in a folder are distinct, nothing is found
twice.
-/

namespace PropAccord

set_option autoImplicit false

theorem Tree.Distinct.child?_of_mem {entries : List (Text × Tree)}
    (h : (Tree.folder entries).Distinct) {name : Text} {below : Tree}
    (hentry : (name, below) ∈ entries) : (Tree.folder entries).child? name = some below := by
  have hnames := (Tree.distinct_folder_iff.1 h).1
  change entries.lookup name = some below
  clear h
  induction entries with
  | nil => cases hentry
  | cons entry rest ih =>
    obtain ⟨first, tree⟩ := entry
    rw [List.map_cons, List.nodup_cons] at hnames
    rw [Tree.lookup_entry]
    rcases List.mem_cons.1 hentry with heq | hrest
    · cases heq
      exact if_pos rfl
    · have hmem : name ∈ rest.map (·.1) := List.mem_map_of_mem hrest
      have hother : name ≠ first := fun heq => hnames.1 (heq ▸ hmem)
      rw [if_neg hother, ih hrest hnames.2]

theorem Tree.Distinct.find? {tree below : Tree} {place : List Text} (h : tree.Distinct)
    (hfind : tree.find? place = some below) : below.Distinct := by
  induction place generalizing tree with
  | nil => exact Option.some.inj hfind ▸ h
  | cons name rest ih =>
    rw [Tree.find?, Option.bind_eq_some_iff] at hfind
    obtain ⟨child, hchild, hrest⟩ := hfind
    exact ih (h.child hchild) hrest

namespace Discovery

variable (keeps prunes : List Text → Bool)

/-- What is found in an entry of a folder. -/
def foundIn (place : List Text) : Text × Tree → List (List Text)
  | (name, .file _) => if keeps (place ++ [name]) then [place ++ [name]] else []
  | (name, .folder entries) =>
    if prunes (place ++ [name]) then [] else listing keeps prunes (place ++ [name]) (.folder entries)

/-- The files of a folder and of the folders in it, in the order of its entries. -/
theorem ownFiles_append_subfolders_perm (place : List Text) (entries : List (Text × Tree)) :
    ((ownFiles keeps place entries).map (·.2) ++
      ((subfolders keeps prunes place entries).map (·.2)).flatten).Perm
        (entries.flatMap (foundIn keeps prunes place)) := by
  induction entries with
  | nil => simp [ownFiles, subfolders]
  | cons entry rest ih =>
    obtain ⟨name, tree⟩ := entry
    rw [List.flatMap_cons]
    cases tree with
    | file bytes =>
      rw [ownFiles, subfolders, foundIn]
      split
      · exact ih.cons _
      · exact ih
    | folder below =>
      rw [ownFiles, subfolders, foundIn]
      split
      · exact ih
      · rw [List.map_cons, List.flatten_cons]
        exact List.perm_append_comm_assoc _ _ _ |>.trans (ih.append_left _)

theorem listing_perm (place : List Text) (entries : List (Text × Tree)) :
    (listing keeps prunes place (.folder entries)).Perm
      (entries.flatMap (foundIn keeps prunes place)) := by
  rw [listing]
  have hfiles := (byName_perm (ownFiles keeps place entries)).map (·.2)
  have hfolders := ((byName_perm (subfolders keeps prunes place entries)).map (·.2)).flatten
  exact (hfiles.append hfolders).trans (ownFiles_append_subfolders_perm keeps prunes place entries)

/-- The segments lead from a folder to a file below it that is kept, through no folder that is
pruned. -/
structure Finds (place : List Text) (tree : Tree) (segments : List Text) : Prop where
  isFile : ∃ bytes, tree.find? segments = some (.file bytes)
  below : segments ≠ []
  kept : keeps (place ++ segments) = true
  entered : ∀ folder, folder ≠ [] → folder <+: segments → folder ≠ segments →
    prunes (place ++ folder) = false

variable {keeps prunes}

/-- One folder further up, everything that was found is found under the name of the folder. -/
theorem Finds.cons {place : List Text} {entries : List (Text × Tree)} {name : Text} {tree : Tree}
    (hchild : (Tree.folder entries).child? name = some tree)
    (hprunes : prunes (place ++ [name]) = false) {segments : List Text}
    (h : Finds keeps prunes (place ++ [name]) tree segments) :
    Finds keeps prunes place (.folder entries) (name :: segments) where
  isFile := by
    rw [Tree.find?, hchild]
    exact h.isFile
  below := List.cons_ne_nil name segments
  kept := by
    rw [List.append_cons]
    exact h.kept
  entered := by
    intro folder hne hfolder hproper
    rcases List.prefix_cons_iff.1 hfolder with rfl | ⟨rest, rfl, hrest⟩
    · exact absurd rfl hne
    · by_cases hempty : rest = []
      · rw [hempty]
        exact hprunes
      · rw [List.append_cons]
        exact h.entered rest hempty hrest fun heq => hproper (congrArg (name :: ·) heq)

theorem finds_of_mem_foundIn {place : List Text} {entries : List (Text × Tree)} {name : Text}
    {tree : Tree} (hchild : (Tree.folder entries).child? name = some tree)
    (hbelow : ∀ found ∈ listing keeps prunes (place ++ [name]) tree, ∃ segments,
      found = place ++ [name] ++ segments ∧ Finds keeps prunes (place ++ [name]) tree segments)
    {found : List Text} (h : found ∈ foundIn keeps prunes place (name, tree)) :
    ∃ segments, found = place ++ name :: segments ∧
      Finds keeps prunes place (.folder entries) (name :: segments) := by
  cases tree with
  | file bytes =>
    rw [foundIn] at h
    split at h
    · rename_i hkeeps
      obtain rfl := List.mem_singleton.1 h
      refine ⟨[], rfl, ⟨bytes, ?_⟩, List.cons_ne_nil name [], hkeeps, ?_⟩
      · rw [Tree.find?, hchild]
        rfl
      · intro folder hne hfolder hproper
        rcases List.prefix_cons_iff.1 hfolder with rfl | ⟨rest, rfl, hrest⟩
        · exact absurd rfl hne
        · exact absurd (congrArg (name :: ·) (List.prefix_nil.1 hrest)) hproper
    · cases h
  | folder below =>
    rw [foundIn] at h
    split at h
    · cases h
    · rename_i hprunes
      obtain ⟨segments, rfl, hfinds⟩ := hbelow found h
      exact ⟨segments, by simp, hfinds.cons hchild (Bool.not_eq_true _ ▸ hprunes)⟩

/-- Whatever a walk finds stands below the folder where it began. -/
theorem finds_of_mem_listing {place : List Text} {tree : Tree} (hdistinct : tree.Distinct) :
    ∀ found ∈ listing keeps prunes place tree,
      ∃ segments, found = place ++ segments ∧ Finds keeps prunes place tree segments := by
  induction tree using Tree.induction_entries generalizing place with
  | hfile bytes =>
    rw [listing]
    exact fun _ hfound => absurd hfound List.not_mem_nil
  | hfolder entries ih =>
    intro found hfound
    obtain ⟨⟨name, tree⟩, hentry, hin⟩ :=
      List.mem_flatMap.1 ((listing_perm keeps prunes place entries).mem_iff.1 hfound)
    have hchild := hdistinct.child?_of_mem hentry
    obtain ⟨segments, rfl, hfinds⟩ :=
      finds_of_mem_foundIn hchild (ih (name, tree) hentry (hdistinct.child hchild)) hin
    exact ⟨name :: segments, rfl, hfinds⟩

/-- One folder further down, what leads through the folder leads from there. -/
theorem Finds.tail {place : List Text} {entries entries' : List (Text × Tree)} {name : Text}
    (hchild : (Tree.folder entries).child? name = some (.folder entries')) {segments : List Text}
    (h : Finds keeps prunes place (.folder entries) (name :: segments)) :
    prunes (place ++ [name]) = false ∧
      Finds keeps prunes (place ++ [name]) (.folder entries') segments := by
  obtain ⟨bytes, hfile⟩ := h.isFile
  rw [Tree.find?, hchild, Option.bind_some] at hfile
  have hne : segments ≠ [] := by
    rintro rfl
    cases hfile
  refine ⟨h.entered [name] (by simp) ⟨segments, rfl⟩ (by simpa using hne.symm), ?_⟩
  refine ⟨⟨bytes, hfile⟩, hne, ?_, ?_⟩
  · rw [← List.append_cons]
    exact h.kept
  · intro folder hempty hfolder hproper
    rw [← List.append_cons]
    apply h.entered _ (List.cons_ne_nil name folder) (List.prefix_cons_inj name |>.2 hfolder)
    exact fun heq => hproper (List.cons.inj heq).2

/-- A walk finds nothing twice. -/
theorem nodup_listing {place : List Text} {tree : Tree} (hdistinct : tree.Distinct) :
    (listing keeps prunes place tree).Nodup := by
  induction tree using Tree.induction_entries generalizing place with
  | hfile bytes =>
    rw [listing]
    exact List.nodup_nil
  | hfolder entries ih =>
    rw [(listing_perm keeps prunes place entries).nodup_iff, List.nodup_flatMap]
    constructor
    · rintro ⟨name, tree⟩ hentry
      have hdistinct' := hdistinct.child (hdistinct.child?_of_mem hentry)
      cases tree with
      | file bytes =>
        rw [foundIn]
        split <;> simp
      | folder below =>
        rw [foundIn]
        split
        · exact List.nodup_nil
        · exact ih _ hentry hdistinct'
    · have hnames := List.pairwise_map.1 (Tree.distinct_folder_iff.1 hdistinct).1
      -- The names that follow the place in what is found tell the entries apart.
      refine hnames.imp_of_mem ?_
      rintro ⟨name, tree⟩ ⟨other, tree'⟩ hentry hentry' hne found hfound hfound'
      have hstarts {name : Text} {tree : Tree} (hentry : (name, tree) ∈ entries)
          (hfound : found ∈ foundIn keeps prunes place (name, tree)) :
          ∃ segments, found = place ++ name :: segments := by
        have hchild := hdistinct.child?_of_mem hentry
        obtain ⟨segments, heq, -⟩ := finds_of_mem_foundIn hchild
          (finds_of_mem_listing (hdistinct.child hchild)) hfound
        exact ⟨segments, heq⟩
      obtain ⟨segments, heq⟩ := hstarts hentry hfound
      obtain ⟨segments', heq'⟩ := hstarts hentry' hfound'
      have hsame := List.append_cancel_left (heq.symm.trans heq')
      exact hne (List.cons.inj hsame).1

/-- A walk on which some file is found has held it against both patterns. -/
theorem stops_of_finds {limits : Limits} {f : Filter} {place : List Text} {calls : Option Nat}
    {tree : Tree} {segments : List Text} (h : Finds f.keeps f.prunes place tree segments)
    (hrefuses : Glob.refuses limits.expanding f.includes = true ∨
      Glob.refuses limits.expanding f.excludes = true) :
    Stops limits f place calls tree (.pattern .tooManyGroups) := by
  induction segments generalizing place calls tree with
  | nil => exact absurd rfl h.below
  | cons name rest ih =>
    obtain ⟨bytes, hfile⟩ := h.isFile
    rw [Tree.find?, Option.bind_eq_some_iff] at hfile
    obtain ⟨below, hchild, hbelow⟩ := hfile
    cases tree with
    | file bytes' => cases hchild
    | folder entries =>
      have hentry := Tree.mem_of_lookup hchild
      cases below with
      | file bytes' =>
        rcases hrefuses with hincludes | hexcludes
        · exact .included hentry hincludes
        · obtain rfl : rest = [] := by
            cases rest with
            | nil => rfl
            | cons next rest => cases hbelow
          have hkept := h.kept
          rw [Filter.keeps, Bool.and_eq_true] at hkept
          exact .excluded hentry hkept.1 hexcludes
      | folder entries' =>
        obtain ⟨hprunes, hrest⟩ := h.tail hchild
        exact .entered hentry hprunes (ih hrest)

theorem not_refuses_of_finds {limits : Limits} {f : Filter} {tree : Tree}
    {found : List (List Text)} (hfound : discover limits f tree = .ok found) {segments : List Text}
    (h : Finds f.keeps f.prunes [] tree segments) :
    Glob.refuses limits.expanding f.includes = false ∧
      Glob.refuses limits.expanding f.excludes = false := by
  rw [← Bool.not_eq_true, ← Bool.not_eq_true, ← not_or]
  exact fun hrefuses => (stops_of_finds h hrefuses).walk_ne_ok found hfound

end Discovery

namespace Path

theorem follow_append (place names more : List Text) :
    follow place (names ++ more) = follow (follow place names) more := by
  induction names generalizing place with
  | nil => rfl
  | cons name names ih =>
    rw [List.cons_append, follow, follow]
    split <;> exact ih _

theorem follow_of_not_mem {names : List Text} (h : ['.', '.'] ∉ names) (place : List Text) :
    follow place names = names.reverse ++ place := by
  induction names generalizing place with
  | nil => rfl
  | cons name names ih =>
    rw [List.mem_cons, not_or] at h
    rw [follow, if_neg (Ne.symm h.1), ih h.2, List.reverse_cons, List.append_assoc]
    rfl

/-- A path that goes on by names leads below where it led. -/
theorem resolve_below (cwd : List Text) (p : Path) {segments : List Text}
    (h : ['.', '.'] ∉ segments) :
    resolve cwd ⟨p.anchor, p.segments ++ segments⟩ = p.resolve cwd ++ segments := by
  rw [resolve, resolve, follow_append, follow_of_not_mem h, List.reverse_append, List.reverse_reverse]
  rfl

end Path

/-- The path goes from the root to a file that takes part: the first pattern accepts it, the second does
not, it lies in no folder that the second one prunes, and it is no test file. -/
structure Admitted (root : Path) (cwd : List Text) (filter : Discovery.Filter) (d : Disk) (path : Path)
    (place segments : List Text) : Prop where
  located : d.locate root = .ok place
  fromRoot : path = ⟨root.anchor, root.segments ++ segments⟩
  below : segments ≠ []
  leads : ['.', '.'] ∉ segments → path.resolve d.cwd = place ++ segments
  isFile : ∃ bytes, d.view (place ++ segments) = some (some bytes)
  readable : Glob.refuses d.limits.expanding filter.includes = false ∧
    Glob.refuses d.limits.expanding filter.excludes = false
  included : Glob.accepts filter.includes (Discovery.pathText segments) = true
  excluded : Glob.accepts filter.excludes (Discovery.pathText segments) = false
  entered : ∀ folder, folder ≠ [] → folder <+: segments → folder ≠ segments →
    Glob.accepts filter.excludes (Discovery.pathText folder ++ ['/']) = false
  tested : Path.isTestFile cwd root path = false

namespace Disk

variable {d : Disk} {root : Path} {f : Discovery.Filter} {paths : List Path}

theorem findFiles_eq_ok (h : d.findFiles root f = .ok paths) :
    paths = [] ∨ ∃ place tree found, d.locate root = .ok place ∧ d.tree.find? place = some tree ∧
      Discovery.discover d.limits f tree = .ok found ∧
        found = Discovery.listing f.keeps f.prunes [] tree ∧
        paths = found.map fun segments => ⟨root.anchor, root.segments ++ segments⟩ := by
  rw [findFiles] at h
  split at h
  · cases h
  · exact Or.inl (Except.ok.inj h).symm
  · rename_i place hplace
    split at h
    · exact Or.inl (Except.ok.inj h).symm
    · rename_i tree htree
      cases hfound : Discovery.discover d.limits f tree with
      | error fault =>
        rw [hfound] at h
        cases h
      | ok found =>
        rw [hfound] at h
        exact Or.inr ⟨place, tree, found, hplace, htree, hfound,
          Discovery.eq_listing_of_walk_eq_ok hfound, (Except.ok.inj h).symm⟩

theorem nodup_findFiles (h : d.findFiles root f = .ok paths) : paths.Nodup := by
  rcases findFiles_eq_ok h with rfl | ⟨place, tree, _, -, htree, -, rfl, rfl⟩
  · exact List.nodup_nil
  · apply (Discovery.nodup_listing (d.distinct.find? htree)).map
    intro segments segments' heq
    exact List.append_cancel_left (congrArg Path.segments heq)

theorem admitted_of_mem_findFiles (h : d.findFiles root f = .ok paths) {path : Path}
    (hpath : path ∈ paths) {cwd : List Text} (htested : Path.isTestFile cwd root path = false) :
    ∃ place segments, Admitted root cwd f d path place segments := by
  rcases findFiles_eq_ok h with rfl | ⟨place, tree, _, hplace, htree, hfound, rfl, rfl⟩
  · cases hpath
  · obtain ⟨segments, hsegments, rfl⟩ := List.mem_map.1 hpath
    obtain ⟨_, rfl, hfinds⟩ :=
      Discovery.finds_of_mem_listing (d.distinct.find? htree) segments hsegments
    have hkept := hfinds.kept
    rw [Discovery.Filter.keeps, Bool.and_eq_true, Bool.not_eq_true'] at hkept
    obtain ⟨bytes, hbytes⟩ := hfinds.isFile
    refine ⟨place, segments, hplace, rfl, hfinds.below, fun hup => ?_, ⟨bytes, ?_⟩,
      Discovery.not_refuses_of_finds hfound hfinds, hkept.1, hkept.2, hfinds.entered, htested⟩
    · rw [locate_eq hplace]
      exact Path.resolve_below d.cwd root hup
    · rw [view, Tree.view, Tree.find?_append, htree, Option.bind_some, hbytes]
      rfl

end Disk

end PropAccord
