import PropAccord.Disk.Discovery
import PropAccord.Proofs.BraceGroups

/-!
# Walks that stop

A walk stops where it holds something against a pattern with too many groups, or enters a folder with
no nested call left. If it does neither it comes to a listing, which knows of no limit: the files that a
filter keeps, folder by folder. So what is listed can be studied without the faults, and the faults
without the order of the list.
-/

namespace PropAccord

set_option autoImplicit false

/-- What holds of files, and of folders once it holds of what is in them, holds of all trees. -/
theorem Tree.induction_entries {P : Tree → Prop} (hfile : ∀ bytes, P (.file bytes))
    (hfolder : ∀ entries, (∀ entry ∈ entries, P entry.2) → P (.folder entries)) (tree : Tree) :
    P tree := by
  match tree with
  | .file bytes => exact hfile bytes
  | .folder entries =>
    apply hfolder
    rintro ⟨name, below⟩ hentry
    have := List.sizeOf_lt_of_mem hentry
    exact Tree.induction_entries hfile hfolder below
termination_by sizeOf tree
decreasing_by
  simp_wf
  simp only [Prod.mk.sizeOf_spec] at this
  omega

namespace Discovery

/-! ## Listings -/

def Filter.keeps (f : Filter) (place : List Text) : Bool :=
  Glob.accepts f.includes (pathText place) && !Glob.accepts f.excludes (pathText place)

def Filter.prunes (f : Filter) (place : List Text) : Bool :=
  Glob.accepts f.excludes (pathText place ++ ['/'])

mutual

def listing (keeps prunes : List Text → Bool) (place : List Text) : Tree → List (List Text)
  | .file _ => []
  | .folder entries =>
    (byName (ownFiles keeps place entries)).map (·.2) ++
      ((byName (subfolders keeps prunes place entries)).map (·.2)).flatten

def ownFiles (keeps : List Text → Bool) (place : List Text) :
    List (Text × Tree) → List (Text × List Text)
  | [] => []
  | (name, .file _) :: rest =>
    if keeps (place ++ [name]) then (name, place ++ [name]) :: ownFiles keeps place rest
    else ownFiles keeps place rest
  | (_, .folder _) :: rest => ownFiles keeps place rest

def subfolders (keeps prunes : List Text → Bool) (place : List Text) :
    List (Text × Tree) → List (Text × List (List Text))
  | [] => []
  | (_, .file _) :: rest => subfolders keeps prunes place rest
  | (name, .folder entries) :: rest =>
    if prunes (place ++ [name]) then subfolders keeps prunes place rest
    else
      (name, listing keeps prunes (place ++ [name]) (.folder entries)) ::
        subfolders keeps prunes place rest

end

/-! ## Faults -/

variable (limits : Limits) (f : Filter)

/-- A walk stops in a folder that it enters with so many nested calls left, or in one that it enters from
there. -/
inductive Stops : List Text → Option Nat → Tree → ListFault → Prop where
  | deep {place : List Text} {entries : List (Text × Tree)} :
      Stops place (some 0) (.folder entries) .tooDeep
  | folder {place : List Text} {calls : Option Nat} {entries below : List (Text × Tree)} {name : Text} :
      (name, Tree.folder below) ∈ entries → Glob.refuses limits.expanding f.excludes = true →
      Stops place calls (.folder entries) (.pattern .tooManyGroups)
  | included {place : List Text} {calls : Option Nat} {entries : List (Text × Tree)} {name : Text}
      {bytes : Bytes} : (name, Tree.file bytes) ∈ entries →
      Glob.refuses limits.expanding f.includes = true →
      Stops place calls (.folder entries) (.pattern .tooManyGroups)
  | excluded {place : List Text} {calls : Option Nat} {entries : List (Text × Tree)} {name : Text}
      {bytes : Bytes} : (name, Tree.file bytes) ∈ entries →
      Glob.accepts f.includes (pathText (place ++ [name])) = true →
      Glob.refuses limits.expanding f.excludes = true →
      Stops place calls (.folder entries) (.pattern .tooManyGroups)
  | entered {place : List Text} {calls : Option Nat} {entries below : List (Text × Tree)} {name : Text}
      {fault : ListFault} : (name, Tree.folder below) ∈ entries → f.prunes (place ++ [name]) = false →
      Stops (place ++ [name]) (calls.map (· - 1)) (.folder below) fault →
      Stops place calls (.folder entries) fault

/-- Some pattern that the place of a file is held against has too many groups. -/
def Filter.fails (place : List Text) : Bool :=
  Glob.refuses limits.expanding f.includes ||
    (Glob.accepts f.includes (pathText place) && Glob.refuses limits.expanding f.excludes)

theorem Filter.admits_eq (place : List Text) : f.admits limits place =
    if f.fails limits place then .error .tooManyGroups else .ok (f.keeps place) := by
  rw [admits, Glob.test_eq, Glob.test_eq, fails, keeps]
  cases Glob.refuses limits.expanding f.includes <;>
    cases Glob.accepts f.includes (pathText place) <;>
    cases Glob.refuses limits.expanding f.excludes <;> rfl

theorem Filter.bars_eq (place : List Text) : f.bars limits place =
    if Glob.refuses limits.expanding f.excludes then .error .tooManyGroups else .ok (f.prunes place) :=
  Glob.test_eq limits.expanding f.excludes _

section

variable {limits f} {place : List Text} {calls : Option Nat} {entries : List (Text × Tree)}

theorem keptFiles_of_fails {name : Text} {bytes : Bytes} (hentry : (name, Tree.file bytes) ∈ entries)
    (hfails : f.fails limits (place ++ [name]) = true) :
    keptFiles limits f place entries = .error .tooManyGroups := by
  induction entries with
  | nil => cases hentry
  | cons entry rest ih =>
    obtain ⟨first, tree⟩ := entry
    cases tree with
    | file bytes' =>
      rw [keptFiles, Filter.admits_eq]
      rcases List.mem_cons.1 hentry with heq | hrest
      · cases heq
        rw [hfails]
        rfl
      · rw [ih hrest]
        split <;> rfl
    | folder below =>
      rcases List.mem_cons.1 hentry with heq | hrest
      · cases heq
      · exact ih hrest

theorem keptFiles_of_forall (h : ∀ name bytes, (name, Tree.file bytes) ∈ entries →
    f.fails limits (place ++ [name]) = false) :
    keptFiles limits f place entries = .ok (ownFiles f.keeps place entries) := by
  induction entries with
  | nil => rw [keptFiles, ownFiles]; rfl
  | cons entry rest ih =>
    have ih := ih fun name bytes hentry => h name bytes (List.mem_cons_of_mem entry hentry)
    obtain ⟨first, tree⟩ := entry
    cases tree with
    | file bytes =>
      rw [keptFiles, ownFiles, Filter.admits_eq, h first bytes List.mem_cons_self, ih]
      cases f.keeps (place ++ [first]) <;> rfl
    | folder below =>
      rw [keptFiles, ownFiles]
      exact ih

/-- The walks through the folders that are not pruned. -/
def walks (limits : Limits) (f : Filter) (place : List Text) (calls : Option Nat)
    (entries : List (Text × Tree)) : List (Text × Except ListFault (List (List Text))) :=
  entries.filterMap fun
    | (_, .file _) => none
    | (name, .folder below) =>
      if f.prunes (place ++ [name]) then none
      else some (name, walk limits f (place ++ [name]) calls (.folder below))

theorem walks_cons_folder {name : Text} {below : List (Text × Tree)} :
    walks limits f place calls ((name, .folder below) :: entries) =
      if f.prunes (place ++ [name]) then walks limits f place calls entries
      else (name, walk limits f (place ++ [name]) calls (.folder below)) ::
        walks limits f place calls entries := by
  rw [walks, List.filterMap_cons]
  dsimp only
  cases f.prunes (place ++ [name]) <;> rfl

theorem mem_walks_of_mem {name : Text} {below : List (Text × Tree)}
    (hentry : (name, Tree.folder below) ∈ entries) (hprunes : f.prunes (place ++ [name]) = false) :
    (name, walk limits f (place ++ [name]) calls (.folder below)) ∈
      walks limits f place calls entries := by
  refine List.mem_filterMap.2 ⟨_, hentry, ?_⟩
  dsimp only
  rw [if_neg (by rw [hprunes]; exact Bool.false_ne_true)]

theorem enteredFolders_of_refuses {name : Text} {below : List (Text × Tree)}
    (hentry : (name, Tree.folder below) ∈ entries)
    (hrefuses : Glob.refuses limits.expanding f.excludes = true) :
    enteredFolders limits f place calls entries = .error .tooManyGroups := by
  induction entries with
  | nil => cases hentry
  | cons entry rest ih =>
    obtain ⟨first, tree⟩ := entry
    cases tree with
    | file bytes =>
      rcases List.mem_cons.1 hentry with heq | hrest
      · cases heq
      · rw [enteredFolders]
        exact ih hrest
    | folder below' =>
      rw [enteredFolders, Filter.bars_eq, hrefuses]
      rfl

theorem enteredFolders_eq_walks (h : ∀ name below, (name, Tree.folder below) ∈ entries →
    Glob.refuses limits.expanding f.excludes = false) :
    enteredFolders limits f place calls entries = .ok (walks limits f place calls entries) := by
  induction entries with
  | nil => rw [enteredFolders]; rfl
  | cons entry rest ih =>
    have ih := ih fun name below hentry => h name below (List.mem_cons_of_mem entry hentry)
    obtain ⟨first, tree⟩ := entry
    cases tree with
    | file bytes =>
      rw [enteredFolders]
      exact ih
    | folder below =>
      rw [enteredFolders, Filter.bars_eq, h first below List.mem_cons_self, ih, walks_cons_folder]
      cases f.prunes (place ++ [first]) <;> rfl

/-- Where no walk stops, what they come to is what is listed. -/
theorem walks_eq_of_forall (h : ∀ name below, (name, Tree.folder below) ∈ entries →
    f.prunes (place ++ [name]) = false → walk limits f (place ++ [name]) calls (.folder below) =
      .ok (listing f.keeps f.prunes (place ++ [name]) (.folder below))) :
    walks limits f place calls entries =
      (subfolders f.keeps f.prunes place entries).map fun found => (found.1, .ok found.2) := by
  induction entries with
  | nil => rw [subfolders]; rfl
  | cons entry rest ih =>
    have ih := ih fun name below hentry => h name below (List.mem_cons_of_mem entry hentry)
    obtain ⟨first, tree⟩ := entry
    cases tree with
    | file bytes =>
      rw [subfolders]
      exact ih
    | folder below =>
      rw [subfolders, walks_cons_folder]
      cases hprunes : f.prunes (place ++ [first]) with
      | true => exact ih
      | false =>
        rw [h first below List.mem_cons_self hprunes, ih]
        rfl

theorem byName_perm {α : Type} (named : List (Text × α)) : (byName named).Perm named :=
  List.mergeSort_perm named _

theorem mapM_byName (found : List (Text × List (List Text))) :
    (byName (found.map fun entry => (entry.1, (.ok entry.2 : Except ListFault _)))).mapM (·.2) =
      .ok ((byName found).map (·.2)) := by
  have hsorted : (byName found).map (fun entry => (entry.1, (.ok entry.2 : Except ListFault _))) =
      byName (found.map fun entry => (entry.1, .ok entry.2)) :=
    List.map_mergeSort fun _ _ _ _ => rfl
  rw [← hsorted, List.mapM_map]
  exact mapM_eq_ok_map fun _ _ => rfl

theorem walk_of_refuses (hcalls : calls ≠ some 0) {name : Text} {below : List (Text × Tree)}
    (hentry : (name, Tree.folder below) ∈ entries)
    (hrefuses : Glob.refuses limits.expanding f.excludes = true) :
    walk limits f place calls (.folder entries) = .error (.pattern .tooManyGroups) := by
  rw [walk, if_neg hcalls, enteredFolders_of_refuses hentry hrefuses]
  rfl

theorem walk_of_fails (hcalls : calls ≠ some 0)
    (hfolders : ∀ name below, (name, Tree.folder below) ∈ entries →
      Glob.refuses limits.expanding f.excludes = false)
    {name : Text} {bytes : Bytes} (hentry : (name, Tree.file bytes) ∈ entries)
    (hfails : f.fails limits (place ++ [name]) = true) :
    walk limits f place calls (.folder entries) = .error (.pattern .tooManyGroups) := by
  rw [walk, if_neg hcalls, enteredFolders_eq_walks hfolders, keptFiles_of_fails hentry hfails]
  rfl

/-- Nothing stops a walk before it goes on into the folders of this one. -/
structure Clear (limits : Limits) (f : Filter) (place : List Text) (calls : Option Nat)
    (entries : List (Text × Tree)) : Prop where
  calls : calls ≠ some 0
  folders : ∀ name below, (name, Tree.folder below) ∈ entries →
    Glob.refuses limits.expanding f.excludes = false
  files : ∀ name bytes, (name, Tree.file bytes) ∈ entries → f.fails limits (place ++ [name]) = false

theorem Clear.walk_eq (h : Clear limits f place calls entries) :
    walk limits f place calls (.folder entries) = do
      let found ← (byName (walks limits f place (calls.map (· - 1)) entries)).mapM (·.2)
      return (byName (ownFiles f.keeps place entries)).map (·.2) ++ found.flatten := by
  rw [walk, if_neg h.calls, enteredFolders_eq_walks h.folders, keptFiles_of_forall h.files]
  rfl

theorem stops_of_fails {name : Text} {bytes : Bytes} (hentry : (name, Tree.file bytes) ∈ entries)
    (hfails : f.fails limits (place ++ [name]) = true) :
    Stops limits f place calls (.folder entries) (.pattern .tooManyGroups) := by
  rw [Filter.fails, Bool.or_eq_true, Bool.and_eq_true] at hfails
  rcases hfails with hrefuses | ⟨haccepts, hrefuses⟩
  · exact .included hentry hrefuses
  · exact .excluded hentry haccepts hrefuses

theorem clear_or_stops (limits : Limits) (f : Filter) (place : List Text) (calls : Option Nat)
    (entries : List (Text × Tree)) : Clear limits f place calls entries ∨
      ∃ fault, walk limits f place calls (.folder entries) = .error fault ∧
        Stops limits f place calls (.folder entries) fault := by
  by_cases hcalls : calls = some 0
  · right
    rw [walk, if_pos hcalls]
    exact ⟨.tooDeep, rfl, hcalls ▸ .deep⟩
  by_cases hfolder : ∃ name below, (name, Tree.folder below) ∈ entries ∧
      Glob.refuses limits.expanding f.excludes = true
  · obtain ⟨name, below, hentry, hrefuses⟩ := hfolder
    exact Or.inr ⟨_, walk_of_refuses hcalls hentry hrefuses, .folder hentry hrefuses⟩
  have hfolders : ∀ name below, (name, Tree.folder below) ∈ entries →
      Glob.refuses limits.expanding f.excludes = false := fun name below hentry =>
    Bool.not_eq_true _ ▸ fun hrefuses => hfolder ⟨name, below, hentry, hrefuses⟩
  by_cases hfile : ∃ name bytes, (name, Tree.file bytes) ∈ entries ∧
      f.fails limits (place ++ [name]) = true
  · obtain ⟨name, bytes, hentry, hfails⟩ := hfile
    exact Or.inr ⟨_, walk_of_fails hcalls hfolders hentry hfails, stops_of_fails hentry hfails⟩
  · exact Or.inl ⟨hcalls, hfolders, fun name bytes hentry =>
      Bool.not_eq_true _ ▸ fun hfails => hfile ⟨name, bytes, hentry, hfails⟩⟩

theorem Clear.exists_of_walk_eq_ok (hclear : Clear limits f place calls entries)
    {found : List (List Text)} (h : walk limits f place calls (.folder entries) = .ok found) :
    ∃ below, (byName (walks limits f place (calls.map (· - 1)) entries)).mapM (·.2) = .ok below ∧
      found = (byName (ownFiles f.keeps place entries)).map (·.2) ++ below.flatten := by
  rw [hclear.walk_eq] at h
  cases hbelow : (byName (walks limits f place (calls.map (· - 1)) entries)).mapM (·.2) with
  | error fault =>
    rw [hbelow] at h
    cases h
  | ok below =>
    rw [hbelow] at h
    exact ⟨below, rfl, (Except.ok.inj h).symm⟩

theorem Clear.exists_stops (hclear : Clear limits f place calls entries) {fault : ListFault}
    (h : Stops limits f place calls (.folder entries) fault) :
    ∃ name below, (name, Tree.folder below) ∈ entries ∧ f.prunes (place ++ [name]) = false ∧
      Stops limits f (place ++ [name]) (calls.map (· - 1)) (.folder below) fault := by
  cases h with
  | deep => exact absurd rfl hclear.calls
  | folder hentry hrefuses => cases hrefuses.symm.trans (hclear.folders _ _ hentry)
  | included hentry hrefuses =>
    have hfails := hclear.files _ _ hentry
    rw [Filter.fails, hrefuses] at hfails
    cases hfails
  | excluded hentry haccepts hrefuses =>
    have hfails := hclear.files _ _ hentry
    rw [Filter.fails, haccepts, hrefuses, Bool.true_and, Bool.or_true] at hfails
    cases hfails
  | entered hentry hprunes hstops => exact ⟨_, _, hentry, hprunes, hstops⟩

/-- Where something is to stop at, a walk stops there or before. -/
theorem Stops.walk_ne_ok {tree : Tree} {fault : ListFault} (h : Stops limits f place calls tree fault)
    (found : List (List Text)) : walk limits f place calls tree ≠ .ok found := by
  intro hok
  induction tree using Tree.induction_entries generalizing place calls found with
  | hfile bytes => cases h
  | hfolder entries ih =>
    rcases clear_or_stops limits f place calls entries with hclear | ⟨_, herror, -⟩
    · obtain ⟨name, below, hentry, hprunes, hstops⟩ := hclear.exists_stops h
      obtain ⟨lists, hlists, -⟩ := hclear.exists_of_walk_eq_ok hok
      obtain ⟨list, hlist⟩ := exists_eq_ok_of_mapM_eq_ok hlists
        ((byName_perm _).mem_iff.2 (mem_walks_of_mem hentry hprunes))
      exact ih _ hentry hstops list hlist
    · cases hok.symm.trans herror

/-- A walk that is not stopped comes to what is listed. -/
theorem eq_listing_of_walk_eq_ok {tree : Tree} {found : List (List Text)}
    (h : walk limits f place calls tree = .ok found) :
    found = listing f.keeps f.prunes place tree := by
  induction tree using Tree.induction_entries generalizing place calls found with
  | hfile bytes =>
    rw [walk] at h
    rw [listing]
    exact (Except.ok.inj h).symm
  | hfolder entries ih =>
    rcases clear_or_stops limits f place calls entries with hclear | ⟨fault, herror, -⟩
    · obtain ⟨lists, hlists, rfl⟩ := hclear.exists_of_walk_eq_ok h
      rw [walks_eq_of_forall, mapM_byName] at hlists
      · rw [listing, Except.ok.inj hlists]
      · intro name below hentry hprunes
        obtain ⟨list, hlist⟩ := exists_eq_ok_of_mapM_eq_ok hlists
          ((byName_perm _).mem_iff.2 (mem_walks_of_mem hentry hprunes))
        exact hlist.trans (congrArg Except.ok (ih _ hentry hlist))
    · cases h.symm.trans herror

end

end Discovery

end PropAccord
