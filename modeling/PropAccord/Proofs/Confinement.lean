import PropAccord.Proofs.Consent
import PropAccord.Proofs.Discovered

/-!
# What a save may touch

Every pass plans for documents that were found when it began, each of them once: files below the root
that take part and are no test files. What stands at any other place changes only by what the answers
change. For that, two disks are followed through the same changes: the disk of the save, and one that no
plan ever touched. They stay the same but for the places of the plans that were carried out, because a
plan only exchanges the bytes of files, and what a change does depends on nothing else.
-/

namespace PropAccord

set_option autoImplicit false

namespace Tree

/-- What stands at a place after something has been put somewhere. -/
theorem view_put_node (node tree : Tree) (place other : List Text) :
    (put node place tree).view other =
      if place <+: other then node.view (other.drop place.length)
      else if other <+: place then some none else tree.view other := by
  induction place generalizing tree other with
  | nil => rw [if_pos List.nil_prefix]; rfl
  | cons name rest ih =>
    rw [put]
    cases other with
    | nil => rw [if_neg (by simp), if_pos List.nil_prefix]; rfl
    | cons first others =>
      rw [view_cons, view_cons, child?, entries, lookup_setEntry]
      by_cases hfirst : first = name
      · subst hfirst
        rw [if_pos rfl, Option.bind_some, ih]
        simp only [List.prefix_cons_inj, List.length_cons, List.drop_succ_cons]
        split
        · rfl
        · split
          · rfl
          · rename_i hother
            cases tree.child? first with
            | some below => rfl
            | none =>
              cases others with
              | nil => exact absurd List.nil_prefix hother
              | cons next others => rfl
      · have hplace : ¬ name :: rest <+: first :: others :=
          fun h => hfirst (List.cons_prefix_cons.1 h).1.symm
        have hother : ¬ first :: others <+: name :: rest :=
          fun h => hfirst (List.cons_prefix_cons.1 h).1
        rw [if_neg hfirst, if_neg hplace, if_neg hother]
        rfl

theorem lookup_filter_ne (name other : Text) (entries : List (Text × Tree)) :
    (entries.filter (·.1 ≠ name)).lookup other =
      if other = name then none else entries.lookup other := by
  induction entries with
  | nil => simp
  | cons entry rest ih =>
    obtain ⟨first, tree⟩ := entry
    by_cases hfirst : first = name
    · subst hfirst
      rw [List.filter_cons_of_neg (by simp), ih, lookup_entry]
      split <;> rfl
    · rw [List.filter_cons_of_pos (by simpa using hfirst), lookup_entry, lookup_entry, ih]
      by_cases hother : other = first
      · rw [if_pos hother, if_pos hother, if_neg (hother ▸ hfirst)]
      · rw [if_neg hother, if_neg hother]

/-- What stands at a place after something has been removed. -/
theorem view_remove (place : List Text) (tree : Tree) (other : List Text) :
    (remove place tree).view other =
      if place ≠ [] ∧ place <+: other then none else tree.view other := by
  induction place generalizing tree other with
  | nil => rw [if_neg (by simp)]; rfl
  | cons name rest ih =>
    rw [remove]
    cases hchild : tree.child? name with
    | none =>
      simp only
      split
      · rename_i hbelow
        obtain ⟨more, rfl⟩ := hbelow.2
        rw [List.cons_append, view_cons, hchild]
        rfl
      · rfl
    | some below =>
      cases other with
      | nil =>
        cases tree with
        | file bytes => cases hchild
        | folder entries =>
          rw [if_neg (by simp)]
          simp only
          split <;> rfl
      | cons first others =>
        simp only [ne_eq, reduceCtorEq, not_false_eq_true, true_and, List.cons_prefix_cons, view_cons]
        by_cases hfirst : first = name
        · subst hfirst
          cases rest with
          | nil =>
            rw [if_pos List.isEmpty_nil, if_pos ⟨rfl, List.nil_prefix⟩, child?, entries,
              lookup_filter_ne, if_pos rfl]
            rfl
          | cons next rest =>
            rw [if_neg (by simp), child?, entries, lookup_setEntry, if_pos rfl, Option.bind_some, ih,
              hchild]
            simp
        · have hother : ¬ (name = first ∧ rest <+: others) := fun h => hfirst h.1.symm
          rw [if_neg hother]
          split
          · rw [child?, entries, lookup_filter_ne, if_neg hfirst]
            rfl
          · rw [child?, entries, lookup_setEntry, if_neg hfirst]
            rfl

end Tree

namespace Disk

/-- The two disks have the same folders and files, and files with the same bytes but for the places
that have been touched. -/
structure SameBut (touched : List Text → Prop) (d e : Disk) : Prop where
  alike : d.Alike e
  outside : ∀ place, ¬ touched place → e.view place = d.view place

namespace SameBut

variable {touched : List Text → Prop} {d e : Disk}

theorem refl (touched : List Text → Prop) (d : Disk) : SameBut touched d d :=
  ⟨.refl d, fun _ _ => rfl⟩

theorem trans {f : Disk} (h : SameBut touched d e) (h' : SameBut touched e f) :
    SameBut touched d f :=
  ⟨h.alike.trans h'.alike, fun place hplace =>
    (h'.outside place hplace).trans (h.outside place hplace)⟩

variable (h : SameBut touched d e)
include h

theorem put (place : List Text) (node : Tree) (hnode : node.Distinct) :
    SameBut touched (d.put place node hnode) (e.put place node hnode) := by
  have hview (d : Disk) (other : List Text) : (d.put place node hnode).view other =
      if place <+: other then node.view (other.drop place.length)
      else if other <+: place then some none else d.view other :=
    Tree.view_put_node node d.tree place other
  refine ⟨⟨h.alike.cwd, h.alike.limits, fun other => ?_⟩, fun other hother => ?_⟩
  · rw [hview, hview]
    split
    · rfl
    · split
      · rfl
      · exact h.alike.kind other
  · rw [hview, hview, h.outside other hother]

theorem delete (p : Path) : SameBut touched (d.delete p) (e.delete p) := by
  have hview (d : Disk) (other : List Text) : (d.delete p).view other =
      if p.resolve d.cwd ≠ [] ∧ p.resolve d.cwd <+: other then none else d.view other :=
    Tree.view_remove (p.resolve d.cwd) d.tree other
  refine ⟨⟨h.alike.cwd, h.alike.limits, fun other => ?_⟩, fun other hother => ?_⟩
  · rw [hview, hview, h.alike.cwd]
    split
    · rfl
    · exact h.alike.kind other
  · rw [hview, hview, h.alike.cwd, h.outside other hother]

/-- A change does the same on both disks. -/
theorem apply (change : DiskChange) : SameBut touched (d.apply change) (e.apply change) := by
  cases change with
  | write p bytes =>
    rw [Disk.apply, Disk.apply, write, write, h.alike.cwd]
    exact h.put _ _ _
  | makeFolder p =>
    have hstands : (e.tree.find? (p.resolve d.cwd)).isSome =
        (d.tree.find? (p.resolve d.cwd)).isSome := by
      simpa [view, Tree.view] using congrArg Option.isSome (h.alike.kind (p.resolve d.cwd))
    rw [Disk.apply, Disk.apply, makeFolder, makeFolder, h.alike.cwd, hstands]
    split
    · exact h
    · exact h.put _ _ _
  | delete p => exact h.delete p

theorem applyAll (changes : List DiskChange) :
    SameBut touched (d.applyAll changes) (e.applyAll changes) := by
  induction changes generalizing d e with
  | nil => exact h
  | cons change rest ih => exact ih (h.apply change)

end SameBut

theorem cwd_applyAll (d : Disk) (changes : List DiskChange) : (d.applyAll changes).cwd = d.cwd := by
  induction changes generalizing d with
  | nil => rfl
  | cons change rest ih =>
    refine (ih (d.apply change)).trans ?_
    cases change with
    | write p bytes => rfl
    | makeFolder p =>
      rw [apply, makeFolder]
      split <;> rfl
    | delete p => rfl

theorem applyAll_append (d : Disk) (changes more : List DiskChange) :
    d.applyAll (changes ++ more) = (d.applyAll changes).applyAll more :=
  List.foldl_append

end Disk

/-! ## Planned documents -/

namespace Sync

open Workspace (applyPlan)

section

variable {root : Path} {cwd : List Text} {settings : Settings} {scanner : Option Scanner}
  {registry : Registry} {w w' : Workspace} {p : Pass}

theorem candidates_eq (root : Path) (cwd : List Text) (filter : Discovery.Filter) (w : Workspace) :
    (Workspace.host root cwd .scripted).candidates filter w =
      match w.disk.findFiles root filter with
      | .error fault => .error (.unlisted fault)
      | .ok found => .ok (found.filter fun path => !Path.isTestFile cwd root path) := by
  change (w.disk.findFiles root filter).mapError Halt.unlisted >>= _ = _
  cases w.disk.findFiles root filter <;> rfl

/-- The documents that are opened were found, take part and are as they stand on the disk. -/
theorem admitted_of_snapshots {snapshots : List Snapshot}
    (h : Engine.snapshots { host := Workspace.host root cwd .scripted, settings, scanner, registry }
      w = .ok snapshots) :
    (snapshots.map Snapshot.path).Nodup ∧ ∀ s ∈ snapshots,
      w.disk.readText s.path = .ok s.text ∧ ∃ place segments,
        Admitted root cwd ⟨settings.includes, settings.excludes⟩ w.disk s.path place segments := by
  obtain ⟨paths, hcandidates, -, rfl⟩ :=
    Workspace.snapshots_eq_ok_iff.1 (show Engine.snapshots { host := _, settings } w = _ from h)
  obtain ⟨found, hfound, rfl⟩ : ∃ found, w.disk.findFiles root _ = .ok found ∧
      paths = found.filter fun path => !Path.isTestFile cwd root path := by
    rw [candidates_eq] at hcandidates
    split at hcandidates
    · cases hcandidates
    · rename_i found hfound
      exact ⟨found, hfound, (Except.ok.inj hcandidates).symm⟩
  have hopened : ∀ path s, document? w.disk path = some s →
      s.path = path ∧ w.disk.readText path = .ok s.text := by
    intro path s hs
    obtain ⟨text, htext, rfl⟩ := document?_eq_some_iff.1 hs
    exact ⟨rfl, htext⟩
  constructor
  · have hpaths := map_filterMap_sublist (fun path s hs => (hopened path s hs).1)
      (found.filter fun path => !Path.isTestFile cwd root path)
    exact ((Disk.nodup_findFiles hfound).filter _).sublist hpaths
  · intro s hs
    obtain ⟨path, hpath, hdocument⟩ := List.mem_filterMap.1 hs
    obtain ⟨hmem, htested⟩ := List.mem_filter.1 hpath
    obtain ⟨rfl, htext⟩ := hopened path s hdocument
    exact ⟨htext, Disk.admitted_of_mem_findFiles hfound hmem (by simpa using htested)⟩

theorem answers_of_performed (h : Performed (Workspace.host root cwd .scripted) w p w') :
    w'.answers = if p.asks then w.answers.drop 1 else w.answers := by
  have hask {choice : Option Text} {w₁ : Workspace}
      (hask : (Workspace.host root cwd .scripted).ask p.prompt w = (.ok choice, w₁)) :
      w₁.answers = w.answers.drop 1 := by
    cases hask
    rfl
  have happly {done : Bool} {w₁ w₂ : Workspace}
      (happly : (Workspace.host root cwd .scripted).applyPlan p.plan w₁ = (.ok done, w₂)) :
      w₂.answers = w₁.answers := by
    have hanswers := Workspace.applyPlan_answers p.plan w₁
    rw [show applyPlan p.plan w₁ = (.ok done, w₂) from happly] at hanswers
    exact hanswers
  cases h with
  | idle hasks => rw [if_neg hasks]
  | declined hstatus hasked _ =>
    have hasks : p.asks := Or.inl hstatus
    rw [if_pos hasks, hask hasked]
  | failed hstatus hasked hdone =>
    have hasks : p.asks := Or.inr (Or.inr hstatus)
    rw [if_pos hasks, happly hdone, hask hasked]
  | widened hstatus _ hasked hdone =>
    have hasks : p.asks := Or.inr (Or.inl hstatus)
    rw [if_pos hasks, happly hdone, hask hasked]
  | completed hstatus _ hasked hdone hnotify =>
    have hasks : p.asks := Or.inr (Or.inl hstatus)
    rw [if_pos hasks, ← hask hasked, ← happly hdone]
    cases hnotify
    rfl

/-- A pass on disk keeps to files that take part. -/
structure Confined (root : Path) (cwd : List Text) (filter : Discovery.Filter) (w : Workspace)
    (p : Pass) (w' : Workspace) : Prop where
  admitted : ∀ f ∈ p.plan.files, w.disk.readText f.path = .ok f.snapshot.text ∧
    ∃ place segments, Admitted root cwd filter w.disk f.path place segments
  distinct : p.plan.paths.Nodup
  consented : Consented w p w'
  answers : w'.answers = if p.asks then w.answers.drop 1 else w.answers

theorem confined_of_step
    (h : Step { host := Workspace.host root cwd .scripted, settings, scanner, registry } w p w') :
    Confined root cwd ⟨settings.includes, settings.excludes⟩ w p w' := by
  obtain ⟨snapshots, hsnapshots, hsublist, -⟩ := h.drawn.planned
  obtain ⟨hnodup, hadmitted⟩ := admitted_of_snapshots hsnapshots
  refine ⟨fun f hf => ?_, ?_, consented_of_performed h.performed, answers_of_performed h.performed⟩
  · exact hadmitted f.snapshot (hsublist.subset (List.mem_map_of_mem hf))
  · have hpaths : p.plan.paths = (p.plan.files.map FilePlan.snapshot).map Snapshot.path := by
      rw [List.map_map]
      rfl
    rw [hpaths]
    exact hnodup.sublist (hsublist.map _)

end

/-! ## What stands outside the plans -/

/-- The place of a target of a plan that was carried out, well or not. -/
def Touched (cwd : List Text) (passes : List Pass) (place : List Text) : Prop :=
  ∃ p ∈ passes, (p.status = .applied ∨ p.status = .applyFailed) ∧
    ∃ f ∈ p.plan.files, f.path.resolve cwd = place

/-- The changes that come with the answers to the questions of passes. -/
def changesDuring (w : Workspace) (passes : List Pass) : List DiskChange :=
  (w.answers.take (passes.countP fun p => p.asks)).flatMap Answer.changes

section

variable {root : Path} {cwd : List Text} {filter : Discovery.Filter} {w w' : Workspace}

theorem disk_metBy (w : Workspace) (p : Pass) :
    (metBy w p).disk = w.disk.applyAll (changesDuring w [p]) := by
  rw [changesDuring]
  by_cases hasks : p.asks
  · rw [metBy_of_asks hasks]
    have hdisk : (w.answered p.prompt).disk = w.disk.applyAll (w.answers.head?.getD {}).changes := rfl
    rw [hdisk, List.countP_cons_of_pos (by simpa using hasks)]
    cases w.answers <;> simp
  · rw [metBy, if_neg hasks, List.countP_cons_of_neg (by simpa using hasks)]
    rfl

theorem changesDuring_cons {p : Pass} (passes : List Pass)
    (h : w'.answers = if p.asks then w.answers.drop 1 else w.answers) :
    changesDuring w (p :: passes) = changesDuring w [p] ++ changesDuring w' passes := by
  rw [changesDuring, changesDuring, changesDuring, h]
  by_cases hasks : p.asks
  · rw [if_pos hasks, List.countP_cons_of_pos (by simpa using hasks),
      List.countP_cons_of_pos (by simpa using hasks)]
    cases w.answers <;> simp
  · rw [if_neg hasks, List.countP_cons_of_neg (by simpa using hasks),
      List.countP_cons_of_neg (by simpa using hasks)]
    rfl

/-- A pass does no more to a disk than the answer to its question, but for the targets of its plan. -/
theorem Confined.sameBut {p : Pass} (h : Confined root cwd filter w p w')
    {touched : List Text → Prop}
    (htouched : ∀ place, Touched w.disk.cwd [p] place → touched place) {d : Disk}
    (hsame : d.SameBut touched w.disk) :
    (d.applyAll (changesDuring w [p])).SameBut touched w'.disk := by
  have hmet : (d.applyAll (changesDuring w [p])).SameBut touched (metBy w p).disk := by
    rw [disk_metBy]
    exact hsame.applyAll _
  by_cases hcarried : p.status = .applied ∨ p.status = .applyFailed
  · obtain ⟨-, halike, hframe⟩ := Workspace.applyPlan_frame p.plan (metBy w p)
    have hcwd : (metBy w p).disk.cwd = w.disk.cwd := by rw [disk_metBy, Disk.cwd_applyAll]
    rw [(h.consented.carried hcarried).2]
    refine hmet.trans ⟨halike, fun place hplace => hframe place ?_⟩
    rintro f hf rfl
    rw [hcwd] at hplace
    exact hplace (htouched _ ⟨p, List.mem_singleton_self p, hcarried, f, hf, rfl⟩)
  · rw [h.consented.left hcarried]
    exact hmet

theorem Confined.cwd_eq {p : Pass} (h : Confined root cwd filter w p w') :
    w'.disk.cwd = w.disk.cwd := by
  have hsame := h.sameBut (fun _ => id) (.refl _ w.disk)
  rw [hsame.alike.cwd, Disk.cwd_applyAll]

/-- Passes do no more to a disk than the answers to their questions, but for the targets of plans that
were carried out. -/
theorem sameBut_of_trace {passes : List Pass} (h : Trace (Confined root cwd filter) w passes w')
    {touched : List Text → Prop}
    (htouched : ∀ place, Touched w.disk.cwd passes place → touched place) {d : Disk}
    (hsame : d.SameBut touched w.disk) :
    (d.applyAll (changesDuring w passes)).SameBut touched w'.disk := by
  induction h generalizing d with
  | nil w => exact hsame
  | @cons w w₁ w' p passes hp _ ih =>
    have hfirst := hp.sameBut (fun place ⟨q, hq, hplace⟩ => htouched place
      ⟨q, List.mem_singleton.1 hq ▸ List.mem_cons_self, hplace⟩) hsame
    rw [changesDuring_cons passes hp.answers, Disk.applyAll_append]
    refine ih (fun place hplace => htouched place ?_) hfirst
    obtain ⟨q, hq, hplace⟩ := hplace
    rw [hp.cwd_eq] at hplace
    exact ⟨q, List.mem_cons_of_mem p hq, hplace⟩

end

/-- Passes keep to files that take part. Of these they touch only targets of plans that were carried
out; everything else is as if nothing but the changes of the answers had happened. -/
structure ConfinedTo (root : Path) (cwd : List Text) (filter : Discovery.Filter) (w : Workspace)
    (passes : List Pass) (w' : Workspace) : Prop where
  steps : Trace (Confined root cwd filter) w passes w'
  kept : ∀ place, ¬ Touched w.disk.cwd passes place →
    w'.disk.view place = (w.disk.applyAll (changesDuring w passes)).view place

theorem confinedTo_of_trace {root : Path} {cwd : List Text} {settings : Settings}
    {scanner : Option Scanner} {registry : Registry} {w w' : Workspace} {passes : List Pass}
    (h : Trace (Step { host := Workspace.host root cwd .scripted, settings, scanner, registry }) w
      passes w') :
    ConfinedTo root cwd ⟨settings.includes, settings.excludes⟩ w passes w' := by
  have hsteps := h.imp fun _ _ _ hp => confined_of_step hp
  exact ⟨hsteps, (sameBut_of_trace hsteps (fun _ => id) (.refl _ w.disk)).outside⟩

/-- The passes of a run keep to files that take part, also when it stops. -/
def ConfinedRun (root : Path) (cwd : List Text) (filter : Discovery.Filter) (w : Workspace) :
    Except Halt Outcome × Workspace → Prop
  | (.ok outcome, w') => ConfinedTo root cwd filter w outcome.passes w'
  | (.error _, w') => ∃ passes w₁, ConfinedTo root cwd filter w passes w₁ ∧ Stopped w₁ w'

/-- A save on disk plans only for files below the root that take part and are no test files, for each
of them once in a plan, and leaves everything else as the answers leave it. -/
theorem save_confined (root : Path) (cwd : List Text) (settings : Settings)
    (scanner : Option Scanner) (registry : Registry) (event : SaveEvent) (w : Workspace) :
    ConfinedRun root cwd ⟨settings.includes, settings.excludes⟩ w (Engine.save
      { host := Workspace.host root cwd .scripted, settings, scanner, registry } event w) := by
  have hends := Engine.ends_save
    { host := Workspace.host root cwd .scripted, settings, scanner, registry } event w
  revert hends
  generalize Engine.save
    { host := Workspace.host root cwd .scripted, settings, scanner, registry } event w = run
  obtain ⟨halt | outcome, w'⟩ := run
  · rintro ⟨passes, w₁, htrace, hstop⟩
    exact ⟨passes, w₁, confinedTo_of_trace htrace, stopped_of_interrupted hstop.interrupted⟩
  · intro hsaves
    exact confinedTo_of_trace (Engine.Saves.trace hsaves)

end Sync

end PropAccord
