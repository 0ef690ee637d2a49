import PropAccord.Disk.Tree

/-!
# Names in folders

No folder of a disk has two entries with one name. Putting something at a place and removing what
stands there keep it so.
-/

namespace PropAccord.Tree

set_option autoImplicit false

mutual

/-- No folder of the tree has two entries with one name. -/
def Distinct : Tree → Prop
  | .file _ => True
  | .folder entries => (entries.map (·.1)).Nodup ∧ DistinctBelow entries

def DistinctBelow : List (Text × Tree) → Prop
  | [] => True
  | (_, tree) :: rest => Distinct tree ∧ DistinctBelow rest

end

theorem distinctBelow_iff {entries : List (Text × Tree)} :
    DistinctBelow entries ↔ ∀ entry ∈ entries, entry.2.Distinct := by
  induction entries with
  | nil => simp [DistinctBelow]
  | cons entry rest ih =>
    obtain ⟨name, tree⟩ := entry
    simp [DistinctBelow, ih]

theorem distinct_folder_iff {entries : List (Text × Tree)} :
    (folder entries).Distinct ↔
      (entries.map (·.1)).Nodup ∧ ∀ entry ∈ entries, entry.2.Distinct := by
  rw [Distinct, distinctBelow_iff]

theorem distinct_empty : (folder []).Distinct :=
  distinct_folder_iff.2 ⟨List.nodup_nil, fun _ h => absurd h List.not_mem_nil⟩

theorem Distinct.entries {tree : Tree} (h : tree.Distinct) : (folder tree.entries).Distinct := by
  cases tree with
  | file bytes => exact distinct_empty
  | folder entries => exact h

theorem mem_of_lookup {name : Text} {tree : Tree} {entries : List (Text × Tree)}
    (h : entries.lookup name = some tree) : (name, tree) ∈ entries := by
  induction entries with
  | nil => simp at h
  | cons entry rest ih =>
    obtain ⟨other, found⟩ := entry
    rw [List.lookup_cons] at h
    split at h
    · rename_i heq
      rw [eq_of_beq heq]
      cases h
      exact List.mem_cons_self
    · exact List.mem_cons_of_mem _ (ih h)

theorem Distinct.child {tree below : Tree} {name : Text} (h : tree.Distinct)
    (hc : tree.child? name = some below) : below.Distinct :=
  (distinct_folder_iff.1 h.entries).2 _ (mem_of_lookup hc)

theorem mem_setEntry {name : Text} {tree : Tree} {entries : List (Text × Tree)}
    {entry : Text × Tree} (h : entry ∈ setEntry name tree entries) :
    entry = (name, tree) ∨ entry ∈ entries := by
  induction entries with
  | nil =>
    rw [setEntry, List.mem_singleton] at h
    exact .inl h
  | cons first rest ih =>
    rw [setEntry] at h
    split at h
    · rcases List.mem_cons.1 h with h | h
      · exact .inl h
      · exact .inr (List.mem_cons_of_mem _ h)
    · rcases List.mem_cons.1 h with rfl | h
      · exact .inr List.mem_cons_self
      · exact (ih h).imp id (List.mem_cons_of_mem _)

theorem nodup_names_setEntry (name : Text) (tree : Tree) {entries : List (Text × Tree)}
    (h : (entries.map (·.1)).Nodup) : ((setEntry name tree entries).map (·.1)).Nodup := by
  induction entries with
  | nil => simp [setEntry]
  | cons first rest ih =>
    rw [List.map_cons, List.nodup_cons] at h
    rw [setEntry]
    split
    · rename_i heq
      rw [List.map_cons, List.nodup_cons]
      exact ⟨heq ▸ h.1, h.2⟩
    · rename_i hne
      rw [List.map_cons, List.nodup_cons]
      refine ⟨fun hmem => ?_, ih h.2⟩
      obtain ⟨entry, hentry, heq⟩ := List.mem_map.1 hmem
      rcases mem_setEntry hentry with rfl | hentry
      · exact hne heq.symm
      · exact h.1 (List.mem_map.2 ⟨entry, hentry, heq⟩)

theorem Distinct.setEntry {name : Text} {tree : Tree} {entries : List (Text × Tree)}
    (ht : tree.Distinct) (h : (folder entries).Distinct) :
    (folder (setEntry name tree entries)).Distinct := by
  rw [distinct_folder_iff] at h ⊢
  refine ⟨nodup_names_setEntry name tree h.1, fun entry hentry => ?_⟩
  rcases mem_setEntry hentry with rfl | hentry
  · exact ht
  · exact h.2 entry hentry

theorem Distinct.put {node tree : Tree} (hn : node.Distinct) (h : tree.Distinct)
    (place : List Text) : (put node place tree).Distinct := by
  induction place generalizing tree with
  | nil => exact hn
  | cons name rest ih =>
    rw [Tree.put]
    refine Distinct.setEntry (ih ?_) h.entries
    cases hc : tree.child? name with
    | none => exact distinct_empty
    | some below => exact h.child hc

theorem Distinct.remove {tree : Tree} (h : tree.Distinct) (place : List Text) :
    (remove place tree).Distinct := by
  induction place generalizing tree with
  | nil => exact h
  | cons name rest ih =>
    rw [Tree.remove]
    split
    · exact h
    · rename_i below hc
      split
      · have hd := distinct_folder_iff.1 h.entries
        rw [distinct_folder_iff]
        exact ⟨hd.1.sublist (List.filter_sublist.map _),
          fun entry hentry => hd.2 entry (List.mem_filter.1 hentry).1⟩
      · exact Distinct.setEntry (ih (h.child hc)) h.entries

end PropAccord.Tree
