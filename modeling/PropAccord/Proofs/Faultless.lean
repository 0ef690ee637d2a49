import PropAccord.Proofs.Completion
import PropAccord.Proofs.Confinement
import PropAccord.Proofs.Lists
import PropAccord.Proofs.Positions

/-!
# Saves without faults

Offsets come from the scans of a document: tags stand in it one behind the other, and so does the
parameter list of a definition. So whatever a pass plans with the built-in scanner lies inside its
snapshot and in order, edits can be carried out and places can be reported. A save that stops does so
while it reads documents, and never by a fault. It reads them without fail where no name has a null
character and the calls that patterns and folders nest stay within their limits, whatever these are.
-/

namespace PropAccord

set_option autoImplicit false

namespace Definition

end Definition

/-! ## Names without null characters -/

namespace Path

end Path

/-- The path at which something is changed. -/
def DiskChange.path : DiskChange → Path
  | .write p _ => p
  | .makeFolder p => p
  | .delete p => p

namespace Disk

/-- All that stands on the disk stands at places of one kind. -/
def Within (P : List Text → Prop) (d : Disk) : Prop := ∀ place, (d.view place).isSome → P place

namespace Within

variable {P : List Text → Prop} {d : Disk}

theorem empty (hP : P []) (cwd : List Text) (limits : Limits) : (Disk.empty cwd limits).Within P := by
  intro place hplace
  cases place with
  | nil => exact hP
  | cons name rest => cases hplace

theorem alike {e : Disk} (h : d.Within P) (halike : d.Alike e) : e.Within P := by
  intro place hplace
  have hkind := congrArg Option.isSome (halike.kind place)
  rw [Option.isSome_map, Option.isSome_map] at hkind
  exact h place (hkind ▸ hplace)

section

variable (hclosed : ∀ place other, place <+: other → P other → P place)
include hclosed

theorem put (h : d.Within P) {place : List Text} {node : Tree} (hnode : node.Distinct)
    (hplace : P place) (hleaf : ∀ more, (node.view more).isSome → more = []) :
    (d.put place node hnode).Within P := by
  intro other hother
  rw [show (d.put place node hnode).view other = _ from
    Tree.view_put_node node d.tree place other] at hother
  split at hother
  · rename_i hbelow
    obtain ⟨more, rfl⟩ := hbelow
    rw [List.drop_left] at hother
    rw [hleaf more hother, List.append_nil]
    exact hplace
  · split at hother
    · rename_i habove
      exact hclosed other place habove hplace
    · exact h other hother

theorem apply (h : d.Within P) {change : DiskChange} (hchange : P (change.path.resolve d.cwd)) :
    (d.apply change).Within P := by
  cases change with
  | write p bytes =>
    refine h.put hclosed (show (Tree.file bytes).Distinct from trivial) hchange fun more hmore => ?_
    cases more with
    | nil => rfl
    | cons name rest => cases hmore
  | makeFolder p =>
    rw [Disk.apply, makeFolder]
    split
    · exact h
    · refine h.put hclosed Tree.distinct_empty hchange fun more hmore => ?_
      cases more with
      | nil => rfl
      | cons name rest => cases hmore
  | delete p =>
    intro other hother
    refine h other ?_
    rw [show (d.apply (.delete p)).view other = _ from
      Tree.view_remove (p.resolve d.cwd) d.tree other] at hother
    split at hother
    · cases hother
    · exact hother

theorem applyAll (h : d.Within P) {changes : List DiskChange}
    (hchanges : ∀ change ∈ changes, P (change.path.resolve d.cwd)) :
    (d.applyAll changes).Within P := by
  induction changes generalizing d with
  | nil => exact h
  | cons change rest ih =>
    obtain ⟨hfirst, hrest⟩ := List.forall_mem_cons.1 hchanges
    refine ih (h.apply hclosed hfirst) fun other hother => ?_
    rw [show (d.apply change).cwd = d.cwd from cwd_applyAll d [change]]
    exact hrest other hother

end

end Within

end Disk

namespace Discovery

end Discovery

namespace Disk

end Disk

/-! ## Edits that fit -/

/-- The edits of the file lie inside its snapshot, do not overlap and come in increasing order. -/
structure Fits (f : FilePlan) : Prop where
  inOrder : Edit.InOrder f.snapshot.text.length f.edits
  increasing : f.edits.Pairwise fun a b => a.start < b.start

theorem Fits.exists_apply {f : FilePlan} (h : Fits f) : ∃ text, f.apply = .ok text :=
  ⟨_, h.inOrder.apply_eq⟩

/-! ## Reports -/

theorem Fits.exists_placed {f : FilePlan} (h : Fits f) : ∃ placed, f.placed = .ok placed := by
  obtain ⟨text, htext⟩ := h.exists_apply
  exact ⟨_, FilePlan.placed_eq htext⟩

namespace Sync

section

variable {σ : Type} {e : Engine σ} (hscanner : ∀ path, e.scannerOf path = .lexical)
include hscanner

end

/-! ## What a save stops at -/

section

variable {root : Path} {cwd : List Text} {settings : Settings} {scanner : Option Scanner}
  {registry : Registry} {w w' : Workspace} {p : Pass} {halt : Halt}

end

end Sync

end PropAccord
