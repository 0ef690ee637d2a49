import PropAccord.Edit.Basic
import PropAccord.Edit.Snapshot

/-!
# Plans

A plan holds, for each document it touches, the snapshot that was scanned and the insertions and
replacements to make in it. Nothing is written before the whole plan is there.
-/

namespace PropAccord

set_option autoImplicit false

structure Insertion where
  offset : Int
  text : Text
deriving DecidableEq, Repr

def Insertion.edit (i : Insertion) : Edit := ⟨i.offset, i.offset, i.text⟩

structure FilePlan where
  snapshot : Snapshot
  insertions : List Insertion := []
  replacements : List Edit := []
deriving DecidableEq, Repr

namespace FilePlan

def path (f : FilePlan) : Path := f.snapshot.path

def edits (f : FilePlan) : List Edit :=
  Edit.sort (f.insertions.map Insertion.edit ++ f.replacements)

def apply (f : FilePlan) : Except Fault Text := Edit.apply f.edits f.snapshot.text

def isEmpty (f : FilePlan) : Bool := f.insertions.isEmpty && f.replacements.isEmpty

end FilePlan

structure Plan where
  files : List FilePlan := []
deriving DecidableEq, Repr

namespace Plan

def isEmpty (p : Plan) : Bool := p.files.all FilePlan.isEmpty

def paths (p : Plan) : List Path := p.files.map FilePlan.path

def editCount (p : Plan) : Nat :=
  p.files.foldr (fun f count => f.insertions.length + f.replacements.length + count) 0

end Plan

structure PlacedEdit where
  path : Path
  start : Position
  stop : Position
  replacement : Text
deriving DecidableEq, Repr

def Edit.place (s : Snapshot) (e : Edit) : Except Fault PlacedEdit := do
  let start ← s.positionAt e.start
  let stop ← s.positionAt e.stop
  return ⟨s.path, start, stop, e.text⟩

def FilePlan.placed (f : FilePlan) : Except Fault (List PlacedEdit) :=
  f.edits.mapM (Edit.place f.snapshot)

def Plan.placed (p : Plan) : Except Fault (List PlacedEdit) := do
  return (← p.files.mapM FilePlan.placed).flatten

end PropAccord
