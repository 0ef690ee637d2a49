import PropAccord.Sync.Engine
import PropAccord.Workspace.Basic

/-!
# Carrying out plans on disk

Before anything is written, every file of a plan is read again and must still have the text that was
scanned. A file is written beside its place and then moved there, so it changes as a whole or not at
all. When a write fails, the files written before are put back from their snapshots, the last one
first; files that cannot be put back are named in the error. Every text can be written as UTF-8, for a
surrogate that stands alone is no character of a text.
-/

namespace PropAccord.Workspace

set_option autoImplicit false

inductive RenderFault where
  | unreadable (f : ReadFault)
  | stale (path : Path)
  | broken (f : Fault)
deriving DecidableEq, Repr

/-- The new text of a file, whose present text must be the one that was scanned. -/
def renderFile (d : Disk) (f : FilePlan) : Except RenderFault (FilePlan × Text) :=
  match d.readText f.path with
  | .error fault => .error (.unreadable fault)
  | .ok current =>
    if current ≠ f.snapshot.text then .error (.stale f.path)
    else match f.apply with
      | .ok text => .ok (f, text)
      | .error fault => .error (.broken fault)

def render (d : Disk) : List FilePlan → Except RenderFault (List (FilePlan × Text))
  | [] => .ok []
  | f :: rest => do
    let first ← renderFile d f
    let others ← render d rest
    return first :: others

def writeFailed : Text := "disk full".toList

def restoreFailed (p : Path) : Text :=
  "could not restore ".toList ++ p.text ++ ": ".toList ++ writeFailed

def stage (w : Workspace) (p : Path) (bytes : Bytes) : Workspace :=
  { w with staged := (p, bytes) :: w.staged }

def moveStaged (w : Workspace) : Workspace :=
  match w.staged with
  | [] => w
  | (p, bytes) :: rest => { w with disk := w.disk.write p bytes, staged := rest }

def dropStaged (w : Workspace) : Workspace := { w with staged := w.staged.drop 1 }

def replaceFile (w : Workspace) (p : Path) (text : Text) : Bool × Workspace :=
  let written := { w.stage p (Utf8.encode text) with renames := w.renames + 1 }
  if w.failing.contains w.renames then (false, written.dropStaged) else (true, written.moveStaged)

/-- Writes files in order up to the first failure. The result says whether all were written, and
has the files that were, the last one first. -/
def writeAll (w : Workspace) (written : List FilePlan) :
    List (FilePlan × Text) → Bool × List FilePlan × Workspace
  | [] => (true, written, w)
  | (f, text) :: rest =>
    match w.replaceFile f.path text with
    | (true, w) => writeAll w (f :: written) rest
    | (false, w) => (false, written, w)

/-- Puts files back in the given order, and names those for which that failed. -/
def restoreAll (w : Workspace) : List FilePlan → List Text × Workspace
  | [] => ([], w)
  | f :: rest =>
    let (done, w) := w.replaceFile f.path f.snapshot.text
    let (failures, w) := restoreAll w rest
    if done then (failures, w) else (restoreFailed f.path :: failures, w)

def applyPlan (plan : Plan) : Run Workspace Bool := fun w =>
  let w := { w with lastError := none }
  match render w.disk plan.files with
  | .error (.broken fault) => (.error (.fault fault), w)
  | .error (.unreadable .nullByte) => (.error (.unreadable .nullByte), w)
  | .error (.unreadable fault) => (.ok false, { w with lastError := some fault.message })
  | .error (.stale path) =>
    (.ok false, { w with
      lastError := some ("File changed since it was scanned: ".toList ++ path.text) })
  | .ok rendered =>
    match w.writeAll [] rendered with
    | (true, _, w) => (.ok true, w)
    | (false, written, w) =>
      let (failures, w) := w.restoreAll written
      (.ok false, { w with lastError := some (Text.join "; ".toList (writeFailed :: failures)) })

def host (root : Path) (cwd : List Text) (consent : Consent) : Host Workspace where
  root := root
  cwd := cwd
  findFiles filter w := (w.disk.findFiles root filter).mapError .unlisted
  openDocument p w := passOver (w.openFile p)
  ask := ask consent
  applyPlan := applyPlan
  notify := notify consent

end PropAccord.Workspace
