import PropAccord.Disk.Discovery
import PropAccord.Disk.Distinct
import PropAccord.Path.Basic
import PropAccord.Text.Newline

/-!
# Disks

A disk is a tree of files, with distinct names in each folder, and a working directory. Paths are
followed through the tree, where every name but the last must be a folder; names and paths have a
greatest length in bytes. Files are read as UTF-8 with unified line ends and written as they are. How
many calls can be nested while files are listed comes with the disk.
-/

namespace PropAccord

set_option autoImplicit false

/-- A tree of files from its root, the place of the working directory, and how far listings can nest
calls. -/
structure Disk where
  tree : Tree
  cwd : List Text
  limits : Limits
  distinct : tree.Distinct

inductive ReadFault where
  | missing (path : Path)
  | notFolder (path : Path)
  | isFolder (path : Path)
  | tooLong (path : Path)
  | nullByte
  | undecodable (fault : Utf8.Fault)
deriving DecidableEq, Repr

def ReadFault.message : ReadFault → Text
  | .missing path => "[Errno 2] No such file or directory: ".toList ++ Text.quoted path.text
  | .notFolder path => "[Errno 20] Not a directory: ".toList ++ Text.quoted path.text
  | .isFolder path => "[Errno 21] Is a directory: ".toList ++ Text.quoted path.text
  | .tooLong path => "[Errno 36] File name too long: ".toList ++ Text.quoted path.text
  | .nullByte => "embedded null byte".toList
  | .undecodable fault => fault.message

namespace Disk

def maxName : Nat := 255

def maxPath : Nat := 4095

/-- Follows names from a place, which is given by the names that lead to it, the nearest first. -/
def follow (path : Path) (tree : Tree) (place : List Text) : List Text → Except ReadFault (List Text)
  | [] => .ok place
  | name :: rest =>
    match tree.find? place.reverse with
    | none => .error (.missing path)
    | some (.file _) => .error (.notFolder path)
    | some (.folder entries) =>
      if name = ['.', '.'] then follow path tree (place.drop 1) rest
      else if maxName < (Utf8.encode name).length then .error (.tooLong path)
      else if (entries.lookup name).isSome then follow path tree (name :: place) rest
      else .error (.missing path)

def locate (d : Disk) (p : Path) : Except ReadFault (List Text) :=
  if p.hasNull then .error .nullByte
  else if maxPath < (Utf8.encode p.text).length then .error (.tooLong p)
  else List.reverse <$> follow p d.tree (if p.isAbsolute then [] else d.cwd.reverse) p.segments

def readBytes (d : Disk) (p : Path) : Except ReadFault Bytes := do
  match d.tree.find? (← d.locate p) with
  | some (.file bytes) => return bytes
  | some (.folder _) => throw (.isFolder p)
  | none => throw (.missing p)

/-- The text that bytes hold, with line feeds for all line ends. -/
def textOf (bytes : Bytes) : Except Utf8.Fault Text := Text.unifyNewlines <$> Utf8.decode bytes

def readText (d : Disk) (p : Path) : Except ReadFault Text := do
  match textOf (← d.readBytes p) with
  | .ok text => return text
  | .error fault => throw (.undecodable fault)

def empty (cwd : List Text) (limits : Limits := {}) : Disk :=
  ⟨.folder [], cwd, limits, Tree.distinct_empty⟩

def put (d : Disk) (place : List Text) (node : Tree) (h : node.Distinct) : Disk :=
  { d with tree := Tree.put node place d.tree, distinct := h.put d.distinct place }

def write (d : Disk) (p : Path) (bytes : Bytes) : Disk :=
  d.put (p.resolve d.cwd) (.file bytes) trivial

def makeFolder (d : Disk) (p : Path) : Disk :=
  if (d.tree.find? (p.resolve d.cwd)).isSome then d
  else d.put (p.resolve d.cwd) (.folder []) Tree.distinct_empty

def delete (d : Disk) (p : Path) : Disk :=
  { d with
    tree := d.tree.remove (p.resolve d.cwd)
    distinct := d.distinct.remove (p.resolve d.cwd) }

/-- The files below a folder that a filter keeps, as paths from that folder on. A folder that is not
there has none; a path that cannot name a folder is an error. -/
def findFiles (d : Disk) (root : Path) (f : Discovery.Filter) : Except ListFault (List Path) :=
  match d.locate root with
  | .error .nullByte => .error .nullByte
  | .error _ => .ok []
  | .ok place =>
    match d.tree.find? place with
    | none => .ok []
    | some tree => do
      let found ← Discovery.discover d.limits f tree
      return found.map fun segments => ⟨root.anchor, root.segments ++ segments⟩

def files (d : Disk) : List (List Text × Bytes) :=
  match d.tree.find? d.cwd with
  | some tree => tree.files []
  | none => []

/-- The files below the working directory that are not the same on both disks, with their bytes on
the second; a file that is gone has none. -/
def changes (old new : Disk) : List (List Text × Option Bytes) :=
  let before := old.files
  let after := new.files
  (after.filter fun (place, bytes) => before.lookup place ≠ some bytes).map
      (fun (place, bytes) => (place, some bytes)) ++
    (before.filter fun (place, _) => (after.lookup place).isNone).map fun (place, _) => (place, none)

end Disk

end PropAccord
