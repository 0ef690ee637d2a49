import PropAccord.Disk.Tree
import PropAccord.Glob.Basic

/-!
# Discovery of files

The files of a folder that match one pattern and do not match another, each by its place below the
folder. A folder whose path with a final slash matches the second pattern is not entered. In each
folder its own files come first, then its folders, both in order of their names.

The calls that a pattern and a walk nest may be limited. A pattern is a fault only where something is
held against it: in each folder that is entered, the folders in it are held against the second pattern,
its files against the first one, and those that match also against the second. To enter a folder takes
one more nested call.
-/

namespace PropAccord

set_option autoImplicit false

/-- How many nested calls can be made while a pattern is expanded and while folders are walked through,
where there is a limit. -/
structure Limits where
  expanding : Option Nat := none
  walking : Option Nat := none

inductive ListFault where
  | nullByte
  | pattern (fault : Glob.Fault)
  | tooDeep
deriving DecidableEq, Repr

def ListFault.message : ListFault → Text
  | .nullByte => "embedded null byte".toList
  | .pattern fault => fault.message
  | .tooDeep => "maximum recursion depth exceeded".toList

namespace Discovery

def pathText (place : List Text) : Text := Text.join ['/'] place

structure Filter where
  includes : Text
  excludes : Text

variable (limits : Limits) (f : Filter)

def Filter.admits (place : List Text) : Except Glob.Fault Bool := do
  if ← Glob.test limits.expanding f.includes (pathText place) then
    return !(← Glob.test limits.expanding f.excludes (pathText place))
  else return false

def Filter.bars (place : List Text) : Except Glob.Fault Bool :=
  Glob.test limits.expanding f.excludes (pathText place ++ ['/'])

def byName {α : Type} (named : List (Text × α)) : List (Text × α) :=
  named.mergeSort fun a b => Text.le a.1 b.1

def keptFiles (place : List Text) : List (Text × Tree) → Except Glob.Fault (List (Text × List Text))
  | [] => return []
  | (name, .file _) :: rest => do
    let admitted ← f.admits limits (place ++ [name])
    let others ← keptFiles place rest
    return if admitted then (name, place ++ [name]) :: others else others
  | (_, .folder _) :: rest => keptFiles place rest

mutual

/-- Walks through a folder that is entered with so many nested calls left. -/
def walk (place : List Text) (calls : Option Nat) : Tree → Except ListFault (List (List Text))
  | .file _ => return []
  | .folder entries => do
    if calls = some 0 then throw .tooDeep
    let folders ← (enteredFolders place (calls.map (· - 1)) entries).mapError .pattern
    let files ← (keptFiles limits f place entries).mapError .pattern
    let found ← (byName folders).mapM (·.2)
    return (byName files).map (·.2) ++ found.flatten

/-- The folders that are not barred, each with what walking through it comes to. -/
def enteredFolders (place : List Text) (calls : Option Nat) : List (Text × Tree) →
    Except Glob.Fault (List (Text × Except ListFault (List (List Text))))
  | [] => return []
  | (_, .file _) :: rest => enteredFolders place calls rest
  | (name, .folder entries) :: rest => do
    let barred ← f.bars limits (place ++ [name])
    let others ← enteredFolders place calls rest
    return if barred then others
      else (name, walk (place ++ [name]) calls (.folder entries)) :: others

end

def discover (tree : Tree) : Except ListFault (List (List Text)) :=
  walk limits f [] limits.walking tree

end Discovery

end PropAccord
