import PropAccord.Disk.Basic
import PropAccord.Sync.Host

/-!
# Scripted answers

A script of answers stands in for the user. Before an answer is given, files may change behind the
back of whoever asked.
-/

namespace PropAccord

set_option autoImplicit false

inductive DiskChange where
  | write (path : Path) (bytes : Bytes)
  | makeFolder (path : Path)
  | delete (path : Path)

def Disk.apply (d : Disk) : DiskChange → Disk
  | .write path bytes => d.write path bytes
  | .makeFolder path => d.makeFolder path
  | .delete path => d.delete path

def Disk.applyAll (d : Disk) (changes : List DiskChange) : Disk := changes.foldl Disk.apply d

inductive Reply where
  | accept
  | cancel
  | nothing
  | label (text : Text)
deriving DecidableEq, Repr

def Reply.choice (prompt : Prompt) : Reply → Option Text
  | .accept => some prompt.accept
  | .cancel => some prompt.cancel
  | .nothing => none
  | .label text => some text

structure Answer where
  changes : List DiskChange := []
  reply : Reply := .accept

structure Asked where
  prompt : Prompt
  choice : Option Text
deriving DecidableEq, Repr

end PropAccord
