import PropAccord.Edit.Plan
import PropAccord.Path.TestFile
import PropAccord.Sync.Run

/-!
# Hosts

Synchronisation runs inside a host: something that lists and opens documents, asks the user, carries
out plans and gives notice. Files on a disk are one host, a connected editor is another.
-/

namespace PropAccord

set_option autoImplicit false

structure Prompt where
  message : Text
  accept : Text
  cancel : Text
deriving DecidableEq, Repr

/-- What synchronisation needs from its surroundings, whose states are in `σ`. -/
structure Host (σ : Type) where
  root : Path
  cwd : List Text
  findFiles : Discovery.Filter → σ → Except Halt (List Path)
  openDocument : Path → σ → Except Halt (Option Snapshot)
  /-- The answer to a question; the user may also give none. -/
  ask : Prompt → Run σ (Option Text)
  applyPlan : Plan → Run σ Bool
  notify : Text → Run σ Unit

namespace Host

variable {σ : Type}

/-- The documents that may be edited: files that the filter keeps, without the test files. -/
def candidates (host : Host σ) (filter : Discovery.Filter) (s : σ) : Except Halt (List Path) := do
  return (← host.findFiles filter s).filter fun p => !Path.isTestFile host.cwd host.root p

def openReadable (host : Host σ) (s : σ) : List Path → Except Halt (List Snapshot)
  | [] => .ok []
  | p :: rest => do
    let opened ← host.openDocument p s
    let others ← openReadable host s rest
    return opened.toList ++ others

end Host

end PropAccord
