import PropAccord.Disk.Basic
import PropAccord.Fault
import PropAccord.Settings.File
import PropAccord.Uri.Basic

/-!
# Runs

A run works on a state and ends with a result or a reason to stop. What it did to the state before
it stopped stays done.
-/

namespace PropAccord

set_option autoImplicit false

inductive Halt where
  | fault (f : Fault)
  | badUri (f : Uri.Fault)
  | relativeUri
  | unreadable (f : ReadFault)
  | unlisted (f : ListFault)
  | unsettled (f : Settings.Fault)
  | aborted
deriving DecidableEq, Repr

def Halt.message : Halt → Text
  | .fault f => f.message
  | .badUri f => f.message
  | .relativeUri => "relative path can't be expressed as a file URI".toList
  | .unreadable f => f.message
  | .unlisted f => f.message
  | .unsettled f => f.message
  | .aborted => []

/-- What comes of an attempt to read: files that cannot be read are passed over, but a path that
cannot name a file is a reason to stop. -/
def passOver {α : Type} : Except ReadFault α → Except Halt (Option α)
  | .ok a => .ok (some a)
  | .error .nullByte => .error (.unreadable .nullByte)
  | .error _ => .ok none

/-- A run with states in `σ` and results in `α`. -/
def Run (σ α : Type) := σ → Except Halt α × σ

namespace Run

variable {σ α β : Type}

def done (a : α) : Run σ α := fun s => (.ok a, s)

def andThen (m : Run σ α) (f : α → Run σ β) : Run σ β := fun s =>
  match m s with
  | (.ok a, s') => f a s'
  | (.error h, s') => (.error h, s')

instance : Monad (Run σ) where
  pure := done
  bind := andThen

def stop (h : Halt) : Run σ α := fun s => (.error h, s)

def read (f : σ → α) : Run σ α := fun s => (.ok (f s), s)

def tryRead (f : σ → Except Halt α) : Run σ α := fun s => (f s, s)

def change (f : σ → σ) : Run σ Unit := fun s => (.ok (), f s)

end Run

end PropAccord
