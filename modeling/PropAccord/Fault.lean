import PropAccord.Path.Basic
import PropAccord.Value.Shown

/-!
# Broken invariants

Some conditions cannot arise from a save, and are reported as faults when they do: an offset
outside its document, edits that do not fit together, a language that nobody registered. A fault
has a reason and the details that were at hand.
-/

namespace PropAccord

set_option autoImplicit false

/-- A place that must not be reached, with what was known there. -/
structure Marker where
  reason : Text
  details : Table

inductive MarkerFault where
  | reasonTwice
deriving DecidableEq, Repr

def MarkerFault.message : MarkerFault → Text
  | .reasonTwice => "never() got multiple values for argument 'reason'".toList

/-- A marker with named details, none of which may have the name of the reason. -/
def Marker.withDetails (reason : Text) (details : Table) : Except MarkerFault Marker :=
  if (details.get? "reason".toList).isSome then .error .reasonTwice else .ok ⟨reason, details⟩

/-- The message of a marker: its reason, and the details by increasing key. -/
def Marker.message (m : Marker) : Text :=
  let reason := if m.reason.isEmpty then "never() marker reached".toList else m.reason
  if m.details.isEmpty then reason
  else
    let shown := (m.details.mergeSort fun a b => Text.le a.1 b.1).map fun (key, value) =>
      key ++ '=' :: value.shown
    reason ++ " (".toList ++ Text.join ", ".toList shown ++ [')']

inductive Fault where
  | offsetOutside (path : Path) (offset : Int)
  | editOutside (start stop : Int) (length : Nat)
  | overlap (start stop : Int)
  | unknownLanguage (language : Text)
deriving DecidableEq, Repr

namespace Fault

def marker : Fault → Marker
  | .offsetOutside path offset =>
    ⟨"offset outside snapshot".toList,
      [("path".toList, .text path.text), ("offset".toList, .int offset)]⟩
  | .editOutside start stop length =>
    ⟨"edit outside snapshot".toList,
      [("start".toList, .int start), ("end".toList, .int stop), ("length".toList, .int length)]⟩
  | .overlap start stop =>
    ⟨"overlapping edits".toList, [("start".toList, .int start), ("end".toList, .int stop)]⟩
  | .unknownLanguage language =>
    ⟨"unknown scanner language".toList, [("language_id".toList, .text language)]⟩

def message (f : Fault) : Text := f.marker.message

end Fault

end PropAccord
