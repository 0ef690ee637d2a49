import PropAccord.Settings.Basic
import PropAccord.Value.Json
import PropAccord.Value.Shown

/-!
# Sections laid over each other

A request may bring fields that are laid over those of the settings file. A section that is no table
can still be made into one when nothing is laid over it and it lists its fields as pairs of key and
value. Keys that are equal numbers are one key, whatever their kinds are: the first of them is written,
and the value is that of the last.
-/

namespace PropAccord.Settings

set_option autoImplicit false

/-- A section with the fields of another laid over it; null leaves a field as it is. -/
def layer (base overrides : Table) : Table :=
  overrides.foldl (fun table (key, value) =>
    match value with
    | .null => table
    | value => table.put key value) base

inductive LayerFault where
  | noMembers (kind : Text)
  | noTable (kind : Text)
  | noFields (kind : Text)
  | noSequence (index : Nat)
  | noPair (index length : Nat)
  | badKey (kind : Text)
deriving DecidableEq, Repr

def LayerFault.message : LayerFault → Text
  | .noMembers kind => Text.quoted kind ++ " object is not iterable".toList
  | .noTable kind => Text.quoted kind ++ " object is not a mapping".toList
  | .noFields kind => Text.quoted kind ++ " object has no attribute 'items'".toList
  | .noSequence index =>
    "cannot convert dictionary update sequence element #".toList ++ Text.ofNat index ++
      " to a sequence".toList
  | .noPair index length =>
    "dictionary update sequence element #".toList ++ Text.ofNat index ++ " has length ".toList ++
      Text.ofNat length ++ "; 2 is required".toList
  | .badKey kind => "unhashable type: ".toList ++ Text.quoted kind

/-- What a value is made of: the items of a list, the characters of a text, the keys of a table. -/
def members? : Value → Option (List Value)
  | .list items => some items
  | .text t => some (t.map fun c => .text [c])
  | .table fields => some (fields.map fun field => .text field.1)
  | _ => none

/-- A value that can be a key: one that has no parts. -/
def checkKey : Value → Except LayerFault Unit
  | .list items => .error (.badKey (Value.list items).kind)
  | .table fields => .error (.badKey (Value.table fields).kind)
  | _ => .ok ()

def keyText : Value → Text
  | .text t => t
  | value => Value.json 0 value

/-- Two keys are the same: they equal the same integer, or neither equals one and they are shown
alike. -/
def sameKey (a b : Value) : Bool :=
  match a.whole?, b.whole? with
  | some m, some n => m == n
  | none, none => a.shown == b.shown
  | _, _ => false

/-- Pairs with the value under a key set. A key that is there already stays as it is. -/
def setPair (key value : Value) : List (Value × Value) → List (Value × Value)
  | [] => [(key, value)]
  | pair :: rest =>
    if sameKey pair.1 key then (pair.1, value) :: rest else pair :: setPair key value rest

def addPairs (pairs : List (Value × Value)) (index : Nat) :
    List Value → Except LayerFault (List (Value × Value))
  | [] => .ok pairs
  | item :: rest =>
    match members? item with
    | none => .error (.noSequence index)
    | some [key, value] => do
      checkKey key
      addPairs (setPair key value pairs) (index + 1) rest
    | some members => .error (.noPair index members.length)

/-- The table of pairs, by how their keys are written; among keys that are written alike the last
counts. -/
def tableOfPairs (pairs : List (Value × Value)) : Table :=
  pairs.foldl (fun table (key, value) => table.put (keyText key) value) []

def tableOf : Value → Except LayerFault Table
  | .table fields => .ok fields
  | value =>
    match members? value with
    | some members => tableOfPairs <$> addPairs [] 0 members
    | none => .error (.noMembers value.kind)

def overlay (base overrides : Value) : Except LayerFault Table :=
  if overrides.isVoid then tableOf base
  else match base, overrides with
    | .table fields, .table others => .ok (layer fields others)
    | .table _, other => .error (.noFields other.kind)
    | other, _ => .error (.noTable other.kind)

end PropAccord.Settings
