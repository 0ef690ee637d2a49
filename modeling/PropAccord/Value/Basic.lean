import PropAccord.Text.Basic

/-!
# Values of settings and requests

Settings files, requests of an editor and the details of a broken invariant all hold values whose
kind is known only when they are read. Tables keep their fields in the order in which the keys
first came.
-/

namespace PropAccord

set_option autoImplicit false

/-- A value read from a settings file or a request. Numbers with a fraction or an exponent, and
dates, are kept as they were written. -/
inductive Value where
  | null
  | bool (b : Bool)
  | int (n : Int)
  | real (literal : Text)
  | moment (literal : Text)
  | text (t : Text)
  | list (items : List Value)
  | table (fields : List (Text × Value))
deriving Repr, Inhabited

abbrev Table := List (Text × Value)

namespace Table

def get? (table : Table) (key : Text) : Option Value := table.lookup key

/-- The table with a field set. A key that is there already keeps its place. -/
def put (key : Text) (value : Value) : Table → Table
  | [] => [(key, value)]
  | field :: rest =>
    if field.1 = key then (key, value) :: rest else field :: put key value rest

def sortedKeys (table : Table) : List Text := Text.sort (table.map (·.1))

end Table

namespace Value

def fields? : Value → Option Table
  | .table fields => some fields
  | _ => none

def text? : Value → Option Text
  | .text t => some t
  | _ => none

def field? (value : Value) (key : String) : Option Value :=
  value.fields?.bind (Table.get? · key.toList)

end Value

end PropAccord
