import PropAccord.Value.Basic

/-!
# Tables under construction

The statements of a TOML document build its tables step by step. A node remembers what a finished
value no longer shows: whether a table has been declared by a header, and which arrays hold tables
that later headers may add to.
-/

namespace PropAccord.Toml

set_option autoImplicit false

inductive Node where
  /-- A finished value, which nothing is added to. -/
  | leaf (value : Value)
  /-- A table, and whether it may no longer be opened by a header or by a dotted key. -/
  | table (declared : Bool) (fields : List (Text × Node))
  /-- The tables that array headers have made, in order. -/
  | array (items : List Node)

namespace Node

def empty : Node := .table false []

def setField (key : Text) (node : Node) : List (Text × Node) → List (Text × Node)
  | [] => [(key, node)]
  | field :: rest =>
    if field.1 = key then (key, node) :: rest else field :: setField key node rest

/-- Changes the table that a node stands for: the node itself, or the last table of an array. -/
def inTable (change : Bool → List (Text × Node) → Option Node) : Node → Option Node
  | .leaf _ => none
  | .table declared fields => change declared fields
  | .array items =>
    match items.getLast? with
    | some (.table declared fields) =>
      (change declared fields).map fun node => .array (items.dropLast ++ [node])
    | _ => none

/-- Changes the table at a place. Tables on the way are made as needed; a value on the way is an
error. -/
def update (change : Bool → List (Text × Node) → Option Node) : List Text → Node → Option Node
  | [], node => inTable change node
  | key :: rest, node =>
    inTable (fun declared fields =>
      (update change rest ((fields.lookup key).getD empty)).map fun below =>
        .table declared (setField key below fields)) node

/-- The fields that a header or a dotted key sees at a node. -/
def openFields : Node → List (Text × Node)
  | .leaf _ => []
  | .table _ fields => fields
  | .array items =>
    match items.getLast? with
    | some (.table _ fields) => fields
    | _ => []

def find? : List Text → Node → Option Node
  | [], node => some node
  | key :: rest, node => (node.openFields.lookup key).bind (find? rest)

def isDeclared (place : List Text) (node : Node) : Bool :=
  match find? place node with
  | some (.table declared _) => declared
  | some (.array _) => true
  | _ => false

def declare (place : List Text) (node : Node) : Option Node :=
  update (fun _ fields => some (.table true fields)) place node

def extend (place : List Text) (key : Text) (node : Node) : Option Node :=
  update (fun declared fields =>
    match fields.lookup key with
    | none => some (.table declared (setField key (.array [empty]) fields))
    | some (.array items) => some (.table declared (setField key (.array (items ++ [empty])) fields))
    | some _ => none) place node

def define (place : List Text) (key : Text) (value : Value) (node : Node) : Option Node :=
  update (fun declared fields =>
    if (fields.lookup key).isSome then none
    else some (.table declared (fields ++ [(key, .leaf value)]))) place node

mutual

def value : Node → Value
  | .leaf v => v
  | .table _ fields => .table (fieldValues fields)
  | .array items => .list (itemValues items)

def fieldValues : List (Text × Node) → List (Text × Value)
  | [] => []
  | (key, node) :: rest => (key, value node) :: fieldValues rest

def itemValues : List Node → List Value
  | [] => []
  | node :: rest => value node :: itemValues rest

end

end Node

end PropAccord.Toml
