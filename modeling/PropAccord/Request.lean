import PropAccord.Value.Basic
import PropAccord.Value.Decimal

/-!
# Requests

A request asks for one document to be synchronised. It is read from a table: the path must be
there, unknown fields are passed over, and switches may be given as booleans, as the numbers zero
and one or by the usual words in either case.
-/

namespace PropAccord

set_option autoImplicit false

structure Request where
  path : Text
  language : Option Text := none
  root : Option Text := none
  assumeYes : Bool := false
  dryRun : Bool := false
deriving DecidableEq, Repr

inductive RequestFault where
  | notTable
  | required
  | notText
  | notSwitch
  | unclearSwitch
deriving DecidableEq, Repr

namespace RequestFault

def kind : RequestFault → Text
  | .notTable => "model_type".toList
  | .required => "missing".toList
  | .notText => "string_type".toList
  | .notSwitch => "bool_type".toList
  | .unclearSwitch => "bool_parsing".toList

def message : RequestFault → Text
  | .notTable => "Input should be a valid dictionary or instance of SyncRequest".toList
  | .required => "Field required".toList
  | .notText => "Input should be a valid string".toList
  | .notSwitch => "Input should be a valid boolean".toList
  | .unclearSwitch => "Input should be a valid boolean, unable to interpret input".toList

end RequestFault

/-- A fault, and the field it is about when it is not about the whole request. -/
structure FieldFault where
  field : Option Text
  fault : RequestFault
deriving DecidableEq, Repr

namespace Request

def readText : Option Value → Except RequestFault Text
  | none => .error .required
  | some (.text t) => .ok t
  | some _ => .error .notText

def readOptionalText : Option Value → Except RequestFault (Option Text)
  | none | some .null => .ok none
  | some (.text t) => .ok (some t)
  | some _ => .error .notText

def onWords : List Text :=
  ["1".toList, "on".toList, "t".toList, "true".toList, "y".toList, "yes".toList]

def offWords : List Text :=
  ["0".toList, "off".toList, "f".toList, "false".toList, "n".toList, "no".toList]

def switchOf (low high n : Int) : Except RequestFault Bool :=
  if n = 0 then .ok false
  else if n = 1 then .ok true
  else if low ≤ n ∧ n ≤ high then .error .unclearSwitch
  else .error .notSwitch

/-- A switch, which is off when it is missing. Whole numbers of up to sixty-four bits are looked at,
whether or not they are written with a fraction. -/
def readSwitch : Option Value → Except RequestFault Bool
  | none => .ok false
  | some (.bool b) => .ok b
  | some (.int n) => switchOf (-9223372036854775808) 9223372036854775807 n
  | some (.real literal) =>
    match (Decimal.ofLiteral? literal).bind Decimal.toInt? with
    | some n => switchOf (-9223372036854775807) 9223372036854775807 n
    | none => .error .notSwitch
  | some (.text t) =>
    let word := t.map Char.toLower
    if onWords.contains word then .ok true
    else if offWords.contains word then .ok false
    else .error .unclearSwitch
  | some _ => .error .notSwitch

def faultIn {α : Type} (field : String) : Except RequestFault α → List FieldFault
  | .ok _ => []
  | .error fault => [⟨some field.toList, fault⟩]

/-- Reads a request, or reports the faults of all its fields in order. -/
def ofValue (value : Value) : Except (List FieldFault) Request :=
  match value with
  | .table fields =>
    let get (key : String) := Table.get? fields key.toList
    let path := readText (get "path")
    let language := readOptionalText (get "language_id")
    let root := readOptionalText (get "root")
    let assumeYes := readSwitch (get "assume_yes")
    let dryRun := readSwitch (get "dry_run")
    match path, language, root, assumeYes, dryRun with
    | .ok path, .ok language, .ok root, .ok assumeYes, .ok dryRun =>
      .ok { path, language, root, assumeYes, dryRun }
    | path, language, root, assumeYes, dryRun =>
      .error (faultIn "path" path ++ faultIn "language_id" language ++ faultIn "root" root ++
        faultIn "assume_yes" assumeYes ++ faultIn "dry_run" dryRun)
  | _ => .error [⟨none, .notTable⟩]

def faultsMessage (faults : List FieldFault) : Text :=
  let count := Text.ofNat faults.length
  let noun := if faults.length = 1 then " validation error".toList else " validation errors".toList
  let lines := faults.flatMap fun f =>
    [f.field.getD [],
      "  ".toList ++ f.fault.message ++ " [type=".toList ++ f.fault.kind ++ [']']]
  Text.join ['\n'] ((count ++ noun ++ " for SyncRequest".toList) :: lines)

end Request

end PropAccord
