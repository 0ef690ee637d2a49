import PropAccord.Sync.Engine
import PropAccord.Value.Json

/-!
# Reports

What came of a save, in the form in which it is sent to an editor or printed, and what a scan of one
document found.
-/

namespace PropAccord

set_option autoImplicit false

/-- A place in a report: line and column from zero. -/
structure ReportPlace where
  line : Int
  column : Int
deriving DecidableEq, Repr

structure EditReport where
  path : Text
  start : ReportPlace
  stop : ReportPlace
  replacement : Text
deriving DecidableEq, Repr

structure PassReport where
  component : Text
  direction : Text
  status : Text
  added : List Text := []
  edits : List EditReport := []
deriving DecidableEq, Repr

structure Response where
  path : Text
  skipped : Bool := false
  passes : List PassReport := []
  errors : List Text := []
deriving DecidableEq, Repr

def Position.report (p : Position) : ReportPlace := ⟨p.line, p.column⟩

def PlacedEdit.report (e : PlacedEdit) : EditReport :=
  ⟨e.path.text, e.start.report, e.stop.report, e.replacement⟩

def Plan.report (p : Plan) : Except Fault (List EditReport) := do
  return (← p.placed).map PlacedEdit.report

def Sync.Pass.report (p : Sync.Pass) : Except Fault PassReport := do
  let edits ← p.plan.report
  return ⟨p.component, p.direction.label, p.status.label, p.added, edits⟩

def Sync.Outcome.report (o : Sync.Outcome) (errors : List Text) : Except Fault Response := do
  let passes ← o.passes.mapM Sync.Pass.report
  return ⟨o.path.text, o.skipped, passes, errors⟩

namespace ReportPlace

def value (p : ReportPlace) : Value := .list [.int p.line, .int p.column]

end ReportPlace

def Value.texts (texts : List Text) : Value := .list (texts.map .text)

def EditReport.value (e : EditReport) : Value :=
  .table [("path".toList, .text e.path), ("start".toList, e.start.value),
    ("end".toList, e.stop.value), ("replacement".toList, .text e.replacement)]

def PassReport.value (p : PassReport) : Value :=
  .table [("component".toList, .text p.component), ("direction".toList, .text p.direction),
    ("status".toList, .text p.status), ("added_props".toList, .texts p.added),
    ("edits".toList, .list (p.edits.map EditReport.value))]

namespace Response

def value (r : Response) : Value :=
  .table [("path".toList, .text r.path), ("skipped".toList, .bool r.skipped),
    ("passes".toList, .list (r.passes.map PassReport.value)), ("errors".toList, .texts r.errors)]

/-- The line about an edit; lines and columns are shown from one. -/
def editLine (e : EditReport) : Text :=
  "  ".toList ++ e.path ++ ':' :: (Text.ofInt (e.start.line + 1) ++
    ':' :: (Text.ofInt (e.start.column + 1) ++ ": ".toList ++ e.replacement.strip))

def passLines (p : PassReport) : List Text :=
  let added := if p.added.isEmpty then []
    else " (+".toList ++ Text.join ", ".toList p.added ++ [')']
  ('<' :: (p.component ++ "> ".toList ++ p.direction ++ ": ".toList ++ p.status ++ added)) ::
    p.edits.map editLine

def lines (r : Response) : List Text :=
  if r.skipped then [r.path ++ ": unsupported language, nothing to sync.".toList]
  else if r.passes.isEmpty then [r.path ++ ": no components or usages to sync.".toList]
  else r.passes.flatMap passLines ++ r.errors.map fun e => "error: ".toList ++ e

end Response

structure ScanReport where
  path : Text
  language : Text
  definitions : List Definition
  usages : List Usage

def ScanReport.value (r : ScanReport) : Value :=
  .table [("path".toList, .text r.path), ("language_id".toList, .text r.language),
    ("definitions".toList, .list (r.definitions.map fun d =>
      .table [("name".toList, .text d.name), ("props".toList, .texts d.props)])),
    ("usages".toList, .list (r.usages.map fun u =>
      .table [("component_name".toList, .text u.component), ("props".toList, .texts u.props)]))]

end PropAccord
