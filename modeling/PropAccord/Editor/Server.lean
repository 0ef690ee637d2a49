import PropAccord.Editor.Basic
import PropAccord.Report
import PropAccord.Request
import PropAccord.Settings.File
import PropAccord.Settings.Layer

/-!
# The server for an editor

The server synchronises when the editor says that a document has been saved, and when it is asked to
by a command with a request.
-/

namespace PropAccord.Server

set_option autoImplicit false

def label : Text := "propsync".toList

/-- The root of the workspace: the folder that the editor has open, or else the working directory. -/
def rootOf (d : Disk) (folder : Option Text) : Path :=
  match folder with
  | some f => if f.isEmpty then ⟨.root, d.cwd⟩ else .ofText f
  | none => ⟨.root, d.cwd⟩

/-- The settings of the workspace with those of a request laid over them. -/
def settingsFor (d : Disk) (root : Path) (overrides : Table) : Except Settings.Fault Settings := do
  let fields ← Settings.loadSection d root none
  return .ofSection (.table (Settings.layer fields overrides))

def runSave (root : Path) (overrides : Table) (settled : Option Editor.Settled)
    (event : Sync.SaveEvent) : Run Editor Sync.Outcome := fun e =>
  match settingsFor e.disk root overrides with
  | .error fault => (.error (.unsettled fault), e)
  | .ok settings =>
    let engine : Sync.Engine Editor := { host := Editor.host root e.disk.cwd settled, settings }
    engine.save event e

def firstText (texts : List (Option Text)) : Text :=
  (texts.findSome? fun t => t.filter (!List.isEmpty ·)).getD []

def didSave (folder : Option Text) (uri : Text) (text : Option Text) : Run Editor Unit := fun e =>
  match Uri.toPath uri with
  | .error fault => (.error (.badUri fault), e)
  | .ok path =>
    let language := firstText [(e.document? path).bind (·.language), Language.ofPath? path]
    let source : Except ReadFault Text := match text with
      | some t => .ok t
      | none => e.source path
    match source with
    | .error fault => (.error (.unreadable fault), e)
    | .ok source =>
      match runSave (rootOf e.disk folder) [] none ⟨path, language, source⟩ e with
      | (.ok _, e) => (.ok (), e)
      | (.error h, e) => (.error h, e)

def settledBy (request : Request) : Option Editor.Settled :=
  if request.dryRun then some .decline else if request.assumeYes then some .accept else none

/-- The errors to report: one for each pass whose edits the editor did not take. -/
def rejections (o : Sync.Outcome) : List Text :=
  (o.passes.filter (·.status = .applyFailed)).map fun p =>
    "Editor rejected edits for <".toList ++ p.component ++ ">.".toList

def executeRequest (folder : Option Text) (request : Request) (overrides : Table) :
    Run Editor Response := fun e =>
  let root := rootOf e.disk folder
  let path := root.join (.ofText request.path)
  if !path.isAbsolute then (.error .relativeUri, e)
  else match e.source path with
    | .error (.undecodable fault) => (.error (.unreadable (.undecodable fault)), e)
    | .error .nullByte => (.error (.unreadable .nullByte), e)
    | .error fault => (.ok { path := request.path, errors := [fault.message] }, e)
    | .ok text =>
      let language := firstText [request.language, Language.ofPath? path]
      match runSave root overrides (settledBy request) ⟨path, language, text⟩ e with
      | (.error h, e) => (.error h, e)
      | (.ok outcome, e) =>
        match outcome.report (rejections outcome) with
        | .ok response => (.ok response, e)
        | .error fault => (.error (.fault fault), e)

def execute (folder : Option Text) (payload : Value) : Run Editor Response := fun e =>
  match payload with
  | .table fields =>
    match Request.ofValue payload with
    | .error faults =>
      let path := ((fields.lookup "path".toList).map Value.plain).getD []
      (.ok { path, errors := [Request.faultsMessage faults] }, e)
    | .ok request =>
      let overrides := ((fields.lookup "settings".toList).bind Value.fields?).getD []
      executeRequest folder request overrides e
  | _ => (.ok { path := [], errors := ["missing command payload".toList] }, e)

end PropAccord.Server
