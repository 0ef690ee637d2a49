import PropAccord.Report
import PropAccord.Request
import PropAccord.Settings.File
import PropAccord.Workspace.Writing

/-!
# Synchronising a file

A file is taken for just saved: it is read, the settings of its workspace are loaded, and the save is
carried out on disk.
-/

namespace PropAccord.Command

set_option autoImplicit false

inductive CommandFault where
  | fileNotFound (path : Path)
  | cannotRead (path : Path) (fault : ReadFault)
  | unsupportedLanguage (path : Path) (language : Text)
  | contradiction
  | halted (h : Halt)
deriving DecidableEq, Repr

def CommandFault.message : CommandFault → Text
  | .fileNotFound path => "Invalid value: File not found: ".toList ++ path.text
  | .cannotRead path fault =>
    "Invalid value: Cannot read ".toList ++ path.text ++ ": ".toList ++ fault.message
  | .unsupportedLanguage path language =>
    "Invalid value: Unsupported language for ".toList ++ path.text ++ ": ".toList ++
      (if language.isEmpty then "unknown".toList else language)
  | .contradiction => "Invalid value: Use --yes or --dry-run, not both.".toList
  | .halted h => h.message

def readSource (d : Disk) (p : Path) : Except CommandFault Text :=
  match d.readText p with
  | .ok text => .ok text
  | .error (.missing _) => .error (.fileNotFound p)
  | .error .nullByte => .error (.halted (.unreadable .nullByte))
  | .error fault => .error (.cannotRead p fault)

/-- The language that is named, in lower case, or else the one of the path. -/
def resolveLanguage (p : Path) (language : Option Text) : Text :=
  match language with
  | some l => if l.isEmpty then (Language.ofPath? p).getD [] else l.strip.toLower
  | none => (Language.ofPath? p).getD []

def failureReasons (o : Sync.Outcome) (w : Workspace) : List Text :=
  if o.passes.any (·.status = .applyFailed) then
    let reason := w.lastError.getD []
    [if reason.isEmpty then "Edit could not be applied.".toList else reason]
  else []

def rootOf (d : Disk) (root : Option Text) : Path :=
  match root with
  | some r => if r.isEmpty then ⟨.root, d.cwd⟩ else .ofText r
  | none => ⟨.root, d.cwd⟩

def sync (request : Request) (config : Option Path) (consent : Consent) (w : Workspace) :
    Except CommandFault Response × Workspace :=
  let path := Path.ofText request.path
  let root := rootOf w.disk request.root
  match readSource w.disk path with
  | .error fault => (.error fault, w)
  | .ok text =>
    match Settings.ofFile w.disk root config with
    | .error fault => (.error (.halted (.unsettled fault)), w)
    | .ok settings =>
      let engine : Sync.Engine Workspace :=
        { host := Workspace.host root w.disk.cwd consent, settings }
      match engine.save ⟨path, resolveLanguage path request.language, text⟩ w with
      | (.error h, w) => (.error (.halted h), w)
      | (.ok outcome, w) =>
        match outcome.report (failureReasons outcome w) with
        | .ok response => (.ok response, w)
        | .error fault => (.error (.halted (.fault fault)), w)

def scan (d : Disk) (path : Path) (language : Option Text) : Except CommandFault ScanReport := do
  let language := resolveLanguage path language
  match Registry.standard.forLanguage? language with
  | none => throw (.unsupportedLanguage path language)
  | some scanner =>
    let text ← readSource d path
    return ⟨path.text, language, scanner.definitions text, scanner.usages text⟩

end PropAccord.Command
