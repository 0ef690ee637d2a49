import PropAccord.Command.Arguments
import PropAccord.Command.Sync

/-!
# The command line

`scan` prints what a file defines and uses, `sync` synchronises a file as if it had just been saved,
`lsp` starts the server for an editor. A command ends with an exit code: zero, one when a plan could
not be carried out or the user broke off, two when the arguments are wrong.
-/

namespace PropAccord.Command

set_option autoImplicit false

def version : Text := "0.1.0".toList

inductive LineFault where
  | usage (f : UsageError)
  | command (f : CommandFault)
deriving DecidableEq, Repr

def LineFault.message : LineFault → Text
  | .usage f => f.message
  | .command f => f.message

def LineFault.exitCode : LineFault → Nat
  | .command (.halted _) => 1
  | _ => 2

structure Ending where
  exitCode : Nat
  fault : Option LineFault := none
  serving : Bool := false
  workspace : Workspace

def Ending.output (e : Ending) : Text := e.workspace.output.dropReturns

def Ending.errors (e : Ending) : Text := e.workspace.errors.dropReturns

def printLines (lines : List Text) (w : Workspace) : Workspace :=
  { w with output := w.output ++ lines.flatMap fun line => line.unstyled ++ ['\n'] }

def endWith (fault : LineFault) (w : Workspace) : Ending :=
  { exitCode := fault.exitCode, fault := some fault, workspace := w }

def runScan (path : Path) (language : Option Text) (w : Workspace) : Ending :=
  match scan w.disk path language with
  | .error fault => endWith (.command fault) w
  | .ok report => { exitCode := 0, workspace := printLines [report.value.toJson] w }

def runSync (path : Path) (a : Arguments) (w : Workspace) : Ending :=
  let assumeYes := a.has .yes
  let dryRun := a.has .dryRun
  if assumeYes && dryRun then endWith (.command .contradiction) w
  else
    let request : Request :=
      { path := path.text, language := a.get? .language
        root := (a.get? .root).map fun r => (Path.ofText r).text, assumeYes, dryRun }
    let config := (a.get? .config).map Path.ofText
    match sync request config (.terminal assumeYes dryRun) w with
    | (.error fault, w) => endWith (.command fault) w
    | (.ok response, w) =>
      { exitCode := if response.errors.isEmpty then 0 else 1
        workspace := printLines (if a.has .json then [response.value.toJson] else response.lines) w }

def run (args : List Text) (w : Workspace) : Ending :=
  match Invocation.ofArguments args with
  | .error fault => endWith (.usage fault) w
  | .ok .help => { exitCode := 0, workspace := w }
  | .ok (.scan path language) => runScan path language w
  | .ok (.sync path a) => runSync path a w
  | .ok .serve => { exitCode := 0, serving := true, workspace := w }

end PropAccord.Command
