import PropAccord.Command.Line

/-!
# The program

The outer layer of the command line. It loads from disk what a command may read, runs the command on
the loaded tree, and writes back the files that are different afterwards. Only files that the
settings select are loaded with their bytes; of all others the names are enough. The command runs
anew from its start each time a line has been typed, so a question is printed before its answer is
read.
-/

namespace PropAccord.Program

set_option autoImplicit false

def written (place : List Text) : String := String.ofList (Path.text ⟨.root, place⟩)

partial def outline (disk : Disk) (place : List Text) : IO Disk := do
  let folder ← IO.FS.realPath (written place)
  (← folder.readDir).foldlM (fun disk entry => do
    let below := place ++ [entry.fileName.toList]
    let info ← entry.path.symlinkMetadata
    match info.type with
    | .dir => outline (disk.makeFolder ⟨.root, below⟩) below
    | _ => return disk.write ⟨.root, below⟩ []) disk

/-- The disk with a file, or with the folders that lead to where it should be. -/
def loadFile (disk : Disk) (path : Path) : IO Disk := do
  let place := path.resolve disk.cwd
  let mut disk := disk
  for count in List.range (place.length + 1) do
    let here : Path := ⟨.root, place.take count⟩
    match ← (IO.FS.realPath (String.ofList here.text)).toBaseIO with
    | .error _ => return disk
    | .ok found =>
      if ← found.isDir then disk := disk.makeFolder here
      else return disk.write here (← IO.FS.readBinFile found).toList
  return disk

def loadOutline (disk : Disk) (root : Path) : IO Disk := do
  let disk ← loadFile disk root
  match ← (outline disk (root.resolve disk.cwd)).toBaseIO with
  | .error _ => return disk
  | .ok disk => return disk

def load (invocation : Command.Invocation) (disk : Disk) : IO Disk := do
  match invocation with
  | .scan path _ => loadFile disk path
  | .sync path arguments =>
    let root := Command.rootOf disk (arguments.get? .root)
    let config := (arguments.get? .config).map Path.ofText
    let disk ← loadOutline disk root
    let disk ← loadFile disk (Settings.place root config)
    let found := match Settings.ofFile disk root config with
      | .ok settings => (disk.findFiles root ⟨settings.includes, settings.excludes⟩).toOption.getD []
      | .error _ => []
    loadFile (← found.foldlM loadFile disk) path
  | .help | .serve => return disk

/-- Writes the files that are different on the second disk. A file is written beside its place and
then moved there. -/
def store (old new : Disk) : IO Unit := do
  for (place, bytes) in Disk.changes { old with cwd := [] } { new with cwd := [] } do
    if let some bytes := bytes then
      let beside := written (place.dropLast ++ ['.' :: place.getLast?.getD [] ++ ".new".toList])
      IO.FS.writeBinFile beside ⟨bytes.toArray⟩
      IO.FS.rename beside (written place)

/-- Runs a command with the lines typed so far, prints what is new, and asks for one more line for as
long as the command needs one. -/
partial def converse (args : List Text) (start : Workspace) (shown shownErrors : Nat) :
    IO Command.Ending := do
  let ending := Command.run args start
  let { output, errors, .. } := ending.workspace
  let stdout ← IO.getStdout
  let stderr ← IO.getStderr
  stdout.putStr (String.ofList (output.drop shown))
  stdout.flush
  stderr.putStr (String.ofList (errors.drop shownErrors))
  match ending.fault with
  | some (.command (.halted .aborted)) =>
    let line := (← (← IO.getStdin).getLine).toList
    if line.isEmpty then return ending
    let typed := line.filter fun c => c ≠ '\n' ∧ c ≠ '\r'
    converse args { start with input := start.input ++ [typed] } (output.length + typed.length + 1)
      errors.length
  | _ => return ending

def run (args : List Text) : IO UInt32 := do
  let folder ← IO.currentDir
  let cwd := Path.segmentsOf folder.toString.toList
  let bare := (Disk.empty cwd).makeFolder ⟨.root, cwd⟩
  let disk ← match Command.Invocation.ofArguments args with
    | .ok invocation => load invocation bare
    | .error _ => pure bare
  let ending ← converse args { disk } 0 0
  store disk ending.workspace.disk
  match ending.fault with
  | some (.command (.halted .aborted)) => IO.eprintln "Aborted."
  | some fault => IO.eprintln (String.ofList ("Error: ".toList ++ fault.message))
  | none => if ending.serving then IO.eprintln "No editor is connected."
  return ending.exitCode.toUInt32

end PropAccord.Program

def main (args : List String) : IO UInt32 := PropAccord.Program.run (args.map String.toList)
