import PropAccord.Edit.Offset
import PropAccord.Sync.Engine
import PropAccord.Workspace.Answer

/-!
# Editors

A connected editor knows some documents: their language, their version and, when they are open, a
buffer that hides the file. It is asked questions, and is sent edits by positions, which it may carry
out, accept without doing anything, reject or leave unanswered. Edits are carried out on the documents
as they are by then, without a look at what they were made for.
-/

namespace PropAccord

set_option autoImplicit false

structure Document where
  path : Path
  language : Option Text := none
  version : Option Int := none
  buffer : Option Text := none

inductive ApplyMode where
  | write
  | record
  | reject
  | unanswered
deriving DecidableEq, Repr

structure DocumentEdits where
  uri : Text
  path : Path
  version : Option Int
  edits : List PlacedEdit

structure Sent where
  mode : ApplyMode
  changes : List DocumentEdits

structure Editor where
  disk : Disk
  documents : List Document := []
  /-- What is done with the edits that are still to be sent; behind its end they are written. -/
  modes : List ApplyMode := []
  answers : List Answer := []
  asked : List Asked := []
  notes : List Text := []
  sent : List Sent := []
  edited : List (Path × Text) := []

namespace Editor

def document? (e : Editor) (p : Path) : Option Document := e.documents.find? (·.path = p)

/-- The text of a document: its buffer if it has one, and else the file. -/
def source (e : Editor) (p : Path) : Except ReadFault Text :=
  match (e.document? p).bind (·.buffer) with
  | some text => .ok text
  | none => e.disk.readText p

def openDocument (p : Path) (e : Editor) : Except Halt (Option Snapshot) :=
  if p.isAbsolute then do
    let text ← passOver (e.source p)
    return text.map fun text => { path := p, text, version := (e.document? p).bind (·.version) }
  else .error .relativeUri

def placeFile (f : FilePlan) : Except Halt DocumentEdits :=
  match f.placed, Uri.ofPath? f.path with
  | .error fault, _ => .error (.fault fault)
  | .ok _, none => .error .relativeUri
  | .ok edits, some uri => .ok ⟨uri, f.path, f.snapshot.version, edits⟩

def placePlan (plan : Plan) : Except Halt (List DocumentEdits) := plan.files.mapM placeFile

def setBuffer (e : Editor) (p : Path) (text : Text) : Editor :=
  if (e.document? p).isSome then
    { e with documents := e.documents.map fun d =>
        if d.path = p then { d with buffer := some text } else d }
  else { e with documents := e.documents ++ [{ path := p, buffer := some text }] }

def replaceIn (e : PlacedEdit) (text : Text) : Text :=
  Edit.replace ⟨e.start.offsetIn text, e.stop.offsetIn text, e.replacement⟩ text

/-- Edits a document as it is now: its buffer if it has one, and else the file. The last edit is
carried out first. -/
def edit (d : DocumentEdits) : Run Editor Unit := fun e =>
  match e.source d.path with
  | .error fault => (.error (.unreadable fault), e)
  | .ok text =>
    let new := d.edits.foldr replaceIn text
    if ((e.document? d.path).bind (·.buffer)).isSome then
      (.ok (), { e.setBuffer d.path new with
        edited := (d.path, new) :: e.edited.filter (·.1 ≠ d.path) })
    else (.ok (), { e with disk := e.disk.write d.path (Utf8.encode new) })

/-- Edits documents in order, up to the first one that cannot be read. -/
def editAll : List DocumentEdits → Run Editor Unit
  | [] => return ()
  | d :: rest => do
    edit d
    editAll rest

def applyPlan (plan : Plan) : Run Editor Bool := fun e =>
  match placePlan plan with
  | .error h => (.error h, e)
  | .ok changes =>
    let mode := e.modes.head?.getD .write
    let e := { e with modes := e.modes.drop 1, sent := e.sent ++ [⟨mode, changes⟩] }
    match mode with
    | .write =>
      match editAll changes e with
      | (.ok _, e) => (.ok true, e)
      | (.error h, e) => (.error h, e)
    | .record => (.ok true, e)
    | .reject => (.ok false, e)
    | .unanswered => (.ok false, e)

inductive Settled where
  | accept
  | decline
deriving DecidableEq, Repr

def ask (settled : Option Settled) (prompt : Prompt) : Run Editor (Option Text) :=
  match settled with
  | some .accept => return some prompt.accept
  | some .decline => return some prompt.cancel
  | none => fun e =>
    let answer := e.answers.head?.getD {}
    let choice := answer.reply.choice prompt
    (.ok choice, { e with
      disk := e.disk.applyAll answer.changes
      answers := e.answers.drop 1
      asked := e.asked ++ [⟨prompt, choice⟩] })

def notify (message : Text) : Run Editor Unit :=
  .change fun e => { e with notes := e.notes ++ [message] }

def host (root : Path) (cwd : List Text) (settled : Option Settled) : Host Editor where
  root := root
  cwd := cwd
  findFiles filter e := (e.disk.findFiles root filter).mapError .unlisted
  openDocument := openDocument
  ask := ask settled
  applyPlan := applyPlan
  notify := notify

end Editor

end PropAccord
