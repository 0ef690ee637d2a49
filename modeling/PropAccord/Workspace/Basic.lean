import PropAccord.Text.Lower
import PropAccord.Text.Terminal
import PropAccord.Workspace.Answer

/-!
# Workspaces on disk

The state of a workspace whose documents are files, and the ways in which it asks its user: by a
script, at a terminal, or not at all. At a terminal a question is printed with its two answers, the
line typed is shown behind it, and a line that is neither leads to the question again.
-/

namespace PropAccord

set_option autoImplicit false

structure Workspace where
  disk : Disk
  answers : List Answer := []
  /-- Which of the final renames of written files fail, counted from zero. -/
  failing : List Nat := []
  renames : Nat := 0
  /-- Files that have been written beside their places and not been moved there yet, the last one
  first. They have names that nothing else has, and are kept apart from the disk. -/
  staged : List (Path × Bytes) := []
  asked : List Asked := []
  notes : List Text := []
  lastError : Option Text := none
  input : List Text := []
  output : Text := []
  errors : Text := []

inductive Consent where
  /-- Answers come from the script. -/
  | scripted
  /-- Everything is declined and no notice is given. -/
  | silent
  /-- The terminal is used, unless the answer is settled in advance. -/
  | terminal (assumeYes dryRun : Bool)
deriving DecidableEq, Repr

namespace Workspace

/-- Takes the next scripted answer; behind the end of the script everything is accepted. -/
def askScript (prompt : Prompt) : Run Workspace (Option Text) := fun w =>
  let answer := w.answers.head?.getD {}
  let choice := answer.reply.choice prompt
  (.ok choice, { w with
    disk := w.disk.applyAll answer.changes
    answers := w.answers.drop 1
    asked := w.asked ++ [⟨prompt, choice⟩] })

def printError (line : Text) : Run Workspace Unit :=
  .change fun w => { w with errors := w.errors ++ line.unstyled ++ ['\n'] }

/-- What a typed line means: yes, no, or neither. An empty line means no. -/
def decision? (line : Text) : Option Bool :=
  let word := line.toLower.strip
  if word = "y".toList ∨ word = "yes".toList then some true
  else if word = "n".toList ∨ word = "no".toList ∨ word = [] then some false
  else none

/-- Asks until a line decides. The result is the decision, what was printed and the lines left; the
input may end before. -/
def interview (question : Text) : List Text → Option Bool × Text × List Text
  | [] => (none, question, [])
  | line :: rest =>
    match decision? line with
    | some b => (some b, question ++ line ++ ['\n'], rest)
    | none =>
      let (decision, printed, left) := interview question rest
      (decision, question ++ line ++ "\nError: invalid input\n".toList ++ printed, left)

def askTerminal (prompt : Prompt) : Run Workspace (Option Text) := fun w =>
  let (decision, printed, left) := interview (prompt.message ++ " [y/N]: ".toList) w.input
  let w := { w with output := w.output ++ printed, input := left }
  match decision with
  | none => (.error .aborted, w)
  | some true => (.ok (some prompt.accept), w)
  | some false => (.ok (some prompt.cancel), w)

def ask (consent : Consent) (prompt : Prompt) : Run Workspace (Option Text) :=
  match consent with
  | .scripted => askScript prompt
  | .silent => return some prompt.cancel
  | .terminal assumeYes dryRun =>
    if dryRun then do
      printError ("DRY RUN: ".toList ++ prompt.message)
      return some prompt.cancel
    else if assumeYes then do
      printError prompt.message
      return some prompt.accept
    else askTerminal prompt

def notify (consent : Consent) (message : Text) : Run Workspace Unit :=
  match consent with
  | .scripted => .change fun w => { w with notes := w.notes ++ [message] }
  | .silent => return ()
  | .terminal _ _ => printError message

def openFile (w : Workspace) (p : Path) : Except ReadFault Snapshot := do
  return { path := p, text := ← w.disk.readText p }

end Workspace

end PropAccord
