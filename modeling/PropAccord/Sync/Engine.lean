import PropAccord.Component.Scanner
import PropAccord.Sync.Edits
import PropAccord.Sync.Host

/-!
# Synchronisation

When a document is saved, two things happen. Every component that it defines has its props pushed to
all tags of the component in the workspace. Then, for every component that the document uses, props
that only the usage has are added to the definition, wherever that is, and the widened list is
pushed to the tags in turn. Both only ever add. Each pass plans all its edits against snapshots,
asks, and discards the plan when the answer is not the one that accepts.
-/

namespace PropAccord.Sync

set_option autoImplicit false

inductive Direction where
  | definitionToUsages
  | usageToDefinition
deriving DecidableEq, Repr

def Direction.label : Direction → Text
  | .definitionToUsages => "definition_to_usages".toList
  | .usageToDefinition => "usage_to_definition".toList

inductive Status where
  | noChanges
  | noDefinition
  | inSync
  | declined
  | applied
  | applyFailed
deriving DecidableEq, Repr

def Status.label : Status → Text
  | .noChanges => "no_changes".toList
  | .noDefinition => "no_definition".toList
  | .inSync => "in_sync".toList
  | .declined => "declined".toList
  | .applied => "applied".toList
  | .applyFailed => "apply_failed".toList

structure Pass where
  component : Text
  direction : Direction
  status : Status
  plan : Plan := {}
  added : List Text := []
deriving DecidableEq, Repr

structure SaveEvent where
  path : Path
  language : Text
  text : Text
deriving DecidableEq, Repr

structure Outcome where
  path : Path
  skipped : Bool := false
  passes : List Pass := []
deriving DecidableEq, Repr

def Outcome.applied (o : Outcome) : List Pass := o.passes.filter (·.status = .applied)

def acceptUsages : Text := "Apply changes to usages".toList

def acceptDefinition : Text := "Update definition and usages".toList

def cancelLabel : Text := "Cancel".toList

def usagesMessage (name : Text) : Text :=
  "Missing props of <".toList ++ name ++
    " /> will be added to its usages. Apply the changes?".toList

def definitionMessage (name : Text) (added : List Text) : Text :=
  "New props detected in <".toList ++ name ++ " />: ".toList ++ nameList added ++
    ". Update the definition and sync its usages?".toList

def syncedMessage (name : Text) : Text :=
  "Props synced in usages of <".toList ++ name ++ " />.".toList

def usagesPrompt (name : Text) : Prompt := ⟨usagesMessage name, acceptUsages, cancelLabel⟩

def definitionPrompt (name : Text) (added : List Text) : Prompt :=
  ⟨definitionMessage name added, acceptDefinition, cancelLabel⟩

structure Located where
  snapshot : Snapshot
  definition : Definition
deriving DecidableEq, Repr

structure Engine (σ : Type) where
  host : Host σ
  settings : Settings := {}
  /-- The scanner for all documents, instead of the registered ones. -/
  scanner : Option Scanner := none
  registry : Registry := .standard

namespace Engine

variable {σ : Type}

def filter (e : Engine σ) : Discovery.Filter := ⟨e.settings.includes, e.settings.excludes⟩

def snapshots (e : Engine σ) (s : σ) : Except Halt (List Snapshot) := do
  e.host.openReadable s (← e.host.candidates e.filter s)

def scannerFor (e : Engine σ) (p : Path) : Except Halt Scanner :=
  match e.scanner with
  | some scanner => .ok scanner
  | none =>
    match e.registry.resolve (some p) none with
    | .ok scanner => .ok scanner
    | .error f => .error (.fault f)

def planFiles (e : Engine σ) (name : Text) (props : List Text) :
    List Snapshot → Except Halt (List FilePlan)
  | [] => .ok []
  | snapshot :: rest => do
    let scanner ← e.scannerFor snapshot.path
    let insertions :=
      tagInsertions e.settings.placeholder props (scanner.findTags snapshot.text name)
    let others ← planFiles e name props rest
    return if insertions.isEmpty then others else { snapshot, insertions } :: others

def planUsages (e : Engine σ) (name : Text) (props : List Text) (s : σ) : Except Halt Plan := do
  return ⟨← e.planFiles name props (← e.snapshots s)⟩

def syncUsages (e : Engine σ) (name : Text) (props : List Text) : Run σ Pass := do
  let plan ← Run.tryRead (e.planUsages name props)
  let pass (status : Status) (plan : Plan) : Pass :=
    { component := name, direction := .definitionToUsages, status, plan }
  if plan.isEmpty then return pass .noChanges {}
  let choice ← e.host.ask (usagesPrompt name)
  if choice ≠ some acceptUsages then return pass .declined plan
  let done ← e.host.applyPlan plan
  if done then
    e.host.notify (syncedMessage name)
    return pass .applied plan
  else return pass .applyFailed plan

def locateIn (e : Engine σ) (name : Text) : List Snapshot → Except Halt (Option Located)
  | [] => .ok none
  | snapshot :: rest => do
    let scanner ← e.scannerFor snapshot.path
    match scanner.findDefinition? snapshot.text name with
    | some definition => return some { snapshot, definition }
    | none => locateIn e name rest

def locate (e : Engine σ) (name : Text) (s : σ) : Except Halt (Option Located) := do
  e.locateIn name (← e.snapshots s)

/-- Adds the props of a usage to the definition of its component, and pushes the widened list. -/
def syncDefinition (e : Engine σ) (usage : Usage) : Run σ (List Pass) := do
  let pass (status : Status) (plan : Plan) (added : List Text) : Pass :=
    { component := usage.component, direction := .usageToDefinition, status, plan, added }
  match ← Run.tryRead (e.locate usage.component) with
  | none => return [pass .noDefinition {} []]
  | some located =>
    let w := widening e.settings.widenMode located.snapshot located.definition usage.props
    if w.added.isEmpty then return [pass .inSync {} []]
    let choice ← e.host.ask (definitionPrompt usage.component w.added)
    if choice ≠ some acceptDefinition then return [pass .declined w.plan w.added]
    let done ← e.host.applyPlan w.plan
    if done then
      let pushed ← e.syncUsages usage.component w.merged
      return [pass .applied w.plan w.added, pushed]
    else return [pass .applyFailed w.plan w.added]

abbrev Seen := List Text

/-- A usage is taken up, unless it has no props or its component has been taken up before. -/
def takesUp (seen : Seen) (usage : Usage) : Bool :=
  !usage.props.isEmpty && !seen.contains usage.component

/-- The components that have been taken up when a usage has been met. What comes of it does not
matter: a component is not taken up again after a failure either. -/
def seenAfter (seen : Seen) (usage : Usage) : Seen :=
  if takesUp seen usage then usage.component :: seen else seen

def syncUsage (e : Engine σ) (seen : Seen) (usage : Usage) : Run σ (List Pass) :=
  if takesUp seen usage then e.syncDefinition usage else return []

def syncEach (e : Engine σ) (seen : Seen) : List Usage → Run σ (List Pass)
  | [] => return []
  | usage :: rest => do
    let passes ← e.syncUsage seen usage
    let others ← syncEach e (seenAfter seen usage) rest
    return passes ++ others

def pushEach (e : Engine σ) : List Definition → Run σ (List Pass)
  | [] => return []
  | d :: rest => do
    let pass ← e.syncUsages d.name d.props
    let others ← pushEach e rest
    return pass :: others

/-- The first definition of each name that has props. -/
def firstOfEach (names : List Text) : List Definition → List Definition
  | [] => []
  | d :: rest =>
    if d.props.isEmpty || names.contains d.name then firstOfEach names rest
    else d :: firstOfEach (d.name :: names) rest

def scannerForLanguage? (e : Engine σ) (language : Text) : Option Scanner :=
  e.scanner <|> e.registry.forLanguage? language

def save (e : Engine σ) (event : SaveEvent) : Run σ Outcome := do
  if !e.settings.accepts event.language then return { path := event.path, skipped := true }
  match e.scannerForLanguage? event.language with
  | none => return { path := event.path, skipped := true }
  | some scanner =>
    let pushed ← e.pushEach (firstOfEach [] (scanner.definitions event.text))
    let taken ← e.syncEach [] (scanner.usages event.text)
    return { path := event.path, passes := pushed ++ taken }

end Engine

end PropAccord.Sync
