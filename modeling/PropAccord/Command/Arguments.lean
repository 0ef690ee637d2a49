import PropAccord.Command.Suggestion
import PropAccord.Path.Basic
import PropAccord.Text.Terminal

/-!
# Command-line arguments

The first argument names a command, the others are its options and its arguments. Options may stand
anywhere among the arguments up to a double dash; a value follows its option, or stands behind an
equals sign. Of an option that is given twice the last value counts. Values are looked at in the order
in which the options are given, then the other arguments.
-/

namespace PropAccord.Command

set_option autoImplicit false

inductive OptionName where
  | language
  | root
  | config
  | yes
  | dryRun
  | json
  | help
deriving DecidableEq, Repr

namespace OptionName

def written : OptionName → Text
  | .language => "--language".toList
  | .root => "--root".toList
  | .config => "--config".toList
  | .yes => "--yes".toList
  | .dryRun => "--dry-run".toList
  | .json => "--json".toList
  | .help => "--help".toList

def takesValue : OptionName → Bool
  | .language | .root | .config => true
  | _ => false

def ofLetter? (known : List OptionName) (letter : Char) : Option OptionName :=
  if letter = 'y' ∧ known.contains .yes then some .yes else none

end OptionName

inductive UsageFault where
  | noSuchOption (written : Text) (close : List Text)
  | needsValue (written : Text)
  | takesNoValue (written : Text)
  | missingPath
  | nullByte (parameter : Text)
  | tooManyArguments (extra : List Text)
  | missingCommand
  | noSuchCommand (written : Text)
deriving DecidableEq, Repr

def UsageFault.statement : UsageFault → Text
  | .noSuchOption written _ => "No such option: ".toList ++ written.withCodes
  | .needsValue written =>
    "Option ".toList ++ Text.quoted written ++ " requires an argument.".toList
  | .takesNoValue written =>
    "Option ".toList ++ Text.quoted written ++ " does not take a value.".toList
  | .missingPath => "Missing argument 'path'.".toList
  | .nullByte parameter =>
    "Invalid value for ".toList ++ Text.quoted parameter ++
      ": Value error, embedded null byte".toList
  | .tooManyArguments extra =>
    "Got unexpected extra argument(s) (".toList ++ Text.join [' '] (extra.map Text.withCodes) ++ [')']
  | .missingCommand => "Missing command.".toList
  | .noSuchCommand written => "No such command ".toList ++ Text.quoted written ++ ['.']

def UsageFault.options : UsageFault → List Text
  | .noSuchOption _ close => close
  | _ => []

structure UsageError where
  fault : UsageFault
  commands : List Text := []
deriving DecidableEq, Repr

def UsageError.message (e : UsageError) : Text :=
  let statement :=
    if e.commands.isEmpty then e.fault.statement
    else (e.fault.statement.reverse.dropWhile (· == '.')).reverse ++ ". Did you mean ".toList ++
      Text.join ", ".toList (e.commands.map Text.quoted) ++ ['?']
  if e.fault.options.isEmpty then statement
  else statement ++ " (Possible options: ".toList ++
    Text.join ", ".toList (Text.sort e.fault.options) ++ [')']

structure Refusal where
  fault : UsageFault
  left : List Text

structure Arguments where
  options : List (OptionName × Text) := []
  others : List Text := []

namespace Arguments

def get? (a : Arguments) (name : OptionName) : Option Text := a.options.reverse.lookup name

def has (a : Arguments) (name : OptionName) : Bool := (a.get? name).isSome

def withOption (name : OptionName) (value : Text) (a : Arguments) : Arguments :=
  { a with options := (name, value) :: a.options }

def letters (known : List OptionName) : Text → Except UsageFault (List OptionName)
  | [] => .ok []
  | letter :: rest =>
    match OptionName.ofLetter? known letter with
    | some name => (name :: ·) <$> letters known rest
    | none => .error (.noSuchOption ['-', letter] [])

/-- Reads the arguments of a command that knows the given options. With `mixed` options may follow
other arguments; without it the first other argument ends them. -/
def read (known : List OptionName) (mixed : Bool) : List Text → Except Refusal Arguments
  | [] => .ok {}
  | arg :: rest =>
    if arg = "--".toList then .ok { others := rest }
    else if arg.head? = some '-' ∧ 1 < arg.length then
      let written := arg.takeWhile (· ≠ '=')
      let attached := (arg.dropWhile (· ≠ '=')).head?.map fun _ => (arg.dropWhile (· ≠ '=')).drop 1
      match known.find? (·.written = written) with
      | some name =>
        if name.takesValue then
          match attached with
          | some value => withOption name value <$> read known mixed rest
          | none =>
            match rest with
            | value :: rest => withOption name value <$> read known mixed rest
            | [] => .error ⟨.needsValue written, []⟩
        else if attached.isSome then .error ⟨.takesNoValue written, rest⟩
        else withOption name [] <$> read known mixed rest
      | none =>
        if "--".toList.isPrefixOf arg then
          .error ⟨.noSuchOption written
            (Suggestion.closest (known.map OptionName.written) written), rest⟩
        else
          match letters known (arg.drop 1) with
          | .error fault => .error ⟨fault, rest⟩
          | .ok names => (names.foldr (fun name => withOption name [])) <$> read known mixed rest
    else if mixed then
      (fun a => { a with others := arg :: a.others }) <$> read known mixed rest
    else .ok { others := arg :: rest }
termination_by args => args.length

end Arguments

inductive Invocation where
  | help
  | scan (path : Path) (language : Option Text)
  | sync (path : Path) (arguments : Arguments)
  | serve

def commandNames : List Text := ["scan".toList, "sync".toList, "lsp".toList]

def Arguments.pathOptions (a : Arguments) : List OptionName :=
  ((a.options.map (·.1)).filter fun name => name == .root || name == .config).eraseDups

def pathOf (parameter value : Text) : Except UsageFault Path :=
  let path := Path.ofText value
  if path.hasNull then .error (.nullByte parameter) else .ok path

def onlyPath (a : Arguments) : Except UsageFault Path := do
  for name in a.pathOptions do
    discard (pathOf name.written ((a.get? name).getD []))
  match a.others with
  | [] => throw .missingPath
  | value :: extra =>
    let path ← pathOf "path".toList value
    if extra.isEmpty then return path else throw (.tooManyArguments extra)

/-- Reads the options and other arguments of a command; help comes before everything else. -/
def Invocation.read (known : List OptionName) (args : List Text)
    (finish : Arguments → Except UsageFault Invocation) : Except UsageFault Invocation :=
  match Arguments.read known true args with
  | .error refusal => .error refusal.fault
  | .ok a => if a.has .help then .ok .help else finish a

/-- Refuses a command that is not known. The name may look like an option, and is then refused as
one; the commands that may have been meant are those like the word that follows the options. -/
def Invocation.refuse (name : Text) (args : List Text) : Except UsageError Invocation :=
  let close (left : List Text) : List Text :=
    (left.head?.map (Suggestion.closest commandNames)).getD []
  match Arguments.read [.help] false (name :: args) with
  | .error refusal => .error ⟨refusal.fault, close refusal.left⟩
  | .ok a => if a.has .help then .ok .help else .error ⟨.noSuchCommand name, close a.others⟩

def Invocation.ofCommand (name : Text) (args : List Text) : Except UsageError Invocation :=
  if name = "scan".toList then
    (Invocation.read [.language, .help] args fun a => do
      return .scan (← onlyPath a) (a.get? .language)).mapError (⟨·, []⟩)
  else if name = "sync".toList then
    (Invocation.read [.root, .config, .language, .yes, .dryRun, .json, .help] args fun a => do
      return .sync (← onlyPath a) a).mapError (⟨·, []⟩)
  else if name = "lsp".toList then
    (Invocation.read [.help] args fun a =>
      if a.others.isEmpty then .ok .serve
      else .error (.tooManyArguments a.others)).mapError (⟨·, []⟩)
  else Invocation.refuse name args

def Invocation.ofArguments (args : List Text) : Except UsageError Invocation :=
  match Arguments.read [.help] false args with
  | .error refusal => .error ⟨refusal.fault, []⟩
  | .ok a =>
    if a.has .help then .ok .help
    else match a.others with
      | [] => .error ⟨.missingCommand, []⟩
      | name :: rest => Invocation.ofCommand name rest

end PropAccord.Command
