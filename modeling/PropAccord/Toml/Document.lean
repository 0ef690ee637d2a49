import PropAccord.Toml.Literal
import PropAccord.Toml.Node

/-!
# TOML documents

Settings files are written in TOML 1.0. A document is a sequence of statements: key and value,
table header, array header. It either denotes a table or has none at all; of several reasons the
first one counts. Arrays and inline tables can be nested in each other only so far.
-/

namespace PropAccord.Toml

set_option autoImplicit false

def isBare (c : Char) : Bool := c.isAlphanum || c == '-' || c == '_'

def keyPart? (text : Text) : Option (Text × Text) :=
  if text.head?.any isBare then some (text.takeWhile isBare, text.dropWhile isBare)
  else lineString? text

def key? : (fuel : Nat) → Text → Option (List Text × Text)
  | 0, _ => none
  | fuel + 1, text => do
    let (part, rest) ← keyPart? text
    match skipSpaces rest with
    | '.' :: rest =>
      let (parts, after) ← key? fuel (skipSpaces rest)
      return (part :: parts, after)
    | after => return ([part], after)

def skipArraySpace? (text : Text) : Option Text :=
  match _h : text.dropWhile isSpaceOrNewline with
  | '#' :: rest =>
    match _hc : afterComment? rest with
    | some after => skipArraySpace? after
    | none => none
  | rest => some rest
termination_by text.length
decreasing_by
  have hspace := Text.length_dropWhile_le isSpaceOrNewline text
  have hcomment := length_afterComment?_le _hc
  rw [_h, List.length_cons] at hspace
  omega

def splitKey (key : List Text) : List Text × Text := (key.dropLast, key.getLast?.getD [])

def maxRoom : Nat := 987

def within (room taken : Nat) : Except Fault Nat :=
  if room < taken then .error .tooDeep else .ok (room - taken)

mutual

/-- A value of any kind. An array takes two units of the room, an inline table three. -/
def value : (fuel room : Nat) → Text → Except Fault (Value × Text)
  | 0, _, _ => .error .invalid
  | fuel + 1, room, text =>
    match text with
    | '[' :: rest => do
      let room ← within room 2
      let (elements, after) ← items fuel room (← orInvalid (skipArraySpace? rest))
      return (.list elements, after)
    | '\x7b' :: rest => do
      let room ← within room 3
      match skipSpaces rest with
      | '\x7d' :: after => return (.table [], after)
      | rest =>
        let (node, after) ← fields fuel room .empty rest
        return (node.value, after)
    | _ =>
      if text.head? = some '"' ∨ text.head? = some apostrophe then
        orInvalid ((string? text).map fun (t, after) => (.text t, after))
      else match Text.after? "true".toList text, Text.after? "false".toList text with
        | some after, _ => .ok (.bool true, after)
        | none, some after => .ok (.bool false, after)
        | none, none =>
          match moment? text with
          | some read => orInvalid read
          | none => number text

def items : (fuel room : Nat) → Text → Except Fault (List Value × Text)
  | 0, _, _ => .error .invalid
  | fuel + 1, room, text =>
    match text with
    | ']' :: after => .ok ([], after)
    | _ => do
      let (item, rest) ← value fuel room text
      match ← orInvalid (skipArraySpace? rest) with
      | ']' :: after => return ([item], after)
      | ',' :: rest =>
        let (others, after) ← items fuel room (← orInvalid (skipArraySpace? rest))
        return (item :: others, after)
      | _ => .error .invalid

/-- The fields of an inline table up to its closing brace; it stands on one line and has no comma at
its end. -/
def fields : (fuel room : Nat) → Node → Text → Except Fault (Node × Text)
  | 0, _, _, _ => .error .invalid
  | fuel + 1, room, node, text => do
    let (key, value, rest) ← pair fuel room text
    let (place, stem) := splitKey key
    let node ← orInvalid (node.define place stem value)
    match skipSpaces rest with
    | '\x7d' :: after => return (node, after)
    | ',' :: rest => fields fuel room node (skipSpaces rest)
    | _ => .error .invalid

def pair : (fuel room : Nat) → Text → Except Fault (List Text × Value × Text)
  | 0, _, _ => .error .invalid
  | fuel + 1, room, text => do
    let (key, rest) ← orInvalid (key? (text.length + 1) text)
    let rest ← orInvalid (Text.after? ['='] rest)
    let (value, after) ← value fuel room (skipSpaces rest)
    return (key, value, after)

end

structure State where
  root : Node := .empty
  /-- The place of the table that keys are added to. -/
  header : List Text := []
  /-- Tables that dotted keys have opened since the last header. -/
  opened : List (List Text) := []

namespace State

/-- At a header the tables that dotted keys have opened are closed for good. -/
def close (s : State) : Option State := do
  let root ← s.opened.foldlM (fun root place => root.declare place) s.root
  return { s with root, opened := [] }

def tableHeader? (s : State) (text : Text) : Option (State × Text) := do
  let s ← s.close
  let (key, rest) ← key? (text.length + 1) (skipSpaces text)
  guard (!s.root.isDeclared key)
  let root ← s.root.declare key
  let after ← Text.after? [']'] rest
  return ({ s with root, header := key }, after)

def arrayHeader? (s : State) (text : Text) : Option (State × Text) := do
  let s ← s.close
  let (key, rest) ← key? (text.length + 1) (skipSpaces text)
  let (place, stem) := splitKey key
  let root ← s.root.extend place stem
  let after ← Text.after? [']', ']'] rest
  return ({ s with root, header := key }, after)

def assign? (s : State) (key : List Text) (value : Value) : Option State := do
  let (place, stem) := splitKey key
  let passed := (List.range place.length).map fun i => s.header ++ place.take (i + 1)
  guard (!passed.any fun p => s.root.isDeclared p)
  let root ← s.root.define (s.header ++ place) stem value
  return { s with root, opened := s.opened ++ passed }

def assignment (s : State) (text : Text) : Except Fault (State × Text) := do
  let (key, value, after) ← pair (2 * text.length + 2) maxRoom text
  let s ← orInvalid (s.assign? key value)
  return (s, after)

def statement (s : State) (text : Text) : Except Fault (State × Text) :=
  match text with
  | '[' :: '[' :: rest => orInvalid (s.arrayHeader? rest)
  | '[' :: rest => orInvalid (s.tableHeader? rest)
  | '#' :: _ => .ok (s, text)
  | c :: _ =>
    if isBare c || c = '"' || c = apostrophe then s.assignment text else .error .invalid
  | [] => .error .invalid

/-- All statements of a text. A statement is followed by a line feed or the end. -/
def statements : (fuel : Nat) → State → Text → Except Fault State
  | 0, _, _ => .error .invalid
  | fuel + 1, s, text =>
    match skipSpaces text with
    | [] => .ok s
    | '\n' :: rest => statements fuel s rest
    | text => do
      let (s, rest) ← s.statement text
      match ← orInvalid (skipComment? (skipSpaces rest)) with
      | [] => return s
      | '\n' :: rest => statements fuel s rest
      | _ => .error .invalid

end State

def parse (text : Text) : Except Fault Table := do
  let s ← State.statements (text.length + 1) {} text
  orInvalid s.root.value.fields?

end PropAccord.Toml
