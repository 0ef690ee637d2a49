import PropAccord.Text.Basic
import PropAccord.Uri.Percent
import PropAccord.Value.Basic

/-!
# Literals of TOML

The strings, numbers, dates and times of TOML 1.0. Each reader takes a literal off the front of a
text and returns it with the rest, or fails. Decimal integers have a greatest length.
-/

namespace PropAccord.Toml

set_option autoImplicit false

def isIllegal (multiline : Bool) (c : Char) : Bool :=
  (c.toNat < 0x20 || c.toNat == 0x7F) && c != '\t' && !(multiline && c == '\n')

def isSpace (c : Char) : Bool := c == ' ' || c == '\t'

def isSpaceOrNewline (c : Char) : Bool := isSpace c || c == '\n'

def skipSpaces (t : Text) : Text := t.dropWhile isSpace

/-- What follows a comment whose mark has been read; the comment ends before its line feed. -/
def afterComment? (text : Text) : Option Text :=
  if (text.takeWhile (· ≠ '\n')).any (isIllegal false) then none
  else some (text.dropWhile (· ≠ '\n'))

theorem length_afterComment?_le {text after : Text} (h : afterComment? text = some after) :
    after.length ≤ text.length := by
  unfold afterComment? at h
  split at h
  · simp at h
  · cases h
    exact Text.length_dropWhile_le _ text

def skipComment? : Text → Option Text
  | '#' :: rest => afterComment? rest
  | rest => some rest

/-- The character with a code of exactly `width` hexadecimal digits. -/
def scalar? (width : Nat) (t : Text) : Option (Text × Text) := do
  let digits := t.take width
  guard (digits.length = width)
  let values ← digits.mapM Percent.digit?
  let code := values.foldl (fun n d => 16 * n + d) 0
  if h : code.isValidChar then return ([Char.ofNatAux code h], t.drop width) else none

def escape? (multiline : Bool) : Text → Option (Text × Text)
  | 'b' :: rest => some (['\x08'], rest)
  | 't' :: rest => some (['\t'], rest)
  | 'n' :: rest => some (['\n'], rest)
  | 'f' :: rest => some (['\x0c'], rest)
  | 'r' :: rest => some (['\r'], rest)
  | '"' :: rest => some (['"'], rest)
  | '\\' :: rest => some (['\\'], rest)
  | 'u' :: rest => scalar? 4 rest
  | 'U' :: rest => scalar? 8 rest
  | rest =>
    if multiline then
      match skipSpaces rest with
      | '\n' :: rest => some ([], rest.dropWhile isSpaceOrNewline)
      | _ => none
    else none

def basicBody? (multiline : Bool) : (fuel : Nat) → Text → Option (Text × Text)
  | 0, _ => none
  | fuel + 1, text =>
    match text with
    | [] => none
    | '"' :: rest =>
      if multiline then
        match rest with
        | '"' :: '"' :: rest => some ([], rest)
        | rest => (basicBody? multiline fuel rest).map fun (t, after) => ('"' :: t, after)
      else some ([], rest)
    | '\\' :: rest => do
      let (c, rest) ← escape? multiline rest
      let (t, after) ← basicBody? multiline fuel rest
      return (c ++ t, after)
    | c :: rest =>
      if isIllegal multiline c then none
      else (basicBody? multiline fuel rest).map fun (t, after) => (c :: t, after)

def apostrophe : Char := Char.ofNat 0x27

def literalBody? (multiline : Bool) : Text → Option (Text × Text)
  | [] => none
  | c :: rest =>
    if !multiline && c = apostrophe then some ([], rest)
    else if multiline && (List.replicate 3 apostrophe).isPrefixOf (c :: rest) then
      some ([], rest.drop 2)
    else if isIllegal multiline c then none
    else (literalBody? multiline rest).map fun (t, after) => (c :: t, after)

/-- Up to two quotes directly behind a multi-line string belong to it. -/
def extraQuotes (quote : Char) (read : Text × Text) : Text × Text :=
  let extra := ((read.2.take 2).takeWhile (· == quote))
  (read.1 ++ extra, read.2.drop extra.length)

def dropNewline : Text → Text
  | '\n' :: rest => rest
  | rest => rest

def lineString? : Text → Option (Text × Text)
  | '"' :: rest => basicBody? false (rest.length + 1) rest
  | c :: rest => if c = apostrophe then literalBody? false rest else none
  | [] => none

def string? (text : Text) : Option (Text × Text) :=
  if (List.replicate 3 '"').isPrefixOf text then
    let inside := dropNewline (text.drop 3)
    (basicBody? true (inside.length + 1) inside).map (extraQuotes '"')
  else if (List.replicate 3 apostrophe).isPrefixOf text then
    (literalBody? true (dropNewline (text.drop 3))).map (extraQuotes apostrophe)
  else lineString? text

/-- More digits of a number, with single underscores between them. -/
def moreDigits (isDigit : Char → Bool) : Text → Text × Text
  | '_' :: c :: rest =>
    if isDigit c then
      let (digits, after) := moreDigits isDigit rest
      (c :: digits, after)
    else ([], '_' :: c :: rest)
  | c :: rest =>
    if isDigit c then
      let (digits, after) := moreDigits isDigit rest
      (c :: digits, after)
    else ([], c :: rest)
  | [] => ([], [])

def digits? (isDigit : Char → Bool) : Text → Option (Text × Text)
  | c :: rest =>
    if isDigit c then
      let (digits, after) := moreDigits isDigit rest
      some (c :: digits, after)
    else none
  | [] => none

def numberOf (base : Nat) (digits : Text) : Nat :=
  digits.foldl (fun n c => base * n + (Percent.digit? c).getD 0) 0

def isDigitIn (base : Nat) (c : Char) : Bool := (Percent.digit? c).any (· < base)

def based? : Text → Option (Value × Text)
  | '0' :: 'x' :: rest => read 16 rest
  | '0' :: 'b' :: rest => read 2 rest
  | '0' :: 'o' :: rest => read 8 rest
  | _ => none
where
  read (base : Nat) (rest : Text) : Option (Value × Text) :=
    (digits? (isDigitIn base) rest).map fun (digits, after) => (.int (numberOf base digits), after)

def fraction : Text → Text × Text
  | '.' :: rest =>
    match digits? Char.isDigit rest with
    | some (digits, after) => ('.' :: digits, after)
    | none => ([], '.' :: rest)
  | rest => ([], rest)

def signOf : Text → Text × Text
  | '+' :: rest => (['+'], rest)
  | '-' :: rest => (['-'], rest)
  | rest => ([], rest)

def exponent (text : Text) : Text × Text :=
  match text with
  | e :: rest =>
    if e = 'e' ∨ e = 'E' then
      let (sign, unsigned) := signOf rest
      match digits? Char.isDigit unsigned with
      | some (digits, after) => ('e' :: sign ++ digits, after)
      | none => ([], text)
    else ([], text)
  | [] => ([], text)

inductive Fault where
  | invalid
  | longInteger (digits : Nat)
  | tooDeep
deriving DecidableEq, Repr

def orInvalid {α : Type} : Option α → Except Fault α
  | some a => .ok a
  | none => .error .invalid

def maxDigits : Nat := 4300

structure Numeral where
  sign : Text
  whole : Text
  fractional : Text
  scale : Text

/-- A decimal integer or a number with a fraction or an exponent. A zero is not followed by more
digits. -/
def numeral? (text : Text) : Option (Numeral × Text) := do
  let (sign, unsigned) := signOf text
  let (whole, rest) ← match unsigned with
    | '0' :: rest => some (['0'], rest)
    | rest => digits? Char.isDigit rest
  let (fractional, rest) := fraction rest
  let (scale, rest) := exponent rest
  return ({ sign, whole, fractional, scale }, rest)

def Numeral.value (n : Numeral) : Except Fault Value :=
  if !n.fractional.isEmpty || !n.scale.isEmpty then
    .ok (.real (n.sign ++ n.whole ++ n.fractional ++ n.scale))
  else if maxDigits < n.whole.length then .error (.longInteger n.whole.length)
  else
    let magnitude : Int := numberOf 10 n.whole
    .ok (.int (if n.sign = ['-'] then -magnitude else magnitude))

def special? (text : Text) : Option (Value × Text) :=
  let (sign, unsigned) := signOf text
  ["inf".toList, "nan".toList].findSome? fun word =>
    (Text.after? word unsigned).map fun rest => (.real (sign ++ word), rest)

def number (text : Text) : Except Fault (Value × Text) :=
  match based? text with
  | some read => .ok read
  | none =>
    match numeral? text with
    | some (n, after) => (·, after) <$> n.value
    | none => orInvalid (special? text)

def field? (width low high : Nat) (t : Text) : Option (Nat × Text) := do
  let digits := t.take width
  guard (digits.length = width && digits.all Char.isDigit)
  let n := numberOf 10 digits
  guard (low ≤ n && n ≤ high)
  return (n, t.drop width)

def time? (t : Text) : Option Text := do
  let (_, t) ← field? 2 0 23 t
  let t ← Text.after? [':'] t
  let (_, t) ← field? 2 0 59 t
  let t ← Text.after? [':'] t
  let (_, t) ← field? 2 0 59 t
  match t with
  | '.' :: c :: rest => if c.isDigit then return rest.dropWhile Char.isDigit else return t
  | _ => return t

def date? (t : Text) : Option ((Nat × Nat × Nat) × Text) := do
  let (year, t) ← field? 4 0 9999 t
  let t ← Text.after? ['-'] t
  let (month, t) ← field? 2 1 12 t
  let t ← Text.after? ['-'] t
  let (day, t) ← field? 2 1 31 t
  return ((year, month, day), t)

def offset? (t : Text) : Option Text :=
  match t with
  | c :: rest =>
    if c = 'Z' ∨ c = 'z' then some rest
    else if c = '+' ∨ c = '-' then do
      let (_, t) ← field? 2 0 23 rest
      let t ← Text.after? [':'] t
      let (_, t) ← field? 2 0 59 t
      return t
    else none
  | [] => none

def daysIn (year month : Nat) : Nat :=
  if month = 2 then
    if year % 4 = 0 ∧ (year % 100 ≠ 0 ∨ year % 400 = 0) then 29 else 28
  else if month = 4 ∨ month = 6 ∨ month = 9 ∨ month = 11 then 30
  else 31

def afterTime (t : Text) : Text :=
  match t with
  | c :: rest =>
    if c = 'T' ∨ c = 't' ∨ c = ' ' then
      match time? rest with
      | some after => (offset? after).getD after
      | none => t
    else t
  | [] => t

/-- A date, a time or both. A date that the calendar does not have is an error: the outer option
says whether the text begins like one. -/
def moment? (text : Text) : Option (Option (Value × Text)) :=
  let shown (after : Text) : Value × Text :=
    (.moment (text.take (text.length - after.length)), after)
  match date? text with
  | some ((year, month, day), rest) =>
    if year = 0 ∨ daysIn year month < day then some none else some (some (shown (afterTime rest)))
  | none => (time? text).map fun after => some (shown after)

end PropAccord.Toml
