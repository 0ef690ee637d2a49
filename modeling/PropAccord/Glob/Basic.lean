import PropAccord.Glob.Brace
import PropAccord.Text.Blank

/-!
# Patterns for paths

A pattern is matched against a path below the root, with slashes between its segments. `**/` stands
for any number of folders, `**` for anything, `*` for any part of a segment, `?` for one character of a
segment; alternatives stand between braces.

A `**` does not cross a line feed, and one line feed at the end of a path may be left over. A pattern
with more groups than nested calls can be made is a fault wherever a path is held against it.
-/

namespace PropAccord.Glob

set_option autoImplicit false

inductive Token where
  | folders
  | anything
  | part
  | one
  | literal (c : Char)
deriving DecidableEq, Repr

/-- Reads a pattern from left to right, the longest token first. -/
def tokens : Text → List Token
  | [] => []
  | '*' :: '*' :: '/' :: rest => .folders :: tokens rest
  | '*' :: '*' :: rest => .anything :: tokens rest
  | '*' :: rest => .part :: tokens rest
  | '?' :: rest => .one :: tokens rest
  | c :: rest => .literal c :: tokens rest

/-- Some characters `among` a class, and then a rest that `next` accepts. -/
def run (among : Char → Bool) (next : Text → Bool) : Text → Bool
  | [] => next []
  | c :: rest => next (c :: rest) || (among c && run among next rest)

def throughSlash (next : Text → Bool) : Text → Bool
  | [] => false
  | c :: rest => (c == '/' && next rest) || (c != '\n' && throughSlash next rest)

def single (among : Char → Bool) (next : Text → Bool) : Text → Bool
  | [] => false
  | c :: rest => among c && next rest

/-- The text is made of pieces that match the tokens in order. -/
def fits : List Token → Text → Bool
  | [] => List.isEmpty
  | .folders :: rest => fun text => fits rest text || throughSlash (fits rest) text
  | .anything :: rest => run (· != '\n') (fits rest)
  | .part :: rest => run (· != '/') (fits rest)
  | .one :: rest => single (· != '/') (fits rest)
  | .literal c :: rest => single (· == c) (fits rest)

/-- The text fits, or would without a line feed at its end. -/
def fitsLine (pattern : List Token) (text : Text) : Bool :=
  fits pattern text || (text.getLast? == some '\n' && fits pattern text.dropLast)

inductive Fault where
  | tooManyGroups
deriving DecidableEq, Repr

def Fault.message : Fault → Text
  | .tooManyGroups => "maximum recursion depth exceeded while calling a Python object".toList

/-- The patterns that a pattern stands for. The calls that this nests may be limited. -/
def expansion (calls : Option Nat) (pattern : Text) : Except Fault (List Text) :=
  match calls with
  | none => .ok (Brace.expand pattern)
  | some calls => (Brace.expandWithin calls pattern).elim (.error .tooManyGroups) .ok

/-- Holds a path against a pattern. The empty pattern is not looked at and matches nothing. -/
def test (calls : Option Nat) (pattern path : Text) : Except Fault Bool := do
  if pattern.isEmpty then return false
  let alternatives ← expansion calls pattern.strip
  return alternatives.any fun p => fitsLine (tokens p) path

def alternatives (pattern : Text) : List Text := Brace.expand pattern.strip

/-- The path matches the pattern. This is what a test comes to that no limit stops. -/
def accepts (pattern path : Text) : Bool :=
  !pattern.isEmpty && (alternatives pattern).any fun p => fitsLine (tokens p) path

end PropAccord.Glob
