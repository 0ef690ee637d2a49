import PropAccord.Text.Utf8

/-!
# Percent-encoding

A byte outside a small set of safe characters is written as a percent sign and two hexadecimal
digits. Reading accepts either case, leaves a percent sign alone that no two digits follow, and
keeps characters outside ASCII as they are.
-/

namespace PropAccord.Percent

set_option autoImplicit false

/-- Letters, digits and the marks that a file name may show unescaped, the slash among them. -/
def isSafe (b : UInt8) : Bool :=
  let c := Char.ofNat b.toNat
  b < 0x80 && (c.isAlphanum || c == '_' || c == '.' || c == '-' || c == '~' || c == '/')

def digit (n : Nat) : Char := (Nat.digitChar n).toUpper

def encodeByte (b : UInt8) : Text :=
  if isSafe b then [Char.ofNat b.toNat] else ['%', digit (b.toNat / 16), digit (b.toNat % 16)]

def encode (t : Text) : Text := (Utf8.encode t).flatMap encodeByte

def digit? (c : Char) : Option Nat :=
  if c.isDigit then some (c.toNat - '0'.toNat)
  else if 'a' ≤ c ∧ c ≤ 'f' then some (c.toNat - 'a'.toNat + 10)
  else if 'A' ≤ c ∧ c ≤ 'F' then some (c.toNat - 'A'.toNat + 10)
  else none

def byte? (high low : Char) : Option UInt8 := do
  return UInt8.ofNat (16 * (← digit? high) + (← digit? low))

def bytes : Text → Bytes
  | [] => []
  | '%' :: high :: low :: rest =>
    match byte? high low with
    | some b => b :: bytes rest
    | none => UInt8.ofNat '%'.toNat :: bytes (high :: low :: rest)
  | c :: rest => UInt8.ofNat c.toNat :: bytes rest
termination_by text => text.length

/-- Decodes a text of which the ASCII characters in `run`, last first, are still to be decoded. -/
def decodeFrom (run : Text) : Text → Text
  | [] => Utf8.decodeLossy (bytes run.reverse)
  | c :: rest =>
    if c.toNat < 0x80 then decodeFrom (c :: run) rest
    else Utf8.decodeLossy (bytes run.reverse) ++ c :: decodeFrom [] rest

/-- A text with its escapes read; bytes that are not UTF-8 become replacement characters. -/
def decode (t : Text) : Text := decodeFrom [] t

end PropAccord.Percent
