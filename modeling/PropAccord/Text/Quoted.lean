import PropAccord.Text.Basic
import PropAccord.Text.Printable

/-!
# Quoted texts

A text inside a message stands between quotes. Single quotes are used unless the text holds a
single and no double one; the quote in use, the backslash and everything that is not printable are
written as escapes, the latter by their code point in two, four or eight hexadecimal digits.
-/

namespace PropAccord.Text

set_option autoImplicit false

def hex (width n : Nat) : Text :=
  let digits := Nat.toDigits 16 n
  List.replicate (width - digits.length) '0' ++ digits

def quoteFor (t : Text) : Char :=
  if t.any (· == '\'') && !t.any (· == '"') then '"' else '\''

def escapeChar (quote c : Char) : Text :=
  if c = quote ∨ c = '\\' then ['\\', c]
  else if c = '\t' then "\\t".toList
  else if c = '\n' then "\\n".toList
  else if c = '\r' then "\\r".toList
  else if isPrintable c then [c]
  else if c.toNat ≤ 0xFF then '\\' :: 'x' :: hex 2 c.toNat
  else if c.toNat ≤ 0xFFFF then '\\' :: 'u' :: hex 4 c.toNat
  else '\\' :: 'U' :: hex 8 c.toNat

def quoted (t : Text) : Text :=
  let quote := quoteFor t
  quote :: (t.flatMap (escapeChar quote) ++ [quote])

end PropAccord.Text
