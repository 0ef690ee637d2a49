import PropAccord.Text.Basic

/-!
# Decimal literals

A number with a fraction or an exponent is kept as it was written. This module reads its digits
and writes the same number in the usual form: positional between a ten-thousandth and ten to the
sixteenth, with an exponent of at least two digits outside of that. Where such a number is compared
with an integer, it is the nearest one that has fifty-three binary digits.
-/

namespace PropAccord

set_option autoImplicit false

/-- The number `± 0.d₁d₂… · 10 ^ point`, where the first and the last digit are not zero; zero has
no digits. -/
structure Decimal where
  negative : Bool
  digits : List Nat
  point : Int
deriving DecidableEq, Repr

namespace Decimal

def natOf (digits : Text) : Nat :=
  digits.foldl (fun n c => 10 * n + (c.toNat - '0'.toNat)) 0

def sign : Text → Bool × Text
  | '-' :: rest => (true, rest)
  | '+' :: rest => (false, rest)
  | rest => (false, rest)

def ofDigits (literal : Text) : Decimal :=
  let (negative, unsigned) := sign literal
  let whole := unsigned.takeWhile Char.isDigit
  let rest := unsigned.dropWhile Char.isDigit
  let (fraction, rest) := match rest with
    | '.' :: r => (r.takeWhile Char.isDigit, r.dropWhile Char.isDigit)
    | r => ([], r)
  let exponent : Int := match rest with
    | 'e' :: r | 'E' :: r =>
      let (down, size) := sign r
      if down then -(natOf size : Int) else natOf size
    | _ => 0
  let all := (whole ++ fraction).map fun c => c.toNat - '0'.toNat
  let zeros := (all.takeWhile (· == 0)).length
  let digits := ((all.dropWhile (· == 0)).reverse.dropWhile (· == 0)).reverse
  if digits.isEmpty then ⟨negative, [], 0⟩
  else ⟨negative, digits, whole.length + exponent - zeros⟩

def maxPoint : Int := 309

def ofLiteral? (literal : Text) : Option Decimal :=
  let d := ofDigits literal
  if literal.any Char.isDigit && decide (d.point ≤ maxPoint) then some d else none

/-- The nearest number with as many binary digits as are kept; half way it is the even one. -/
def roundBits (kept n : Nat) : Nat :=
  let unit := Nat.pow 2 (n.log2 + 1 - kept)
  let whole := n / unit
  let up := unit < 2 * (n % unit) || (unit == 2 * (n % unit) && whole % 2 == 1)
  (if up then whole + 1 else whole) * unit

def toInt? (d : Decimal) : Option Int :=
  if d.digits.isEmpty then some 0
  else if d.point < d.digits.length then none
  else
    let magnitude := roundBits 53 (d.digits.foldl (fun n digit => 10 * n + digit) 0 *
      Nat.pow 10 (d.point.toNat - d.digits.length))
    some (if d.negative then -(magnitude : Int) else magnitude)

def render (d : Decimal) : Text :=
  let digits := d.digits.map Nat.digitChar
  let size : Nat := digits.length
  let body :=
    if digits.isEmpty then "0.0".toList
    else if d.point ≤ -4 || 16 < d.point then
      let exponent := d.point - 1
      let shown := Text.ofNat exponent.natAbs
      let fraction := digits.drop 1
      digits.take 1 ++ (if fraction.isEmpty then [] else '.' :: fraction) ++
        ['e', if exponent < 0 then '-' else '+'] ++
        List.replicate (2 - shown.length) '0' ++ shown
    else if d.point ≤ 0 then
      "0.".toList ++ List.replicate (-d.point).toNat '0' ++ digits
    else if size ≤ d.point.toNat then
      digits ++ List.replicate (d.point.toNat - size) '0' ++ ".0".toList
    else
      digits.take d.point.toNat ++ '.' :: digits.drop d.point.toNat
  if d.negative then '-' :: body else body

/-- The written form of the number that a literal denotes. One that is not finite has a word, which
keeps only a minus sign. -/
def renderLiteral (infinite notNumber literal : Text) : Text :=
  let (negative, unsigned) := sign literal
  match ofLiteral? literal with
  | some d => d.render
  | none =>
    if unsigned.take 1 = ['n'] then notNumber
    else if negative then '-' :: infinite
    else infinite

end Decimal

end PropAccord
