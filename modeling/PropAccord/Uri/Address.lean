import PropAccord.Text.Basic
import PropAccord.Uri.Percent

/-!
# Addresses in brackets

The host of a URI may be an address between brackets: a version 6 address, perhaps with a zone, or
an address of a later version, which begins with the letter `v`.
-/

namespace PropAccord.Address

set_option autoImplicit false

def isHex (c : Char) : Bool := (Percent.digit? c).isSome

/-- One decimal field of a version 4 address: at most 255 and without leading zeros. -/
def isOctet (t : Text) : Bool :=
  !t.isEmpty && t.all Char.isDigit && t.length ≤ 3 && (t.length = 1 || t.head? != some '0') &&
    t.foldl (fun n c => 10 * n + (c.toNat - '0'.toNat)) 0 ≤ 255

def isVersion4 (t : Text) : Bool :=
  let fields := t.splitOn '.'
  fields.length = 4 && fields.all isOctet

def isField (t : Text) : Bool := !t.isEmpty && t.length ≤ 4 && t.all isHex

/-- The fields of a version 6 address; a version 4 address at the end stands for two of them. -/
def fields? (t : Text) : Option (List Text) :=
  let fields := t.splitOn ':'
  let last := fields.getLast?.getD []
  if last.any (· == '.') then
    if isVersion4 last then some (fields.dropLast ++ [['0'], ['0']]) else none
  else some fields

/-- Eight fields, or fewer with one gap; a colon at an end belongs to the gap. -/
def isFieldList (fields : List Text) : Bool :=
  let inner := (fields.drop 1).dropLast
  let gaps := inner.countP List.isEmpty
  let ends := fields.head? == some [] || fields.getLast? == some []
  if gaps = 0 then fields.length = 8 && !ends && fields.all isField
  else
    let before := fields.takeWhile (!List.isEmpty ·)
    let after := (fields.reverse.takeWhile (!List.isEmpty ·)).reverse
    let openStart := fields.head? == some []
    let openEnd := fields.getLast? == some []
    let gap := fields.length - before.length - after.length
    gaps = 1 && gap = 1 + (if openStart then 1 else 0) + (if openEnd then 1 else 0) &&
      before.length + after.length ≤ 7 && before.all isField && after.all isField

/-- A version 6 address, perhaps with a zone behind a percent sign. -/
def isVersion6 (t : Text) : Bool :=
  let address := t.takeWhile (· ≠ '%')
  let zone := (t.dropWhile (· ≠ '%')).drop 1
  let zoneFits := address.length = t.length || (!zone.isEmpty && !zone.any (· == '%'))
  zoneFits && 3 ≤ (address.splitOn ':').length &&
    match fields? address with
    | some fields => fields.length ≤ 9 && isFieldList fields
    | none => false

/-- An address of a later version: `v`, hexadecimal digits, a dot and something more. -/
def isLaterVersion (t : Text) : Bool :=
  match t with
  | 'v' :: rest =>
    let version := rest.takeWhile isHex
    !version.isEmpty && match rest.dropWhile isHex with
      | '.' :: _ :: _ => true
      | _ => false
  | _ => false

end PropAccord.Address
