import PropAccord.Text.Quoted
import PropAccord.Value.Basic
import PropAccord.Value.Decimal

/-!
# Values as JSON

Reports are printed as JSON with two spaces for each level, the keys of a table in increasing
order and every character outside printable ASCII escaped by its UTF-16 units.
-/

namespace PropAccord.Value

set_option autoImplicit false

def jsonUnit (unit : Nat) : Text := '\\' :: 'u' :: Text.hex 4 unit

def jsonChar (c : Char) : Text :=
  if c = '"' ∨ c = '\\' then ['\\', c]
  else if c = '\n' then "\\n".toList
  else if c = '\r' then "\\r".toList
  else if c = '\t' then "\\t".toList
  else if c.toNat = 0x08 then "\\b".toList
  else if c.toNat = 0x0C then "\\f".toList
  else if 0x20 ≤ c.toNat ∧ c.toNat < 0x7F then [c]
  else if c.toNat < 0x10000 then jsonUnit c.toNat
  else
    let rest := c.toNat - 0x10000
    jsonUnit (0xD800 + rest / 0x400) ++ jsonUnit (0xDC00 + rest % 0x400)

def jsonString (t : Text) : Text := '"' :: (t.flatMap jsonChar ++ ['"'])

def jsonBlock (opening closing : Char) (indent : Nat) (parts : List Text) : Text :=
  if parts.isEmpty then [opening, closing]
  else
    let margin := '\n' :: List.replicate (indent + 2) ' '
    opening :: (margin ++ Text.join (',' :: margin) parts ++
      '\n' :: List.replicate indent ' ' ++ [closing])

mutual

def json (indent : Nat) : Value → Text
  | .null => "null".toList
  | .bool true => "true".toList
  | .bool false => "false".toList
  | .int n => Text.ofInt n
  | .real literal => Decimal.renderLiteral "Infinity".toList "NaN".toList literal
  | .moment literal => jsonString literal
  | .text t => jsonString t
  | .list items => jsonBlock '[' ']' indent (jsonItems (indent + 2) items)
  | .table fields =>
    jsonBlock '\x7b' '\x7d' indent
      (((jsonFields (indent + 2) fields).mergeSort fun a b => Text.le a.1 b.1).map fun (key, shown) =>
        jsonString key ++ ": ".toList ++ shown)

def jsonItems (indent : Nat) : List Value → List Text
  | [] => []
  | item :: rest => json indent item :: jsonItems indent rest

def jsonFields (indent : Nat) : List (Text × Value) → List (Text × Text)
  | [] => []
  | (key, value) :: rest => (key, json indent value) :: jsonFields indent rest

end

def toJson (value : Value) : Text := json 0 value

end PropAccord.Value
