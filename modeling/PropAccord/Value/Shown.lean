import PropAccord.Text.Quoted
import PropAccord.Value.Basic
import PropAccord.Value.Decimal

/-!
# How a value is shown in a message

Texts are quoted, lists stand in brackets and tables in braces, with a comma and a space between
neighbours.
-/

namespace PropAccord.Value

set_option autoImplicit false

mutual

def shown : Value → Text
  | .null => "None".toList
  | .bool true => "True".toList
  | .bool false => "False".toList
  | .int n => Text.ofInt n
  | .real literal => Decimal.renderLiteral "inf".toList "nan".toList literal
  | .moment literal => literal
  | .text t => Text.quoted t
  | .list items => '[' :: (Text.join ", ".toList (shownItems items) ++ [']'])
  | .table fields => '\x7b' :: (Text.join ", ".toList (shownFields fields) ++ ['\x7d'])

def shownItems : List Value → List Text
  | [] => []
  | item :: rest => shown item :: shownItems rest

def shownFields : List (Text × Value) → List Text
  | [] => []
  | (key, value) :: rest =>
    (Text.quoted key ++ ": ".toList ++ shown value) :: shownFields rest

end

def kind : Value → Text
  | .null => "NoneType".toList
  | .bool _ => "bool".toList
  | .int _ => "int".toList
  | .real _ => "float".toList
  | .moment _ => "datetime".toList
  | .text _ => "str".toList
  | .list _ => "list".toList
  | .table _ => "dict".toList

/-- There is nothing in the value: it is null, false, zero or empty. -/
def isVoid : Value → Bool
  | .null => true
  | .bool b => !b
  | .int n => n == 0
  | .real literal => (Decimal.ofLiteral? literal).any (·.digits.isEmpty)
  | .moment _ => false
  | .text t => t.isEmpty
  | .list items => items.isEmpty
  | .table fields => fields.isEmpty

/-- The integer that a value equals, if it equals one; true equals one and false equals zero. -/
def whole? : Value → Option Int
  | .bool b => some (if b then 1 else 0)
  | .int n => some n
  | .real literal => (Decimal.ofLiteral? literal).bind Decimal.toInt?
  | _ => none

/-- A value on its own: a text is shown without quotes. -/
def plain : Value → Text
  | .text t => t
  | value => shown value

end PropAccord.Value
