import PropAccord.Text.Basic

/-!
# Line ends

Files may end their lines with a line feed, a carriage return or both. A text in memory has line
feeds only, and is written back that way. In what is printed, a carriage return at the end of a line
is not shown.
-/

namespace PropAccord.Text

set_option autoImplicit false

def unifyNewlines : Text → Text
  | [] => []
  | '\r' :: '\n' :: rest => '\n' :: unifyNewlines rest
  | '\r' :: rest => '\n' :: unifyNewlines rest
  | c :: rest => c :: unifyNewlines rest

/-- The text without the carriage returns that stand right before a line feed. -/
def dropReturns : Text → Text
  | [] => []
  | '\r' :: '\n' :: rest => '\n' :: dropReturns rest
  | c :: rest => c :: dropReturns rest

end PropAccord.Text
