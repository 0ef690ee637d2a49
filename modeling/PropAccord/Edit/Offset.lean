import PropAccord.Edit.Snapshot

/-!
# Offsets of positions

The way back from a position to the offset it stands for. A text may have become shorter since the
position was taken: the column still counts from the start of its line, and a line that is not there
any more starts behind the end of the text, as if a line feed followed it.
-/

namespace PropAccord

set_option autoImplicit false

/-- The number of characters before a column of a line that is `line` line feeds ahead. -/
def offsetFrom (column : Nat) : (line : Nat) → Text → Nat
  | 0, _ => column
  | _ + 1, [] => column + 1
  | line + 1, c :: rest =>
    if c = '\n' then offsetFrom column line rest + 1 else offsetFrom column (line + 1) rest + 1

def Position.offsetIn (p : Position) (text : Text) : Nat := offsetFrom p.column p.line text

end PropAccord
