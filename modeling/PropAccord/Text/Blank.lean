import PropAccord.Text.Basic

/-!
# Blank characters

The characters that separate words and that stripping removes from the ends of a text. The class
holds the spaces of Unicode and the control characters that separate lines, pages and records;
zero-width characters are not in it.
-/

namespace PropAccord

set_option autoImplicit false

/-- White space and the separators among the control characters. -/
def isBlank (c : Char) : Bool :=
  let code := c.toNat
  (0x09 ≤ code && code ≤ 0x0D) || (0x1C ≤ code && code ≤ 0x20) || code == 0x85 || code == 0xA0 ||
    code == 0x1680 || (0x2000 ≤ code && code ≤ 0x200A) || code == 0x2028 || code == 0x2029 ||
    code == 0x202F || code == 0x205F || code == 0x3000

namespace Text

def allBlank (t : Text) : Bool := t.all isBlank

def stripStart (t : Text) : Text := t.dropWhile isBlank

def stripEnd (t : Text) : Text := (t.reverse.dropWhile isBlank).reverse

def strip (t : Text) : Text := t.stripStart.stripEnd

def leadingBlanks (t : Text) : Text := t.takeWhile isBlank

def trailingBlanks (t : Text) : Text := (t.reverse.takeWhile isBlank).reverse

end Text

end PropAccord
