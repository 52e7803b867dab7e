/-!
# Blank characters

The characters of Unicode 14 that count as white space: those of bidirectional class
whitespace, segment separator or paragraph separator, and the space separators.
-/

namespace SchemaForge.Text

/-- A blank: a character that separates words. -/
def isBlank (c : Char) : Bool :=
  let n := c.toNat
  (9 ≤ n && n ≤ 13) || (0x1c ≤ n && n ≤ 0x20) || n == 0x85 || n == 0xa0 || n == 0x1680
    || (0x2000 ≤ n && n ≤ 0x200a) || n == 0x2028 || n == 0x2029 || n == 0x202f || n == 0x205f
    || n == 0x3000

/-- A blank that may surround a number: any of `isBlank` but the four information separators. -/
def isNumberBlank (c : Char) : Bool := isBlank c && !(0x1c ≤ c.toNat && c.toNat ≤ 0x1f)

end SchemaForge.Text
