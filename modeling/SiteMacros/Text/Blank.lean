/-!
# Blank characters

Two sets are called white space here, and they differ. Unicode's property
White_Space decides where a text ends when blanks at its end do not count. The
grammar of module source has its own set of blanks, which also holds the byte
order mark, and keeps the four line terminators apart.
-/

namespace SiteMacros.Text

/-- Does `c` have the property White_Space? -/
def isWhiteSpace (c : Char) : Bool :=
  let n := c.toNat
  (9 ≤ n && n ≤ 13) || n == 0x20 || n == 0x85 || n == 0xa0 || n == 0x1680
    || (0x2000 ≤ n && n ≤ 0x200a) || n == 0x2028 || n == 0x2029 || n == 0x202f
    || n == 0x205f || n == 0x3000

/-- Does `c` end a line of module source? -/
def isLineTerminator (c : Char) : Bool :=
  c == '\n' || c == '\r' || c.toNat == 0x2028 || c.toNat == 0x2029

/-- Is `c` a blank of module source that ends no line? -/
def isSourceBlank (c : Char) : Bool :=
  let n := c.toNat
  n == 9 || n == 0xb || n == 0xc || n == 0x20 || n == 0xa0 || n == 0xfeff || n == 0x1680
    || (0x2000 ≤ n && n ≤ 0x200a) || n == 0x202f || n == 0x205f || n == 0x3000

end SiteMacros.Text
