/-!
# Decimal digits

A decimal digit is a character of Unicode's category Nd. Those characters come
in runs of ten, from a zero to a nine, so the category is given by its zeros.
Only the first run, `0` to `9`, also spells numbers here: text in another run
is recognised as digits and then refused as a number.

Numbers in documents and in module source may have other bases, and underscores
between their digits.
-/

namespace SiteMacros.Text

/-- The code points of the digits zero, one for each run of ten. -/
def zeros : List Nat := [
  0x30, 0x660, 0x6f0, 0x7c0, 0x966, 0x9e6, 0xa66, 0xae6, 0xb66, 0xbe6, 0xc66, 0xce6,
  0xd66, 0xde6, 0xe50, 0xed0, 0xf20, 0x1040, 0x1090, 0x17e0, 0x1810, 0x1946, 0x19d0,
  0x1a80, 0x1a90, 0x1b50, 0x1bb0, 0x1c40, 0x1c50, 0xa620, 0xa8d0, 0xa900, 0xa9d0, 0xa9f0,
  0xaa50, 0xabf0, 0xff10, 0x104a0, 0x10d30, 0x10d40, 0x11066, 0x110f0, 0x11136, 0x111d0,
  0x112f0, 0x11450, 0x114d0, 0x11650, 0x116c0, 0x116d0, 0x116da, 0x11730, 0x118e0,
  0x11950, 0x11bf0, 0x11c50, 0x11d50, 0x11da0, 0x11f50, 0x16130, 0x16a60, 0x16ac0,
  0x16b50, 0x16d70, 0x1ccf0, 0x1d7ce, 0x1d7d8, 0x1d7e2, 0x1d7ec, 0x1d7f6, 0x1e140,
  0x1e2f0, 0x1e4f0, 0x1e5f1, 0x1e950, 0x1fbf0]

/-- Is `c` a decimal digit of any script? -/
def isDecimalDigit (c : Char) : Bool :=
  zeros.any fun z => z ≤ c.toNat && c.toNat < z + 10

/-- The number that a list of the digits `0` to `9` spells; `none` as soon as
another character stands in it. The empty list spells zero. -/
def number? (cs : List Char) : Option Nat :=
  cs.foldl (fun n c => n.bind fun n =>
    if c.isDigit then some (10 * n + (c.toNat - 48)) else none) (some 0)

/-- The value of a hexadecimal digit. -/
def hexValue? (c : Char) : Option Nat :=
  if c.isDigit then some (c.toNat - 48)
  else if 'a' ≤ c ∧ c ≤ 'f' then some (c.toNat - 87)
  else if 'A' ≤ c ∧ c ≤ 'F' then some (c.toNat - 55)
  else none

/-- The number that digits of a base up to sixteen spell; at least one. -/
def baseNumber? (base : Nat) (cs : List Char) : Option Nat :=
  if cs.isEmpty then none
  else cs.foldl (fun n c => n.bind fun n => (hexValue? c).bind fun d =>
    if d < base then some (base * n + d) else none) (some 0)

/-- Digits without the underscores between them: an underscore has a digit on
either side. `after` says whether a digit came last. -/
def ungroup (isDigit : Char → Bool) (after : Bool) : List Char → Option (List Char)
  | [] => if after then some [] else none
  | c :: cs =>
      if c = '_' then if after then ungroup isDigit false cs else none
      else if isDigit c then (ungroup isDigit true cs).map (c :: ·)
      else none

end SiteMacros.Text
