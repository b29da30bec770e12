import Interpose.Text.Range

/-!
# Blank characters

The Unicode property White_Space: the six ASCII blanks (tab, line feed, vertical tab, form feed,
carriage return, space) and the nine further ranges of `blankTable`.
-/

set_option autoImplicit false

namespace Interpose.Text

/-- White_Space beyond ASCII. -/
def blankTable : List (Nat × Nat) := [
  (0x85, 0x85), (0xA0, 0xA0), (0x1680, 0x1680), (0x2000, 0x200A), (0x2028, 0x2029),
  (0x202F, 0x202F), (0x205F, 0x205F), (0x3000, 0x3000)]

/-- The character separates words and is otherwise ignored. -/
def isBlank (c : Char) : Bool :=
  if c.toNat < 0x80 then c.toNat == 0x20 || (0x09 ≤ c.toNat && c.toNat ≤ 0x0D)
  else inRanges blankTable c

end Interpose.Text
