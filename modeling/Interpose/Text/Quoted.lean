import Interpose.Text.Extending
import Interpose.Text.Ignorable

/-!
# Quoted words

A word in a message stands in double quotes, and every character of it can be told apart there. What
is drawn in a place of its own stands for itself. A mark would merge with the character before it or
with the quote, and an ignorable character would not be seen; both are written by number.
-/

set_option autoImplicit false

namespace Interpose.Text

/-- The two sound marks of halfwidth Katakana. They extend the letter before them and are
nevertheless drawn in a place of their own. -/
def isSpacedMark (c : Char) : Bool := c.toNat == 0xFF9E || c.toNat == 0xFF9F

/-- The character is drawn in a place of its own. -/
def isSeen (c : Char) : Bool := !isIgnorable c && (!isExtending c || isSpacedMark c)

/-- The code point of a character in hexadecimal digits. -/
def hexCode (c : Char) : String := String.ofList (Nat.toDigits 16 c.toNat)

/-- A character between quotes. -/
def quotedChar (c : Char) : String :=
  if isSeen c then c.toString else "\\u\x7b" ++ hexCode c ++ "\x7d"

/-- A word in double quotes. -/
def quotedWord (word : String) : String :=
  "\"" ++ String.join (word.toList.map quotedChar) ++ "\""

end Interpose.Text
