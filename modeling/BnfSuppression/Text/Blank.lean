/-!
# Blank characters

A character is *blank* when it only separates words: the tabs and line breaks, the four ASCII
information separators, the next-line control, and the spaces and line and paragraph separators
of every script. Zero-width characters and the byte-order mark are not blank.

## Main definitions

* `Text.isBlank`: the class itself.
* `Text.dropBlanks`, `Text.strip`: cutting blanks off the front, and off both ends.
-/

namespace BnfSuppression.Text

/-- A character that only separates words. -/
def isBlank (c : Char) : Bool :=
  let n := c.toNat
  (0x09 ≤ n && n ≤ 0x0D) || (0x1C ≤ n && n ≤ 0x20) || n == 0x85 || n == 0xA0 || n == 0x1680 ||
    (0x2000 ≤ n && n ≤ 0x200A) || n == 0x2028 || n == 0x2029 || n == 0x202F || n == 0x205F ||
    n == 0x3000

/-- The text from its first character that is not blank. -/
def dropBlanks (cs : List Char) : List Char := cs.dropWhile isBlank

/-- The text between its outermost characters that are not blank. -/
def strip (cs : List Char) : List Char :=
  (dropBlanks (dropBlanks cs).reverse).reverse

end BnfSuppression.Text
