import BnfSuppression.Text.Printable

/-!
# Quoted text

A text is shown between single quotes, or between double quotes when it holds a single quote and
no double one. The backslash, the quote in use and the three common control characters are written
with a backslash; any other character that cannot be printed is written as its code point in
lower-case hexadecimal, two, four or eight digits wide.

## Main definitions

* `Text.quote`: the quoted text.
-/

namespace BnfSuppression.Text

/-- A number in lower-case hexadecimal, at least `width` digits wide. -/
def hex (width n : Nat) : List Char :=
  let digits := Nat.toDigits 16 n
  List.replicate (width - digits.length) '0' ++ digits

/-- The quote that a text is shown between. -/
def quoteMark (cs : List Char) : Char :=
  if cs.contains '\'' && !cs.contains '"' then '"' else '\''

/-- How one character is shown between quotes of the given kind. -/
def quoteChar (mark c : Char) : List Char :=
  if c = mark || c = '\\' then ['\\', c]
  else if c = '\n' then ['\\', 'n']
  else if c = '\r' then ['\\', 'r']
  else if c = '\t' then ['\\', 't']
  else if isPrintable c then [c]
  else if c.toNat < 0x100 then '\\' :: 'x' :: hex 2 c.toNat
  else if c.toNat < 0x10000 then '\\' :: 'u' :: hex 4 c.toNat
  else '\\' :: 'U' :: hex 8 c.toNat

/-- A text as it is shown in a message. -/
def quote (s : String) : String :=
  let mark := quoteMark s.toList
  String.ofList (mark :: s.toList.flatMap (quoteChar mark) ++ [mark])

end BnfSuppression.Text
