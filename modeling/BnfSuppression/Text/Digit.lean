import BnfSuppression.Text.Blank
import BnfSuppression.Text.Ranges

/-!
# Digits and written integers

Every script with a decimal system has its ten digits in a row, so a digit is told by the zero of
its script. Superscripts, circled numerals and their like look like digits but do not take part in
a decimal number.

An integer is written with a sign, in any base from two to sixteen, with single underscores
between its digits, and with padding around it: blanks other than the information separators.

## Main definitions

* `Text.decimalValue?`: the value of a decimal digit of any script.
* `Text.isDigitLike`: a decimal digit or a character that merely looks like one.
* `Text.trimPadding`: cutting off what may stand around a number.
* `Text.readInteger`: the value of a written integer, or why it has none.
-/

namespace BnfSuppression.Text

/-- The zeros of the scripts with a decimal system. -/
def decimalZeros : List Nat :=
  [0x30, 0x660, 0x6F0, 0x7C0, 0x966, 0x9E6, 0xA66, 0xAE6, 0xB66, 0xBE6, 0xC66, 0xCE6, 0xD66, 0xDE6,
   0xE50, 0xED0, 0xF20, 0x1040, 0x1090, 0x17E0, 0x1810, 0x1946, 0x19D0, 0x1A80, 0x1A90, 0x1B50,
   0x1BB0, 0x1C40, 0x1C50, 0xA620, 0xA8D0, 0xA900, 0xA9D0, 0xA9F0, 0xAA50, 0xABF0, 0xFF10, 0x104A0,
   0x10D30, 0x11066, 0x110F0, 0x11136, 0x111D0, 0x112F0, 0x11450, 0x114D0, 0x11650, 0x116C0,
   0x11730, 0x118E0, 0x11950, 0x11C50, 0x11D50, 0x11DA0, 0x16A60, 0x16AC0, 0x16B50, 0x1D7CE,
   0x1D7D8, 0x1D7E2, 0x1D7EC, 0x1D7F6, 0x1E140, 0x1E2F0, 0x1E950, 0x1FBF0]

/-- The characters that look like digits but are no decimal digits. -/
def nominalDigits : Ranges :=
  [(0xB2, 0xB3), (0xB9, 0xB9), (0x1369, 0x1371), (0x19DA, 0x19DA), (0x2070, 0x2070),
   (0x2074, 0x2079), (0x2080, 0x2089), (0x2460, 0x2468), (0x2474, 0x247C), (0x2488, 0x2490),
   (0x24EA, 0x24EA), (0x24F5, 0x24FD), (0x24FF, 0x24FF), (0x2776, 0x277E), (0x2780, 0x2788),
   (0x278A, 0x2792), (0x10A40, 0x10A43), (0x10E60, 0x10E68), (0x11052, 0x1105A),
   (0x1F100, 0x1F10A)]

/-- The value of a decimal digit. -/
def decimalValue? (c : Char) : Option Nat :=
  (decimalZeros.find? fun first => first ≤ c.toNat && c.toNat < first + 10).map (c.toNat - ·)

/-- A decimal digit of any script. -/
def isDecimal (c : Char) : Bool := (decimalValue? c).isSome

/-- A decimal digit, or a character that looks like a digit. -/
def isDigitLike (c : Char) : Bool := isDecimal c || nominalDigits.contains c.toNat

/-- The value of a digit in bases up to sixteen: letters count on from ten. -/
def digitValue? (c : Char) : Option Nat :=
  if 'a' ≤ c && c ≤ 'f' then some (c.toNat - 'a'.toNat + 10)
  else if 'A' ≤ c && c ≤ 'F' then some (c.toNat - 'A'.toNat + 10)
  else decimalValue? c

/-- The value of a digit of a base. -/
def digitBelow? (base : Nat) (c : Char) : Option Nat := (digitValue? c).filter (· < base)

/-- The digits of a numeral, most significant first: single underscores may stand between them. -/
def numeral? (base : Nat) : List Char → Option (List Nat)
  | [] => none
  | [c] => (digitBelow? base c).map ([·])
  | c :: '_' :: cs => do
    let d ← digitBelow? base c
    let ds ← numeral? base cs
    return d :: ds
  | c :: cs => do
    let d ← digitBelow? base c
    let ds ← numeral? base cs
    return d :: ds

/-- A character that a numeral may hold. -/
def isNumeralChar (base : Nat) (c : Char) : Bool := c == '_' || (digitBelow? base c).isSome

/-- A blank that may stand around a number: any but the information separators. -/
def isPadding (c : Char) : Bool := isBlank c && !(0x1C ≤ c.toNat && c.toNat ≤ 0x1F)

/-- The text without the padding at its end. -/
def trimPaddingRight (cs : List Char) : List Char := (cs.reverse.dropWhile isPadding).reverse

/-- The text without the padding around it. -/
def trimPadding (cs : List Char) : List Char := trimPaddingRight (cs.dropWhile isPadding)

/-- The number that digits denote, most significant first. -/
def ofDigits (base : Nat) (digits : List Nat) : Nat :=
  digits.foldl (fun n d => n * base + d) 0

/-- Why a text denotes no integer. -/
inductive IntegerError
  /-- It is not written as an integer of the base. -/
  | malformed (text : String) (base : Nat)
  /-- It has more digits than a decimal integer may be written with. -/
  | tooLong (digits : Nat)

/-- The most digits that a decimal integer may be written with. -/
def maxDecimalDigits : Nat := 4300

/-- The digits after the marker of the base, which hexadecimal, octal and binary numerals may
carry. An underscore may follow the marker. -/
def dropBaseMarker (base : Nat) (cs : List Char) : List Char :=
  let afterUnderscore : List Char → List Char
    | '_' :: rest => rest
    | rest => rest
  match base, cs with
  | 16, '0' :: m :: rest => if m == 'x' || m == 'X' then afterUnderscore rest else cs
  | 8, '0' :: m :: rest => if m == 'o' || m == 'O' then afterUnderscore rest else cs
  | 2, '0' :: m :: rest => if m == 'b' || m == 'B' then afterUnderscore rest else cs
  | _, _ => cs

/-- The integer that a text denotes in a base. The digits in front are counted before anything
after them is found to be none. -/
def readInteger (base : Nat) (text : List Char) : Except IntegerError Int :=
  let (negative, unsigned) := match trimPadding text with
    | '-' :: rest => (true, rest)
    | '+' :: rest => (false, rest)
    | rest => (false, rest)
  let unsigned := dropBaseMarker base unsigned
  match numeral? base (unsigned.takeWhile (isNumeralChar base)) with
  | none => .error (.malformed (String.ofList text) base)
  | some digits =>
    if base == 10 && maxDecimalDigits < digits.length then .error (.tooLong digits.length)
    else if !(unsigned.dropWhile (isNumeralChar base)).isEmpty then
      .error (.malformed (String.ofList text) base)
    else
      let n := ofDigits base digits
      .ok (if negative then -(n : Int) else n)

end BnfSuppression.Text
