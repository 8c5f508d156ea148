import BnfSuppression.Text.Blank
import BnfSuppression.Text.Digit
import BnfSuppression.Toml.Value

/-!
# Numbers, dates and times

A number may have a sign, and underscores between its digits. An integer may be hexadecimal, octal
or binary, without a sign. A floating-point number has a point or an exponent, or is one of the
words `inf` and `nan`.

A date is `year-month-day`, with four digits for the year, and exists in the calendar. A time is
`hours:minutes`, perhaps with seconds, which may have a fraction. A date and a time together may be
followed by an offset, and have a year in the digits of any script; all other digits are ASCII.

## Main definitions

* `Toml.number?`: the number that a text denotes.
* `Toml.isDate`, `Toml.isTime`, `Toml.isDateTime`: dates and times.
-/

namespace BnfSuppression.Toml

/-! ### Numbers -/

/-- The digits in front, in their values, and the text after them. -/
def digitsOf (cs : List Char) : List Nat × List Char :=
  ((cs.takeWhile Text.isDecimal).filterMap Text.decimalValue?, cs.dropWhile Text.isDecimal)

/-- The exponent that a text denotes: `e`, perhaps a sign, and digits. An empty text denotes
zero. -/
def exponent? : List Char → Option Int
  | [] => some 0
  | 'e' :: cs =>
    let (negative, unsigned) := match cs with
      | '-' :: rest => (true, rest)
      | '+' :: rest => (false, rest)
      | rest => (false, rest)
    match digitsOf unsigned with
    | ([], _) | (_, _ :: _) => none
    | (digits, []) =>
      let n := Text.ofDigits 10 digits
      some (if negative then -(n : Int) else n)
  | _ => none

/-- The unsigned finite number that a text denotes: digits with or without a point, and perhaps an
exponent. -/
def finite? (cs : List Char) : Option (Nat × Int) := do
  let (whole, rest) := digitsOf cs
  let (fraction, rest) := match rest with
    | '.' :: rest => digitsOf rest
    | rest => ([], rest)
  if whole.isEmpty && fraction.isEmpty then none
  else
    let exponent ← exponent? rest
    return (Text.ofDigits 10 (whole ++ fraction), exponent - fraction.length)

/-- The floating-point number that an unsigned text denotes, given its sign: a word, or a text that
in small letters has a point or an exponent. -/
def floating? (negative : Bool) (cs : List Char) : Option Floating :=
  let small := Text.trimPaddingRight (cs.map Char.toLower)
  if cs = "inf".toList then some (.infinite negative)
  else if cs = "nan".toList then some .notANumber
  else if small.contains '.' || small.contains 'e' then
    (finite? small).map fun (n, exponent) => .finite (if negative then -(n : Int) else n) exponent
  else none

/-- A text without the underscores that stand between two digits. -/
def dropUnderscores (isDigit : Char → Bool) : Option Char → List Char → List Char
  | _, [] => []
  | before?, '_' :: cs =>
    if before?.any isDigit && cs.head?.any isDigit then dropUnderscores isDigit (some '_') cs
    else '_' :: dropUnderscores isDigit (some '_') cs
  | _, c :: cs => c :: dropUnderscores isDigit (some c) cs

/-- The base that an unsigned number is marked with, and the digits of that base. -/
def baseOf : List Char → Nat × (Char → Bool)
  | '0' :: 'b' :: _ => (2, fun c => c = '0' || c = '1')
  | '0' :: 'o' :: _ => (8, fun c => '0' ≤ c && c ≤ '7')
  | '0' :: 'x' :: _ => (16, fun c => c.isDigit || ('a' ≤ c.toLower && c.toLower ≤ 'f'))
  | _ => (10, Char.isDigit)

/-- The number has more digits than one and starts with a zero, which only a point, an exponent or
the mark of a base may follow. -/
def hasLeadingZero : List Char → Bool
  | '0' :: c :: _ => !(['.', 'o', 'x', 'b', 'e', 'E'].contains c)
  | _ => false

/-- The part before an exponent ends with a point. -/
def endsWithPoint (cs : List Char) : Bool :=
  cs.getLast? = some '.' ||
    (!"0x".toList.isPrefixOf cs && (cs.takeWhile (· != 'e')).getLast? = some '.')

/-- The number that a text denotes. -/
def number? (cs : List Char) : Option Value :=
  let (sign, unsigned) := match cs with
    | '-' :: rest => (['-'], rest)
    | '+' :: rest => (['+'], rest)
    | rest => ([], rest)
  let (base, isDigit) := baseOf unsigned
  let digits := dropUnderscores isDigit none unsigned
  let bare := digits.map Char.toLower
  if hasLeadingZero unsigned then none
  else if sign != [] && (base != 10 || (1 < unsigned.length && unsigned.head? = some '.')) then none
  else if bare.contains '_' || endsWithPoint bare then none
  else match Text.readInteger base (sign ++ bare) with
    | .ok n => some (.integer n)
    | .error _ => (floating? (sign == ['-']) digits).map .floating

/-! ### Dates and times -/

/-- The number that an ASCII digit denotes. -/
def asciiDigit? (c : Char) : Option Nat := if c.isDigit then some (c.toNat - '0'.toNat) else none

/-- The number that two digits denote, and the text after them. -/
def twoDigits? : List Char → Option (Nat × List Char)
  | c :: d :: cs => do return ((← asciiDigit? c) * 10 + (← asciiDigit? d), cs)
  | _ => none

/-- The number of days of a month. -/
def daysIn (year month : Nat) : Nat :=
  if month = 2 then
    if year % 4 = 0 && (year % 100 != 0 || year % 400 = 0) then 29 else 28
  else if [4, 6, 9, 11].contains month then 30
  else 31

/-- The year that four digits denote, and the text after them, given the digits. -/
def year? (digit? : Char → Option Nat) (cs : List Char) : Option (Nat × List Char) := do
  let digits ← (cs.take 4).mapM digit?
  if digits.length = 4 then some (Text.ofDigits 10 digits, cs.drop 4) else none

/-- The text after the date in front, given the digits of its year. -/
def afterDate? (digit? : Char → Option Nat) (cs : List Char) : Option (List Char) := do
  let (year, rest) ← year? digit? cs
  match rest with
  | '-' :: rest =>
    let (month, rest) ← twoDigits? rest
    match rest with
    | '-' :: rest =>
      let (day, rest) ← twoDigits? rest
      if 1 ≤ year && 1 ≤ month && month ≤ 12 && 1 ≤ day && day ≤ daysIn year month then some rest
      else none
    | _ => none
  | _ => none

/-- The text after the hours and minutes in front. -/
def afterMinutes? (cs : List Char) : Option (List Char) := do
  let (hours, rest) ← twoDigits? cs
  match rest with
  | ':' :: rest =>
    let (minutes, rest) ← twoDigits? rest
    if hours ≤ 23 && minutes ≤ 59 then some rest else none
  | _ => none

/-- The text after the time in front; the seconds may be missing. -/
def afterTime? (cs : List Char) : Option (List Char) := do
  match ← afterMinutes? cs with
  | ':' :: rest =>
    let (seconds, rest) ← twoDigits? rest
    if 59 < seconds then none
    else match rest with
      | '.' :: fraction =>
        if fraction.head?.any Char.isDigit then some (fraction.dropWhile Char.isDigit) else none
      | _ => some rest
  | rest => some rest

/-- The text is an offset from universal time, or empty. -/
def isOffset : List Char → Bool
  | [] => true
  | [z] => z = 'Z' || z = 'z'
  | sign :: cs => (sign = '+' || sign = '-') && afterMinutes? cs == some []

/-- The text is a date. -/
def isDate (cs : List Char) : Bool := afterDate? asciiDigit? cs == some []

/-- The text is a time. -/
def isTime (cs : List Char) : Bool := afterTime? cs == some []

/-- The text is a date with a time. -/
def isDateTime (cs : List Char) : Bool :=
  match afterDate? Text.decimalValue? cs with
  | some (separator :: rest) =>
    ['T', 't', ' '].contains separator && (afterTime? rest).any isOffset
  | _ => false

end BnfSuppression.Toml
