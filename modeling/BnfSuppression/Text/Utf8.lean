/-!
# Reading UTF-8

Bytes are read as UTF-8 strictly: overlong forms, surrogates and values beyond the last code point
are refused. The refusal names the longest run of bytes that could still have begun a character,
where it stands, and what is wrong with it.

## Main definitions

* `Text.decodeUtf8`: the characters that bytes spell, or the first `DecodeError`.
* `Text.DecodeError.message`: its wording.
-/

namespace BnfSuppression.Text

/-- What is wrong with a run of bytes. -/
inductive DecodeReason
  /-- No character starts with this byte. -/
  | badStart
  /-- The byte after the run does not continue the character. -/
  | badContinuation
  /-- The bytes end inside the character. -/
  | truncated
  deriving DecidableEq, Repr

/-- The reason in words. -/
def DecodeReason.message : DecodeReason → String
  | .badStart => "invalid start byte"
  | .badContinuation => "invalid continuation byte"
  | .truncated => "unexpected end of data"

/-- Bytes that are not UTF-8: the run of `length` bytes from `position` on, which starts with
`first`. -/
structure DecodeError where
  first : UInt8
  position : Nat
  length : Nat
  reason : DecodeReason
  deriving DecidableEq, Repr

/-- The wording of a refusal. -/
def DecodeError.message (e : DecodeError) : String :=
  let place :=
    if e.length = 1 then
      let digits := Nat.toDigits 16 e.first.toNat
      "byte 0x" ++ String.ofList (List.replicate (2 - digits.length) '0' ++ digits) ++
        " in position " ++ toString e.position
    else "bytes in position " ++ toString e.position ++ "-" ++ toString (e.position + e.length - 1)
  "'utf-8' codec can't decode " ++ place ++ ": " ++ e.reason.message

/-- The bytes that may continue a character, first and last. -/
abbrev ByteRange := UInt8 × UInt8

/-- The range of an ordinary continuation byte. -/
def tailRange : ByteRange := (0x80, 0xBF)

/-- What the first byte of a character adds to its code point, and the ranges of the bytes that
must follow. -/
def leadByte? (b : UInt8) : Option (Nat × List ByteRange) :=
  if b < 0x80 then some (b.toNat, [])
  else if b < 0xC2 then none
  else if b < 0xE0 then some (b.toNat - 0xC0, [tailRange])
  else if b = 0xE0 then some (0, [(0xA0, 0xBF), tailRange])
  else if b = 0xED then some (0x0D, [(0x80, 0x9F), tailRange])
  else if b < 0xF0 then some (b.toNat - 0xE0, [tailRange, tailRange])
  else if b = 0xF0 then some (0, [(0x90, 0xBF), tailRange, tailRange])
  else if b < 0xF4 then some (b.toNat - 0xF0, [tailRange, tailRange, tailRange])
  else if b = 0xF4 then some (4, [(0x80, 0x8F), tailRange, tailRange])
  else none

/-- Reads the bytes that must follow: the code point and the bytes after the character, or how many
bytes were in order before the one that was not. -/
def continueBytes (value taken : Nat) :
    List ByteRange → List UInt8 → Except (Nat × DecodeReason) (Nat × List UInt8)
  | [], bytes => .ok (value, bytes)
  | _ :: _, [] => .error (taken, .truncated)
  | range :: ranges, b :: bytes =>
    if range.1 ≤ b ∧ b ≤ range.2 then
      continueBytes (value * 64 + b.toNat % 64) (taken + 1) ranges bytes
    else .error (taken, .badContinuation)

/-- Continuing a character takes bytes away and adds none, which is why decoding ends. -/
theorem length_of_continueBytes {value taken : Nat} {ranges : List ByteRange}
    {bytes rest : List UInt8} {n : Nat}
    (h : continueBytes value taken ranges bytes = .ok (n, rest)) : rest.length ≤ bytes.length := by
  fun_induction continueBytes value taken ranges bytes with
  | case1 => simp_all
  | case2 => simp at h
  | case3 value taken range ranges b bytes hb ih => exact Nat.le_succ_of_le (ih h)
  | case4 => simp at h

/-- The characters spelled from `position` on. -/
def decodeFrom (position : Nat) (bytes : List UInt8) : Except DecodeError (List Char) :=
  match bytes with
  | [] => .ok []
  | b :: following =>
    match leadByte? b with
    | none => .error ⟨b, position, 1, .badStart⟩
    | some (value, ranges) =>
      match _h : continueBytes value 1 ranges following with
      | .error (taken, reason) => .error ⟨b, position, taken, reason⟩
      | .ok (n, rest) =>
        match decodeFrom (position + 1 + ranges.length) rest with
        | .error e => .error e
        | .ok cs => .ok (Char.ofNat n :: cs)
termination_by bytes.length
decreasing_by
  simpa using Nat.lt_succ_of_le (length_of_continueBytes _h)

/-- The characters that bytes spell. -/
def decodeUtf8 (bytes : ByteArray) : Except DecodeError (List Char) := decodeFrom 0 bytes.toList

end BnfSuppression.Text
