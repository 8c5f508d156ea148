import BnfSuppression.Terminal.Style

/-!
# Codes in output

Short texts are styled by codes in front and one reset behind. Where there is no color, the codes in
any output are dropped. A code is an escape character and a bracket, then parameters, then marks,
and one character that ends it.

## Main definitions

* `Terminal.emphasize`: a text behind codes.
* `Terminal.dropCodes`, `Terminal.plain`: a text without codes.
-/

namespace BnfSuppression.Terminal

/-- A text behind the codes of some numbers, with a reset at its end. -/
def emphasize (numbers : List Nat) (text : String) : String :=
  String.join (numbers.map code) ++ text ++ code 0

/-- A character of the parameters of a code: a digit or one of `:;<=>?`. -/
def isParameter (c : Char) : Bool := '0' ≤ c && c ≤ '?'

/-- A mark between the parameters of a code and its end: a space or one of ``!"#$%&'()*+,-./``. -/
def isMark (c : Char) : Bool := ' ' ≤ c && c ≤ '/'

/-- A character that ends a code: a letter or one of ``@[\]^_`{|}~``. -/
def isFinal (c : Char) : Bool := '@' ≤ c && c ≤ '~'

/-- The text after the code that starts here, the escape character of which has been read. -/
def afterCode? : List Char → Option (List Char)
  | '[' :: cs =>
    match (cs.dropWhile isParameter).dropWhile isMark with
    | c :: rest => if isFinal c then some rest else none
    | [] => none
  | _ => none

/-- A code has at least one character behind the escape, so less is left after it. -/
theorem length_afterCode? {cs rest : List Char} (h : afterCode? cs = some rest) :
    rest.length < cs.length := by
  unfold afterCode? at h
  split at h
  · next cs =>
    have hl := ((List.dropWhile_sublist isMark).trans
      (List.dropWhile_sublist isParameter (l := cs))).length_le
    split at h
    · next c more hd =>
      rw [hd] at hl
      split at h
      · obtain rfl := by simpa using h
        simp only [List.length_cons] at *
        omega
      · simp at h
    · simp at h
  · simp at h

/-- A text without codes. -/
def dropCodes (cs : List Char) : List Char :=
  match cs with
  | [] => []
  | c :: cs =>
    if c = escape then
      match _h : afterCode? cs with
      | some rest => dropCodes rest
      | none => c :: dropCodes cs
    else c :: dropCodes cs
termination_by cs.length
decreasing_by
  · exact Nat.lt_succ_of_lt (length_afterCode? _h)
  · exact Nat.lt_succ_self _
  · exact Nat.lt_succ_self _

/-- A text as it is printed without color. -/
def plain (text : String) : String := String.ofList (dropCodes text.toList)

end BnfSuppression.Terminal
