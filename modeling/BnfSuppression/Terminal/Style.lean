/-!
# Styled text

A terminal changes its style at codes such as `ESC[31m`. Styled text starts with the codes that open
its styles and ends with those that close them. Text in between that changes the style itself is
mended: a code that closes one of the styles is followed by the code that opens it again, a stretch
between two resets is left out of the styles, and so is every line break.

## Main definitions

* `Terminal.Style`: styles with their opening and closing codes.
* `Terminal.Painter`: how texts are put in styles.
* `Terminal.paint`: a text in some styles.
-/

namespace BnfSuppression.Terminal

/-- The character that codes start with. -/
def escape : Char := '\x1b'

/-- The code of a number. -/
def code (number : Nat) : String := String.ofList [escape, '['] ++ toString number ++ "m"

/-- A style. -/
inductive Style
  | bold
  | dim
  | red
  | green
  | yellow
  | blue
  | cyan
  | white
  | gray
  | brightRed
  deriving DecidableEq, Repr

/-- How a text is put in some styles. -/
abbrev Painter := List Style → String → String

/-- The number that opens a style. -/
def Style.openNumber : Style → Nat
  | bold => 1
  | dim => 2
  | red => 31
  | green => 32
  | yellow => 33
  | blue => 34
  | cyan => 36
  | white => 37
  | gray => 90
  | brightRed => 91

/-- The number that closes a style: one for the weights, one for the colors. -/
def Style.closeNumber : Style → Nat
  | bold | dim => 22
  | _ => 39

/-- The code that opens a style. -/
def Style.openCode (s : Style) : String := code s.openNumber

/-- The code that closes a style. -/
def Style.closeCode (s : Style) : String := code s.closeNumber

/-- The text after a given start. -/
def dropPrefix? (start cs : List Char) : Option (List Char) :=
  if start.isPrefixOf cs then some (cs.drop start.length) else none

/-- A text in which every occurrence of a nonempty text is replaced, from the left. -/
def replaceAll (old new : List Char) (cs : List Char) : List Char :=
  match cs with
  | [] => []
  | c :: rest =>
    if _h : old ≠ [] ∧ old.isPrefixOf (c :: rest) then
      new ++ replaceAll old new ((c :: rest).drop old.length)
    else c :: replaceAll old new rest
termination_by cs.length
decreasing_by
  · have := List.length_pos_iff.2 _h.1
    simp only [List.length_drop, List.length_cons]
    omega
  · simp

/-- The code that resets all styles. -/
def reset : List Char := (code 0).toList

/-- If the text reaches a code without a line feed before: the text up to the end of that code, and
the rest. -/
def upTo? (stop : List Char) : List Char → Option (List Char × List Char)
  | [] => none
  | c :: cs =>
    if stop.isPrefixOf (c :: cs) then some (stop, (c :: cs).drop stop.length)
    else if c = '\n' then none
    else (upTo? stop cs).map fun (found, rest) => (c :: found, rest)

/-- A stretch between two resets on one line at the start of a text, and the rest. -/
def resetStretch? (cs : List Char) : Option (List Char × List Char) := do
  let inner ← dropPrefix? reset cs
  let (stretch, rest) ← upTo? reset inner
  return (reset ++ stretch, rest)

/-- What is left behind a mark is no longer than what was searched for it. -/
theorem length_upTo? {stop cs found rest : List Char} (h : upTo? stop cs = some (found, rest)) :
    rest.length ≤ cs.length := by
  fun_induction upTo? stop cs generalizing found rest with
  | case1 => simp at h
  | case2 c cs _ =>
    obtain ⟨rfl, rfl⟩ := by simpa using h
    simp only [List.length_drop]
    omega
  | case3 => simp at h
  | case4 c cs _ _ ih =>
    obtain ⟨⟨f, r⟩, hu, he⟩ := Option.map_eq_some_iff.1 h
    obtain ⟨-, rfl⟩ := by simpa using he
    have := ih hu
    simp only [List.length_cons]
    omega

/-- A stretch up to a reset has at least one character, so less is left after it. -/
theorem length_resetStretch? {cs stretch rest : List Char}
    (h : resetStretch? cs = some (stretch, rest)) : rest.length < cs.length := by
  simp only [resetStretch?, bind, Option.bind_eq_some_iff] at h
  obtain ⟨inner, hd, ⟨stretch', rest'⟩, hu, he⟩ := h
  obtain ⟨-, rfl⟩ := by simpa using he
  have hu := length_upTo? hu
  unfold dropPrefix? at hd
  split at hd
  · next hp =>
    obtain rfl := by simpa using hd
    have hl := (List.isPrefixOf_iff_prefix.1 hp).length_le
    have : 0 < reset.length := by decide +kernel
    simp only [List.length_drop] at hu
    omega
  · simp at hd

/-- Puts texts around every stretch between two resets. -/
def wrapResets (left right : List Char) (cs : List Char) : List Char :=
  match cs with
  | [] => []
  | c :: rest =>
    match _h : resetStretch? (c :: rest) with
    | some (stretch, after) => left ++ stretch ++ right ++ wrapResets left right after
    | none => c :: wrapResets left right rest
termination_by cs.length
decreasing_by
  · exact length_resetStretch? _h
  · simp

/-- Puts texts around every line feed, together with a carriage return before it. -/
def wrapLineBreaks (left right : List Char) : List Char → List Char
  | [] => []
  | '\r' :: '\n' :: cs => left ++ ['\r', '\n'] ++ right ++ wrapLineBreaks left right cs
  | c :: cs =>
    if c = '\n' then left ++ ['\n'] ++ right ++ wrapLineBreaks left right cs
    else c :: wrapLineBreaks left right cs

/-- The text in some styles. -/
def paint : Painter := fun styles text =>
  let opening := String.join (styles.map Style.openCode)
  let closing := String.join (styles.map Style.closeCode)
  let reopened := styles.foldl (fun cs s =>
    replaceAll s.closeCode.toList (s.closeCode ++ s.openCode).toList cs) text.toList
  let inner := wrapLineBreaks closing.toList opening.toList
    (wrapResets closing.toList opening.toList reopened)
  opening ++ String.ofList inner ++ closing

end BnfSuppression.Terminal
