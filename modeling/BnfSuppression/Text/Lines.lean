/-!
# Lines

A line ends at a line feed, a carriage return (the two together count once), a vertical tab, a form
feed, one of three ASCII separators, the next-line control, or the line or paragraph separator.
When a file is read, carriage returns become line feeds first.

## Main definitions

* `Text.lines`: the lines of a text, each with its line break; nothing is lost (`lines_flatten`).
* `Text.bareLines`: the lines without their breaks.
* `Text.normalizeBreaks`: carriage returns turned into line feeds.
* `Text.lineAt`: the number of the line that an offset lies in.
-/

namespace BnfSuppression.Text

/-- A character that ends a line. -/
def isLineBreak (c : Char) : Bool :=
  let n := c.toNat
  (0x0A ≤ n && n ≤ 0x0D) || (0x1C ≤ n && n ≤ 0x1E) || n == 0x85 || n == 0x2028 || n == 0x2029

/-- The lines of a text, without and with their line breaks. -/
def splitLines : List Char → List (List Char × List Char)
  | [] => []
  | '\r' :: '\n' :: cs => ([], ['\r', '\n']) :: splitLines cs
  | c :: cs =>
    if isLineBreak c then ([], [c]) :: splitLines cs
    else match splitLines cs with
      | [] => [([c], [])]
      | (line, ending) :: rest => (c :: line, ending) :: rest

/-- The lines of a text, each with its line break. -/
def lines (cs : List Char) : List (List Char) := (splitLines cs).map fun l => l.1 ++ l.2

/-- The lines of a text without their line breaks. -/
def bareLines (cs : List Char) : List (List Char) := (splitLines cs).map Prod.fst

/-- The lines of a text, one after the other, are the text. -/
theorem lines_flatten (cs : List Char) : (lines cs).flatten = cs := by
  unfold lines
  fun_induction splitLines cs with
  | case1 => rfl
  | case2 cs ih => simp [ih]
  | case3 c cs _ _ ih => simp [ih]
  | case4 c cs _ _ h ih => simp_all
  | case5 c cs _ _ line ending rest h ih => simp_all

/-- A text in which carriage returns, with the line feed after them or without, have become line
feeds. -/
def normalizeBreaks : List Char → List Char
  | [] => []
  | '\r' :: '\n' :: cs => '\n' :: normalizeBreaks cs
  | '\r' :: cs => '\n' :: normalizeBreaks cs
  | c :: cs => c :: normalizeBreaks cs

/-- The number of the line that an offset lies in, counting from one and by line feeds. -/
def lineAt (cs : List Char) (offset : Nat) : Nat := (cs.take offset).count '\n' + 1

end BnfSuppression.Text
