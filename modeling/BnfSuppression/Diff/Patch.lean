import BnfSuppression.Diff.Alignment
import BnfSuppression.Text.Lines

/-!
# Patches

A patch shows the difference of two texts as hunks: changed lines with up to three kept lines around
them. Changes with at most six kept lines between them are in one hunk. A hunk starts with the
ranges of lines that it covers in either text; a removed line is marked by a minus sign, an added
one by a plus sign, a kept one by a space. Lines keep their line breaks, so the last line of a patch
may have none.

## Main definitions

* `Diff.Hunk`: a part of a script, and where it starts in either text.
* `Diff.hunks`: the hunks of a script.
* `Diff.patch`: the patch from one text to another.
-/

namespace BnfSuppression.Diff

/-- How many kept lines a hunk shows around changed ones. -/
def contextSize : Nat := 3

/-- A part of a script, and how many lines come before it in either text. -/
structure Hunk where
  old : Nat
  new : Nat
  script : Script
  deriving DecidableEq, Repr

/-- A line of a script with its place in either text, and whether a hunk shows it. -/
structure PlacedLine where
  old : Nat
  new : Nat
  shown : Bool
  line : MarkedLine

/-- The line was removed or added. -/
def MarkedLine.changed (l : MarkedLine) : Bool := l.mark != .kept

/-- The lines of a script with their places, given those of the first and the number of kept lines
since the last change. A changed line is shown, and a kept line near one. -/
def placed (old new sinceChange : Nat) : Script → List PlacedLine
  | [] => []
  | l :: ls =>
    let old' := if l.mark = .added then old else old + 1
    let new' := if l.mark = .removed then new else new + 1
    if l.changed then ⟨old, new, true, l⟩ :: placed old' new' 0 ls
    else
      let shown := sinceChange < contextSize || (ls.take contextSize).any MarkedLine.changed
      ⟨old, new, shown, l⟩ :: placed old' new' (sinceChange + 1) ls

/-- The hunk that shows some lines. -/
def Hunk.ofLines? : List PlacedLine → Option Hunk
  | [] => none
  | l :: ls => if l.shown then some ⟨l.old, l.new, (l :: ls).map PlacedLine.line⟩ else none

/-- The hunks of a script: the longest runs of lines that are shown. -/
def hunks (s : Script) : List Hunk :=
  ((placed 0 0 contextSize s).splitBy fun l m => l.shown == m.shown).filterMap Hunk.ofLines?

/-! ### Writing -/

/-- A range of lines: the number of the first and, unless it is one, their number. An empty range
names the line before it. -/
def range (start length : Nat) : String :=
  if length = 1 then toString (start + 1)
  else if length = 0 then toString start ++ ",0"
  else toString (start + 1) ++ "," ++ toString length

/-- The sign of a mark. -/
def Mark.sign : Mark → String
  | kept => " "
  | removed => "-"
  | added => "+"

/-- The lines of a hunk as a patch shows them. -/
def Hunk.render (h : Hunk) : List String :=
  ("@@ -" ++ range h.old (before h.script).length ++ " +" ++
      range h.new (after h.script).length ++ " @@\n") ::
    h.script.map fun l => l.mark.sign ++ l.line

/-- The lines of a text, each with its line break. -/
def linesOf (text : String) : List String := (Text.lines text.toList).map String.ofList

/-- The lines of the patch from one text to another; texts that are equal have none. -/
def patch (before after name : String) : List String :=
  match hunks (script (linesOf before) (linesOf after)) with
  | [] => []
  | h :: hs =>
    ("--- " ++ name ++ " (original)\n") :: ("+++ " ++ name ++ " (suppressed)\n") ::
      (h :: hs).flatMap Hunk.render

end BnfSuppression.Diff
