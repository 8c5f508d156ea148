import BnfSuppression.Diff.Patch
import BnfSuppression.Terminal.Style

/-!
# Previews of patches

A preview shows the lines of a patch in color, each ended by a line feed, with their numbers or
without. How a text is put in color is left to a painter.

## Main definitions

* `Diff.preview`: the preview of lines; `Diff.bareLine` and `Text.bareLines` give the lines of a
  list and of one text.
-/

namespace BnfSuppression.Diff

/-- How a line of a patch is shown: by its first character. -/
def lineStyles (line : List Char) : List Terminal.Style :=
  match line.head? with
  | some '-' => [.bold, .red]
  | some '+' => [.bold, .green]
  | some '@' => [.cyan]
  | _ => [.bold, .white]

/-- A text in which carriage returns are spelled out. -/
def spellReturns (cs : List Char) : List Char :=
  cs.flatMap fun c => if c = '\r' then ['\\', 'r'] else [c]

/-- A line in color. -/
def paintLine (paint : Terminal.Painter) (line : List Char) : String :=
  paint (lineStyles line) (String.ofList (spellReturns line))

/-- A number with four digits or more. -/
def lineNumber (n : Nat) : String :=
  let digits := (toString n).toList
  String.ofList (List.replicate (4 - digits.length) '0' ++ digits)

/-- The preview of lines without line breaks. -/
def preview (paint : Terminal.Painter) (numbered : Bool) (lines : List (List Char)) : String :=
  String.join (lines.zipIdx.map fun (line, i) =>
    (if numbered then lineNumber (i + 1) ++ "|" else "") ++ paintLine paint line ++ "\n")

/-- A line without the line feeds and carriage returns at its end. -/
def bareLine (line : String) : List Char :=
  (line.toList.reverse.dropWhile fun c => c = '\r' || c = '\n').reverse

/-- The preview of the lines of a patch. -/
def previewLines (paint : Terminal.Painter) (numbered : Bool) (lines : List String) : String :=
  preview paint numbered (lines.map bareLine)

/-- The preview of a patch that is one text. -/
def previewText (paint : Terminal.Painter) (numbered : Bool) (text : String) : String :=
  preview paint numbered (Text.bareLines text.toList)

end BnfSuppression.Diff
