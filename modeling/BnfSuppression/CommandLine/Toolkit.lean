import BnfSuppression.CommandLine.Arguments
import BnfSuppression.Terminal.Codes
import BnfSuppression.Toml.Format

/-!
# Toolkits

The program leaves some work to tools: reading and writing configuration files, putting texts in
color, dropping the codes of terminals from a text, and telling options from operands. What the
program makes of their results is the same for all tools; what it takes for granted of them is said
where it matters.

## Main definitions

* `CommandLine.Toolkit`: the tools.
* `CommandLine.Toolkit.standard`: the tools that the program uses.
-/

namespace BnfSuppression.CommandLine

/-- The tools that the program leaves some work to. -/
structure Toolkit where
  /-- Reading and writing configuration files. -/
  toml : Toml.Format
  /-- Putting a text in color. -/
  paint : Terminal.Painter
  /-- A text without the codes in it. -/
  dropCodes : String → String
  /-- The options and the operands among arguments. Options may follow operands only if that is
  said. -/
  readArguments : Switches → (mixed : Bool) → List String →
    Except Misuse (List Given × List String)

/-- The tools that the program uses. -/
def Toolkit.standard : Toolkit where
  toml := .standard
  paint := Terminal.paint
  dropCodes := Terminal.plain
  readArguments := CommandLine.readArguments

end BnfSuppression.CommandLine
