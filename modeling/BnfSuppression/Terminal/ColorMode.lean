/-!
# Whether output is in color

The user may ask for color or against it. Otherwise the environment decides, and last whether the
output goes to a terminal.

## Main definitions

* `Terminal.ColorMode`: what the user asked for.
* `Terminal.isColorful`: the decision.
-/

namespace BnfSuppression.Terminal

/-- What the user asked for. -/
inductive ColorMode
  | auto
  | always
  | never
  deriving DecidableEq, Repr

/-- The modes by name. -/
def ColorMode.ofName? : String → Option ColorMode
  | "auto" => some auto
  | "always" => some always
  | "never" => some never
  | _ => none

/-- The environment asks for color: by a value other than the empty one and zero. -/
def isForced (forceColor? : Option String) : Bool := forceColor?.any fun v => v != "" && v != "0"

/-- Whether output is in color, given the values of the variables that force and forbid it. -/
def isColorful (mode : ColorMode) (forceColor? noColor? : Option String) (isTerminal : Bool) :
    Bool :=
  match mode with
  | .always => true
  | .never => false
  | .auto => isForced forceColor? || (noColor?.isNone && isTerminal)

end BnfSuppression.Terminal
