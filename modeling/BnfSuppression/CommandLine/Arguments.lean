import BnfSuppression.Text.Quoted

/-!
# Arguments

The arguments of a program are options and operands. A long option starts with two dashes; a value
follows it after an equals sign, or as the next argument. Short options, a dash and one letter, take
no value, and several may share one dash. After two dashes alone, all arguments are operands.

## Main definitions

* `CommandLine.Switches`: the options that a command knows.
* `CommandLine.Misuse`: why arguments cannot be read.
* `CommandLine.readArguments`: the options and operands.
-/

namespace BnfSuppression.CommandLine

/-- The options that a command knows: those that take a value, those that do not, and for each short
option the long one it stands for. -/
structure Switches where
  valued : List String
  bare : List String
  short : List (Char × String)

/-- Why arguments cannot be read. -/
inductive Misuse
  /-- An option without the value it takes. -/
  | missingValue (option : String)
  /-- An option with a value that it does not take. -/
  | needlessValue (option : String)
  /-- An unknown option or command, a missing or further operand, or a value that is not allowed. -/
  | improper
  deriving DecidableEq, Repr

/-- The message for a value that is missing or needless. -/
def Misuse.message? : Misuse → Option String
  | missingValue option => some ("Option " ++ Text.quote option ++ " requires an argument.")
  | needlessValue option => some ("Option " ++ Text.quote option ++ " does not take a value.")
  | improper => none

/-- An option as it was given: its long name, and its value if it takes one. -/
structure Given where
  name : String
  value : String
  deriving DecidableEq, Repr

/-- The name of a long option and the value after its equals sign. -/
def splitOption (arg : String) : String × Option String :=
  let cs := arg.toList
  match cs.dropWhile (· != '=') with
  | [] => (arg, none)
  | _ :: value => (String.ofList (cs.takeWhile (· != '=')), some (String.ofList value))

/-- The argument is an option: it starts with a dash and has more than that. -/
def isOption (arg : String) : Bool :=
  match arg.toList with
  | '-' :: _ :: _ => true
  | _ => false

/-- The options that share a dash. -/
def readCluster (known : Switches) : List Char → Except Misuse (List Given)
  | [] => .ok []
  | c :: cs =>
    match known.short.lookup c with
    | some name => do return ⟨name, ""⟩ :: (← readCluster known cs)
    | none => .error .improper

/-- How an option is to be read. -/
inductive Form
  | complete (given : List Given)
  /-- The value is the next argument. -/
  | needsValue (name : String)

/-- How an argument that is an option is to be read. -/
def formOf (known : Switches) (arg : String) : Except Misuse Form :=
  let (name, value?) := splitOption arg
  if known.valued.contains name then
    match value? with
    | some value => .ok (.complete [⟨name, value⟩])
    | none => .ok (.needsValue name)
  else if known.bare.contains name then
    match value? with
    | some _ => .error (.needlessValue name)
    | none => .ok (.complete [⟨name, ""⟩])
  else match arg.toList with
    | '-' :: '-' :: _ => .error .improper
    | _ :: cs => .complete <$> readCluster known cs
    | [] => .error .improper

/-- The options and the operands among arguments. Options may follow operands only if that is
said. -/
def readArguments (known : Switches) (mixed : Bool) :
    List String → Except Misuse (List Given × List String)
  | [] => .ok ([], [])
  | arg :: args =>
    if arg = "--" then .ok ([], args)
    else if isOption arg then
      match formOf known arg, args with
      | .error e, _ => .error e
      | .ok (.complete given), args => do
        let (more, operands) ← readArguments known mixed args
        return (given ++ more, operands)
      | .ok (.needsValue name), [] => .error (.missingValue name)
      | .ok (.needsValue name), value :: args => do
        let (more, operands) ← readArguments known mixed args
        return (⟨name, value⟩ :: more, operands)
    else if mixed then do
      let (given, operands) ← readArguments known mixed args
      return (given, arg :: operands)
    else .ok ([], arg :: args)

/-- How often an option was given. -/
def count (given : List Given) (name : String) : Nat :=
  (given.filter fun g => g.name == name).length

/-- The option was given. -/
def has (given : List Given) (name : String) : Bool := given.any fun g => g.name == name

/-- The values of an option in the order in which they were given. -/
def values (given : List Given) (name : String) : List String :=
  (given.filter fun g => g.name == name).map Given.value

/-- The value of an option; the last one counts. -/
def value? (given : List Given) (name : String) : Option String := (values given name).getLast?

end BnfSuppression.CommandLine
