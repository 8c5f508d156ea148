import BnfSuppression.CommandLine.Toolkit
import BnfSuppression.Files.Disk
import BnfSuppression.Terminal.ColorMode
import BnfSuppression.Tree

/-!
# Requests

The arguments of the program say what is asked for: options for the run as a whole, then a command
with options and operands of its own. The options of the run are read first, on their own, as those
of the command are read only once the run is set up.

## Main definitions

* `CommandLine.Options`: the options of a run; `CommandLine.readOptions` reads them.
* `CommandLine.Command`: what is asked for; `CommandLine.readCommand` reads it.
-/

namespace BnfSuppression.CommandLine

open Files (Host Path)

/-! ### Options of a run -/

/-- The options of a run. -/
structure Options where
  verbose : Nat
  quiet : Nat
  color? : Option Terminal.ColorMode
  noColor : Bool
  configFiles : List Path
  noConfig : Bool

/-- What the user asks for as to color. -/
def Options.colorMode (o : Options) : Terminal.ColorMode :=
  if o.noColor then .never else o.color?.getD .auto

/-- The options that ask for help. -/
def helpName : String := "--help"

/-- The options that are known for a run. -/
def runSwitches : Switches where
  valued := ["--color", "--config"]
  bare := ["--verbose", "--quiet", "--no-color", "--no-config", helpName]
  short := [('v', "--verbose"), ('q', "--quiet"), ('h', helpName)]

/-- The text names a directory; the empty text names nothing. -/
def namesDirectory (h : Host) (s : String) : Bool := s != "" && h.isDirectory (Path.ofString s)

/-- The path of a file that a text names; a directory is refused. -/
def filePath (h : Host) (s : String) : Except Misuse Path :=
  if namesDirectory h s then .error .improper else .ok (Path.ofString s)

/-- What was asked for: help, or something to do. -/
inductive Asked (α : Type)
  | help
  | toDo (a : α)

/-- The options of a run, and the command with its arguments. -/
structure Opening where
  options : Options
  rest : List String

/-- Reads the options of a run. -/
def readOptions (kit : Toolkit) (h : Host) (args : List String) :
    Except Misuse (Asked Opening) := do
  let (given, rest) ← kit.readArguments runSwitches false args
  if has given helpName then return .help
  let color? ← (value? given "--color").mapM fun name =>
    (Terminal.ColorMode.ofName? name).elim (.error Misuse.improper) .ok
  let configFiles ← (values given "--config").mapM (filePath h)
  return .toDo ⟨⟨count given "--verbose", count given "--quiet", color?, has given "--no-color",
    configFiles, has given "--no-config"⟩, rest⟩

/-! ### Commands -/

/-- The commands by name. -/
inductive CommandName
  | status
  | actions
  | suppress
  | dumpConfig
  | version
  deriving DecidableEq, Repr

/-- The command of a name. -/
def CommandName.ofString? : String → Option CommandName
  | "status" => some status
  | "actions" => some actions
  | "suppress" => some suppress
  | "dump-config" => some dumpConfig
  | "version" => some version
  | _ => none

/-- The command that the arguments after the options start with, and the arguments after it. If it
is none but looks like an option, the arguments are read as options of the run once more, as that
may say more clearly what is wrong. -/
def readCommandName (kit : Toolkit) (args : List String) :
    Except Misuse (Option (CommandName × List String)) :=
  match args with
  | [] => .ok none
  | name :: args =>
    match CommandName.ofString? name with
    | some command => .ok (some (command, args))
    | none =>
      if name.startsWith "-" then do
        let _ ← kit.readArguments runSwitches false (name :: args)
        throw .improper
      else throw .improper

/-- What a command is about: a file, a check, and perhaps a rule and an attribute. -/
structure Target where
  path : Path
  check : String
  rule? : Option String
  attr? : Option String

/-- What to suppress a check for, and what to do about the change. -/
structure Change where
  scope : NodeKind
  suppressible : scope.suppressible = true
  apply : Bool
  diff : Bool

/-- What is asked for. -/
inductive Command
  | status (t : Target)
  | actions (t : Target)
  | suppress (t : Target) (c : Change)
  | dumpConfig
  | version

/-- The options that are known for a command without operands. -/
def plainSwitches : Switches := ⟨[], [helpName], [('h', helpName)]⟩

/-- The options that are known for a command about a file. -/
def targetSwitches : Switches := { plainSwitches with valued := ["--check", "--rule", "--attr"] }

/-- The options that are known for the command that suppresses. -/
def suppressSwitches : Switches where
  valued := "--scope" :: targetSwitches.valued
  bare := "--apply" :: "--diff" :: targetSwitches.bare
  short := targetSwitches.short

/-- The target that options and operands name. -/
def readTarget (h : Host) (given : List Given) : List String → Except Misuse Target
  | [operand] => do
    let path ← filePath h operand
    match value? given "--check" with
    | some check => return ⟨path, check, value? given "--rule", value? given "--attr"⟩
    | none => throw .improper
  | _ => .error .improper

/-- The container that a name stands for; rules are meant if none is given. -/
def readScope (name? : Option String) :
    Except Misuse { kind : NodeKind // kind.suppressible = true } :=
  match name? with
  | none => .ok ⟨.rule, NodeKind.suppressible_rule⟩
  | some name =>
    match NodeKind.ofName? name with
    | some kind => if h : kind.suppressible = true then .ok ⟨kind, h⟩ else .error .improper
    | none => .error .improper

/-- Reads the arguments of a command that has no operands. -/
def readPlain (kit : Toolkit) (command : Command) (args : List String) :
    Except Misuse (Asked Command) := do
  let (given, operands) ← kit.readArguments plainSwitches true args
  if has given helpName then return .help
  if operands.isEmpty then return .toDo command else throw .improper

/-- Reads the arguments of a command. -/
def readCommand (kit : Toolkit) (h : Host) (name : CommandName) (args : List String) :
    Except Misuse (Asked Command) :=
  match name with
  | .dumpConfig => readPlain kit .dumpConfig args
  | .version => readPlain kit .version args
  | .status | .actions => do
    let (given, operands) ← kit.readArguments targetSwitches true args
    if has given helpName then return .help
    let target ← readTarget h given operands
    return .toDo (if name = .status then .status target else .actions target)
  | .suppress => do
    let (given, operands) ← kit.readArguments suppressSwitches true args
    if has given helpName then return .help
    let ⟨scope, suppressible⟩ ← readScope (value? given "--scope")
    let target ← readTarget h given operands
    return .toDo
      (.suppress target ⟨scope, suppressible, has given "--apply", has given "--diff"⟩)

end BnfSuppression.CommandLine
