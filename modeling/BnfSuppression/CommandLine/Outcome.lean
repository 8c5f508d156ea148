import BnfSuppression.CommandLine.Toolkit
import BnfSuppression.CommandLine.Verbosity
import BnfSuppression.Document
import BnfSuppression.Settings.Source

/-!
# Outcomes

A run of the program prints texts, may change a file, and ends with an exit code. What is printed
loses its codes unless the run is in color. A failure that the program expects is reported by a
message and an exit code of its own; any other failure breaks the run off.

## Main definitions

* `CommandLine.ExitCode`: the exit codes.
* `CommandLine.Ending`, `CommandLine.Outcome`: how a run ends, and all that it does.
* `CommandLine.Session`: what is settled for a run before its command starts.
-/

namespace BnfSuppression.CommandLine

open Files (Host)

/-! ### Endings -/

/-- The exit codes. -/
inductive ExitCode
  | success
  | failure
  /-- A file would be changed. -/
  | wouldChange
  /-- The arguments cannot be read. -/
  | misuse
  /-- The arguments name something that is not there, or contradict each other. -/
  | usage
  /-- A file holds no text. -/
  | dataError
  | noInput
  /-- A file cannot be read or written. -/
  | deviceError
  | noPermission
  | configuration
  deriving DecidableEq, Repr

/-- The number of an exit code. -/
def ExitCode.number : ExitCode → Nat
  | success => 0
  | failure => 1
  | wouldChange | misuse => 2
  | usage => 64
  | dataError => 65
  | noInput => 66
  | deviceError => 74
  | noPermission => 77
  | configuration => 78

/-- What breaks a run off. -/
inductive Collapse
  /-- The log level in the environment is no number that can be read. -/
  | logLevel (e : Text.IntegerError)
  | configuration (e : LoadFailure)
  /-- It cannot be told whether a file is there. -/
  | lookup (t : Files.Trouble)
  | edit (e : Fault)

/-- The message of what breaks a run off. -/
def Collapse.message : Collapse → String
  | logLevel e => Log.numberMessage e
  | configuration e => e.message
  | lookup t => t.message
  | edit e => e.message

/-- How a run ends. -/
inductive Ending
  | exit (code : ExitCode)
  /-- A failure is reported. -/
  | report (code : ExitCode) (message : String)
  /-- The arguments make no sense, and the user is shown how the program is used. -/
  | misuse
  | collapse (cause : Collapse)

/-- The ending for arguments that cannot be read. -/
def Misuse.ending (m : Misuse) : Ending :=
  m.message?.elim .misuse (.report .misuse)

/-- The ending for a configuration that cannot be loaded. -/
def loadEnding (e : LoadFailure) : Ending :=
  if e.isReported then .report .configuration e.message else .collapse (.configuration e)

/-- The exit code that a run ends with. -/
def Ending.number : Ending → Nat
  | exit code | report code _ => code.number
  | misuse => ExitCode.misuse.number
  | collapse _ => ExitCode.failure.number

/-- All that a run does: the texts that it prints, the files as they are afterwards, and how it
ends. -/
structure Outcome where
  host : Host
  out : String
  err : String
  ending : Ending

/-- The outcome of a run that only ends. -/
def Outcome.ofEnding (h : Host) (e : Ending) : Outcome := ⟨h, "", "", e⟩

/-- The outcome with a text before its errors. -/
def Outcome.after (text : String) (o : Outcome) : Outcome := { o with err := text ++ o.err }

/-! ### Sessions -/

/-- What is settled for a run before its command starts. -/
structure Session where
  kit : Toolkit
  verbosity : Verbosity
  log : Log.Level
  colorful : Bool

namespace Session

/-- A text as it is printed: without color, it loses its codes. -/
def shown (s : Session) (text : String) : String :=
  if s.colorful then text else s.kit.dropCodes text

/-- A line as it is printed. -/
def line (s : Session) (text : String) : String := s.shown (text ++ "\n")

/-- A text behind the codes of some numbers, if the run is in color. -/
def emphasize (s : Session) (numbers : List Nat) (text : String) : String :=
  if s.colorful then Terminal.emphasize numbers text else text

/-- What the log shows of a message. -/
def logged (s : Session) (level : Log.Level) (message : String) : String :=
  if Log.isEnabled s.log level then Log.line s.kit.paint level message else ""

/-- What the log shows of a diagnostic. -/
def loggedDiagnostic (s : Session) (d : Diagnostic) : String :=
  match d with
  | .notATable => ""
  | .unknownKey _ => s.logged Log.info d.message
  | .notText _ _ | .rejected _ _ => s.logged Log.warning d.message

/-- What the log shows of diagnostics. -/
def loggedDiagnostics (s : Session) (ds : List Diagnostic) : String :=
  String.join (ds.map s.loggedDiagnostic)

end Session

/-- A failure as it is reported. -/
def reportLine (message : String) : String := "Error: " ++ message ++ "\n"

/-- The outcome with the report of its failure among its errors. -/
def Outcome.reported (shown : String → String) (o : Outcome) : Outcome :=
  match o.ending with
  | .report _ message => { o with err := o.err ++ shown (reportLine message) }
  | .exit _ | .misuse | .collapse _ => o

end BnfSuppression.CommandLine
