import BnfSuppression.Terminal.Style
import BnfSuppression.Text.Capital
import BnfSuppression.Text.Digit
import BnfSuppression.Text.Quoted

/-!
# Logging

Log records have a level, a number that grows with importance. A logger writes the records of its
own level and above, in a color that tells the level. The environment may name the level or give its
number. A level of zero counts as none, which leaves the highest.

## Main definitions

* `Log.Record`, `Log.write`: records, and what a logger writes of them.
* `Log.environmentLevel`: the level that the environment asks for.
* `Log.setup`: the level and the format of the program's log.
-/

namespace BnfSuppression.Log

/-- The importance of a record. -/
abbrev Level := Int

def trace : Level := 5
def debug : Level := 10
def info : Level := 20
def warning : Level := 30
def error : Level := 40
def critical : Level := 50

/-- The names of levels, in writing. -/
def names : List (Level × String) :=
  [(trace, "TRACE"), (debug, "DEBUG"), (info, "INFO"), (warning, "WARNING"), (error, "ERROR"),
    (critical, "CRITICAL")]

/-- The name of a level. -/
def Level.name (level : Level) : String := (names.lookup level).getD ("Level " ++ toString level)

/-- The styles of a level's records: those of the greatest named level not above it. -/
def Level.styles (level : Level) : List Terminal.Style :=
  if level ≥ critical then [.brightRed]
  else if level ≥ error then [.red]
  else if level ≥ warning then [.yellow]
  else if level ≥ info then [.green]
  else if level ≥ debug then [.gray]
  else if level ≥ trace then [.blue]
  else [.dim, .red]

/-! ### Records -/

/-- A message to be logged. If there are arguments, they fill the places marked `%s` in the
message. -/
structure Record where
  level : Level
  message : String
  arguments : List String

/-- Fills the places of a message: each `%s` takes an argument, and `%%` is a percent sign. There is
no other sign, and the arguments have to fit. -/
def fill : List Char → List String → Option (List Char)
  | [], [] => some []
  | [], _ :: _ => none
  | '%' :: 's' :: cs, arg :: args => (fill cs args).map (arg.toList ++ ·)
  | '%' :: '%' :: cs, args => (fill cs args).map ('%' :: ·)
  | c :: cs, args => if c = '%' then none else (fill cs args).map (c :: ·)

/-- The message of a record with its arguments. -/
def Record.text? (r : Record) : Option String :=
  if r.arguments.isEmpty then some r.message
  else (fill r.message.toList r.arguments).map String.ofList

/-- A record as it is written by a painter. -/
def line (paint : Terminal.Painter) (level : Level) (message : String) : String :=
  paint level.styles ("[" ++ level.name ++ "] " ++ message) ++ "\n"

/-- A logger writes the records of its own level and above; one without a level writes those of the
highest level and above. Levels up to zero are never written. -/
def isEnabled (threshold level : Level) : Bool :=
  (if threshold = 0 then critical else threshold) ≤ level && 0 < level

/-- What a logger writes of a record. A record whose arguments do not fit is lost. -/
def Record.write (paint : Terminal.Painter) (threshold : Level) (r : Record) : String :=
  if isEnabled threshold r.level then ((r.text?).map (line paint r.level)).getD "" else ""

/-- What a logger writes of some records. -/
def write (paint : Terminal.Painter) (threshold : Level) (records : List Record) : String :=
  String.join (records.map (Record.write paint threshold))

/-! ### Choosing the level -/

/-- The words that the environment may name a level by. -/
def words : List (String × Level) :=
  [("TRACE", trace), ("DEBUG", debug), ("INFO", info), ("WARNING", warning), ("WARN", warning),
    ("ERROR", error), ("CRITICAL", critical), ("FATAL", critical), ("NOTSET", 0)]

/-- The level that the environment asks for, by a name or a number; anything else asks for none. A
number is recognized by its characters, all of which are digits of some kind. -/
def environmentLevel (value? : Option String) : Except Text.IntegerError (Option Level) :=
  match value? with
  | none => .ok none
  | some value =>
    let word := Text.capitals (Text.strip value.toList)
    if !word.isEmpty && word.all Text.isDigitLike then (Text.readInteger 10 word).map some
    else .ok (words.lookup (String.ofList word))

/-- How many characters of a quoted text, the quotes among them, a message shows. -/
def shownCharacters : Nat := 200

/-- The message of a number that cannot be read. -/
def numberMessage : Text.IntegerError → String
  | .malformed text base =>
    "invalid literal for int() with base " ++ toString base ++ ": " ++
      String.ofList ((Text.quote text).toList.take shownCharacters)
  | .tooLong digits =>
    "Exceeds the limit (" ++ toString Text.maxDecimalDigits ++
      " digits) for integer string conversion: value has " ++ toString digits ++
      " digits; use sys.set_int_max_str_digits() to increase the limit"

/-- The first of two levels that is set and not zero. -/
def orElse (level? : Option Level) (other : Option Level) : Option Level :=
  match level? with
  | some level => if level = 0 then other else some level
  | none => other

/-- The program's log. -/
structure Setup where
  level : Level
  /-- Records show where in the program they were made. -/
  detailed : Bool
  deriving Repr, DecidableEq

/-- The log of a level: records show where they were made if some of the least important are
written. -/
def Setup.ofLevel (level : Level) : Setup := ⟨level, level < info⟩

/-- The log for a requested level; if none is requested, the environment's, and if that asks for
none, the highest. -/
def setup (level? : Option Level) (environment? : Option String) :
    Except Text.IntegerError Setup :=
  match level? with
  | some level => .ok (.ofLevel level)
  | none => return .ofLevel ((orElse (← environmentLevel environment?) none).getD critical)

/-- The pattern of the records of a log. -/
def Setup.format (s : Setup) : String :=
  if s.detailed then "[%(levelname)s] [%(filename)s:%(lineno)d] [%(funcName)s] %(message)s"
  else "[%(levelname)s] %(message)s"

end BnfSuppression.Log
