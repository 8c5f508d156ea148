import BnfSuppression.Log

/-!
# Verbosity

How much the program says depends on how often it was told to be verbose or quiet; both together
make no sense. The more verbose levels also lower the level of the log, unless the environment asks
for one.

## Main definitions

* `resolveVerbosity`: minus one if quiet, else how often verbosity was asked for.
* `logLevelFor`: the log level of a verbosity.
-/

namespace BnfSuppression.CommandLine

/-- How much the program says: minus one if quiet, zero as a rule. -/
abbrev Verbosity := Int

/-- The message for a program told to be both verbose and quiet. -/
def bothMessage : String := "The '--verbose' and '--quiet' options are mutually exclusive."

/-- The verbosity for the numbers of times that verbosity and quiet were asked for, unless both
were. -/
def resolveVerbosity (verbose quiet : Int) : Option Verbosity :=
  if verbose > 0 && quiet > 0 then none
  else if quiet > 0 then some (-1)
  else some verbose

/-- The log level that a verbosity asks for. -/
def logLevelFor (verbosity : Verbosity) : Option Log.Level :=
  if verbosity ≥ 3 then some Log.trace
  else if verbosity = 2 then some Log.debug
  else none

/-- The log of a run: the environment's level, unless it is zero, wins over that of the
verbosity. -/
def setupLog (verbosity : Verbosity) (environment? : Option String) :
    Except Text.IntegerError Log.Setup := do
  let level? := Log.orElse (← Log.environmentLevel environment?) (logLevelFor verbosity)
  Log.setup level? environment?

end BnfSuppression.CommandLine
