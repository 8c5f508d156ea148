import BnfSuppression.CommandLine.Selection
import BnfSuppression.Suppression.Action
import BnfSuppression.Suppression.Listing

/-!
# Commands that only tell

These commands change nothing: they tell which elements of a grammar a check is suppressed for,
which actions are offered, what the configuration is, and which version the program has.

## Main definitions

* `CommandLine.Session.status`, `CommandLine.Session.actions`,
  `CommandLine.Session.configuration`, `CommandLine.Session.version`: what the commands print.
-/

namespace BnfSuppression.CommandLine

open Files (Host)

/-- The version of the program. -/
def version : String := "0.1.0"

/-- The number of the code for bold text. -/
def bold : Nat := 1

/-- The number of the code for faint text. -/
def faint : Nat := 2

/-- The number of the code for underlined text. -/
def underlined : Nat := 4

/-- The number of the code for text that draws attention. -/
def striking : Nat := 33

/-- A failure of an edit or a walk breaks the run off. -/
def orCollapse (r : Except Fault α) : Except Ending α := r.mapError fun e => .collapse (.edit e)

/-- The text filled up with spaces to a width. -/
def padded (width : Nat) (text : String) : String :=
  text ++ String.ofList (List.replicate (width - text.length) ' ')

namespace Session

/-! ### Status -/

/-- The line of one element that was asked for. -/
def statusLine (s : Session) (description : String) (suppressed : Bool) : String :=
  s.line (description ++ ": " ++ (if suppressed then "suppressed" else "active"))

/-- The line of an element in a listing. -/
def listingLine (s : Session) (description : String) (suppressed : Bool) : String :=
  s.line (description ++ ": " ++
    (if suppressed then s.emphasize [striking] "suppressed" else "active"))

/-- Tells whether a check is suppressed: for the element that the target names, also by the exit
code, or for all elements. -/
def status (s : Session) (settings : Settings) (h : Host) (t : Target) : Except Ending Outcome := do
  let g ← openGrammar h t.path
  let w := g.work
  if t.isSpecific then
    let element ← select g t
    let suppressed ← orCollapse (w.isSuppressed settings element t.check)
    let description ← orCollapse (w.describe element)
    return ⟨h, if s.verbosity ≥ 0 then s.statusLine description suppressed else "", "",
      .exit (if suppressed then .success else .failure)⟩
  else
    let lines ← (g.document.suppressible w.forest).mapM fun element => orCollapse do
      let suppressed ← w.isSuppressed settings element t.check
      return s.listingLine (← w.describe element) suppressed
    return ⟨h, String.join lines, "", .exit .success⟩

/-! ### Actions -/

/-- The line of an action. -/
def actionLine (s : Session) (a : Action) (available : Bool) : String :=
  let text := padded 10 a.scope.name ++ " " ++ a.label
  s.line (if available then text else s.emphasize [faint] (text ++ " (n/a)"))

/-- Tells which actions are offered for the element that the target names. -/
def actions (s : Session) (h : Host) (t : Target) : Except Ending Outcome := do
  let g ← openGrammar h t.path
  let element ← select g t
  let lines := (Action.offered t.check).map fun a =>
    s.actionLine a (a.isAvailable g.work (some element))
  return ⟨h, String.join lines, "", .exit .success⟩

/-! ### The program -/

/-- The lines that tell where the settings come from. -/
def sourceLines (s : Session) (sources : List String) : String :=
  s.line "" ++ String.join (sources.map fun source => s.line ("# source: " ++ source))

/-- A diagnostic as a warning. -/
def warning (s : Session) (d : Diagnostic) : String :=
  s.shown (Terminal.emphasize [striking] ("[config] " ++ d.message) ++ "\n")

/-- Tells what the configuration is, as a configuration file. -/
def configuration (s : Session) (c : Configuration) (h : Host) : Outcome where
  host := h
  out := s.shown (c.settings.toToml s.kit.toml) ++
    (if s.verbosity > 0 then s.sourceLines c.sources else "")
  err := String.join (c.diagnostics.map s.warning)
  ending := .exit .success

/-- Tells the version of the program. -/
def version (s : Session) (h : Host) : Outcome :=
  let number := s.emphasize [bold] CommandLine.version
  let text :=
    if s.verbosity > 0 then
      s.line (s.emphasize [bold, underlined] "Quietmark version:") ++ s.line ("    " ++ number)
    else s.line number
  ⟨h, text, "", .exit .success⟩

/-- Tells how to go on when no command was given. -/
def hint (s : Session) (h : Host) : Outcome :=
  ⟨h, s.line "Hint: use 'quietmark status FILE --check ID' to inspect suppressions.", "",
    .exit .success⟩

end Session

end BnfSuppression.CommandLine
