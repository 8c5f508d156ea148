import BnfSuppression.CommandLine.Application

/-!
# Runs of the program

A run reads the options, settles verbosity, log and color, loads the configuration, and then reads
and follows the command. Each of these can end it.

## Main definitions

* `CommandLine.Environment`: what a run takes from its environment.
* `CommandLine.run`: a run of the program.
-/

namespace BnfSuppression.CommandLine

open Files (Host)

/-- What a run takes from its environment. -/
structure Environment where
  logLevel? : Option String
  forceColor? : Option String
  noColor? : Option String
  /-- The output goes to a terminal. -/
  isTerminal : Bool

/-- How the program is used. -/
def usageText : String :=
  "Usage: quietmark [OPTIONS] [COMMAND] [ARGS]...\n\n" ++
  "  Suppress checks for the rules and attributes of BNF grammars by comments.\n\n" ++
  "Options:\n" ++
  "  -v, --verbose  Say more; give it again for a more detailed log.\n" ++
  "  -q, --quiet    Say only what failed.\n" ++
  "  --color MODE   Color the output: auto, always or never.\n" ++
  "  --no-color     The same as --color never.\n" ++
  "  --config FILE  Read a further configuration file; may be repeated.\n" ++
  "  --no-config    Look for no configuration files.\n\n" ++
  "Commands:\n" ++
  "  status FILE --check ID [--rule NAME] [--attr NAME]\n" ++
  "  actions FILE --check ID [--rule NAME] [--attr NAME]\n" ++
  "  suppress FILE --check ID [--rule NAME] [--attr NAME]\n" ++
  "           [--scope rule|attribute|file] [--apply] [--diff]\n" ++
  "  dump-config\n" ++
  "  version\n"

/-- The outcome of a run that was asked for help. -/
def helpOutcome (h : Host) : Outcome := ⟨h, usageText, "", .exit .success⟩

/-- Settles verbosity, log and color. -/
def settle (kit : Toolkit) (env : Environment) (o : Options) : Except Ending Session :=
  match resolveVerbosity o.verbose o.quiet with
  | none => .error (.report .usage bothMessage)
  | some verbosity => do
    let log ← (setupLog verbosity env.logLevel?).mapError fun e => .collapse (.logLevel e)
    return ⟨kit, verbosity, log.level,
      Terminal.isColorful o.colorMode env.forceColor? env.noColor? env.isTerminal⟩

/-- Follows a command. -/
def Session.follow (s : Session) (c : Configuration) (h : Host) :
    Command → Except Ending Outcome
  | .status t => s.status c.settings h t
  | .actions t => s.actions h t
  | .suppress t change => s.suppress c.settings h t change
  | .dumpConfig => .ok (s.configuration c h)
  | .version => .ok (s.version h)

/-- Reads and follows the command, if there is one. -/
def Session.command (s : Session) (c : Configuration) (h : Host)
    (command? : Option (CommandName × List String)) : Outcome :=
  match command? with
  | none => s.hint h
  | some (name, args) =>
    match readCommand s.kit h name args with
    | .error m => .ofEnding h m.ending
    | .ok .help => helpOutcome h
    | .ok (.toDo command) =>
      match s.follow c h command with
      | .ok o => o
      | .error e => .ofEnding h e

/-- Loads the configuration and goes on with the command. -/
def Session.start (s : Session) (h : Host) (o : Options)
    (command? : Option (CommandName × List String)) : Outcome :=
  let start? := if o.noConfig then none else some (Files.Path.ofPlace h.here)
  match loadMerged s.kit.toml h start? o.configFiles with
  | (l, some e) => (Outcome.ofEnding h (loadEnding e)).after (s.loggedDiagnostics l.diagnostics)
  | (l, none) =>
    let c := l.freeze
    (s.command c h command?).after (s.loggedDiagnostics c.diagnostics)

/-- A run of the program. -/
def run (kit : Toolkit) (h : Host) (env : Environment) (args : List String) : Outcome :=
  let plain (e : Ending) : Outcome := (Outcome.ofEnding h e).reported id
  match readOptions kit h args with
  | .error m => plain m.ending
  | .ok .help => helpOutcome h
  | .ok (.toDo opening) =>
    match readCommandName kit opening.rest with
    | .error m => plain m.ending
    | .ok command? =>
      match settle kit env opening.options with
      | .error e => plain e
      | .ok s => (s.start h opening.options command?).reported s.shown

end BnfSuppression.CommandLine
