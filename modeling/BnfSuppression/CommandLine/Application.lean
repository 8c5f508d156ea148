import BnfSuppression.CommandLine.Inspection
import BnfSuppression.Diff.Preview

/-!
# The command that suppresses

This command takes an action in the document of a file, and writes the file only if it was told to.
It may show the change as a patch.

## Main definitions

* `CommandLine.Session.patchText`: how a change is shown.
* `CommandLine.Session.suppress`: what the command does.
-/

namespace BnfSuppression.CommandLine

open Files (Host)

/-- The action that a command asks for. -/
def Change.action (c : Change) (check : String) : Action := ⟨check, c.scope, c.suppressible⟩

/-- The patch from one text to another as it is printed. -/
def Session.patchText (s : Session) (before after name : String) : String :=
  let patch := Diff.patch before after name
  if s.colorful then Diff.previewLines s.kit.paint false patch else s.shown (String.join patch)

/-- The text of a grammar after an action for one of its elements. The element needs a container
that the action is for, and the file has to be writable. -/
def applied (settings : Settings) (g : Grammar) (a : Action) (element : ElementId) :
    Except Ending String :=
  let name := a.scope.name
  if (a.container? g.work.forest (some element)).isNone then
    .error (.report .usage
      ("'" ++ a.label ++ "' needs a " ++ name ++ "; select one with --rule/--attr"))
  else match g.work.apply settings a (some element) with
    | .ok w => .ok (g.document.text w.forest)
    | .error (.readOnly name) => .error (.report .noPermission (Fault.readOnly name).message)
    | .error e => .error (.collapse (.edit e))

/-- Suppresses a check for the element that the target names. -/
def Session.suppress (s : Session) (settings : Settings) (h : Host) (t : Target) (c : Change) :
    Except Ending Outcome := do
  let g ← openGrammar h t.path
  let element ← select g t
  let action := c.action t.check
  let text ← applied settings g action element
  let path := t.path.toString
  let check := "'" ++ t.check ++ "'"
  if text = g.document.initial then
    return ⟨h, s.line (path ++ ": " ++ check ++ " is already suppressed for this " ++ c.scope.name),
      "", .exit .success⟩
  let patch := if c.diff then s.patchText g.document.initial text path else ""
  let conclusion (verb : String) : String :=
    s.line (path ++ ": " ++ verb ++ " '" ++ action.label ++ "' for " ++ check)
  if !c.apply then
    return ⟨h, patch ++ conclusion "would apply", "", .exit .wouldChange⟩
  match h.writeText t.path text with
  | .error e =>
    return ⟨h, patch, "", .report .deviceError ("Cannot write " ++ path ++ ": " ++ e.message)⟩
  | .ok h =>
    return ⟨h, patch ++ conclusion "applied", s.logged Log.info ("Wrote " ++ path), .exit .success⟩

end BnfSuppression.CommandLine
