import BnfSuppression.CommandLine.Outcome
import BnfSuppression.CommandLine.Request
import BnfSuppression.Workspace

/-!
# What a command is about

A command is about a grammar file, and in it about a rule, an attribute, or the whole document.

## Main definitions

* `CommandLine.openGrammar`: a workspace with the document of a file.
* `CommandLine.select`: the element that a target names.
-/

namespace BnfSuppression.CommandLine

open Files (Host Path)

/-- A document in a workspace of its own. -/
structure Grammar where
  work : Workspace
  document : Document

/-- The workspace of a text from a file. -/
def Grammar.ofText (text name : String) (writable : Bool) : Grammar :=
  let (forest, document) := Document.open .empty text name writable
  ⟨⟨forest, #[document]⟩, document⟩

/-- Opens a grammar file. -/
def openGrammar (h : Host) (p : Path) : Except Ending Grammar :=
  let name := p.toString
  match h.hasEntry p with
  | .error t => .error (.collapse (.lookup t))
  | .ok false => .error (.report .noInput ("No such file: " ++ name))
  | .ok true => match h.readText p with
    | .error (.encoding e) =>
      .error (.report .dataError ("Cannot decode " ++ name ++ " as UTF-8: " ++ e.message))
    | .error (.trouble e) =>
      .error (.report .deviceError ("Cannot read " ++ name ++ ": " ++ e.message))
    | .ok text => .ok (.ofText text name (h.isWritable p))

/-- The rule that a target names, if it names one. -/
def selectRule (g : Grammar) (t : Target) : Except Ending (Option ElementId) :=
  match t.rule? with
  | none => .ok none
  | some name =>
    match g.document.findRule? g.work.forest name with
    | some rule => .ok (some rule)
    | none =>
      .error (.report .usage ("No rule named '" ++ name ++ "' in " ++ g.document.name))

/-- Where a target's attribute is looked for. -/
def Target.surroundings (t : Target) : String :=
  match t.rule? with
  | none | some "" => "the global attributes"
  | some name => "rule '" ++ name ++ "'"

/-- The element that a target names: an attribute, else a rule, else the whole document. -/
def select (g : Grammar) (t : Target) : Except Ending ElementId := do
  let rule? ← selectRule g t
  match t.attr? with
  | none => return rule?.getD g.document.root
  | some name =>
    match g.document.findAttr? g.work.forest name rule? with
    | some attr => return attr
    | none =>
      throw (.report .usage ("No attribute '" ++ name ++ "' in " ++ t.surroundings ++ " of " ++
        g.document.name))

/-- The target names an element in the document. -/
def Target.isSpecific (t : Target) : Bool := t.rule?.isSome || t.attr?.isSome

end BnfSuppression.CommandLine
