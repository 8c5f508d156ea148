import BnfSuppression.Suppression.Coverage

/-!
# Suppressing a check

A check can be suppressed for the rule or the attribute around an element, or for the whole file.
For a rule or an attribute, the check is added to the nearest directive among the comments that
lead it, or a new directive is inserted before it. For a file, a new directive is inserted at the
start.

## Main definitions

* `Action`: a check and the kind of container to suppress it for.
* `Action.offered`: the actions for a check.
* `Workspace.apply`: what an action does.
-/

namespace BnfSuppression

/-- A check to suppress, and the kind of container to suppress it for. Other kinds than those of
containers are excluded from the start. -/
structure Action where
  check : String
  scope : NodeKind
  suppressible : scope.suppressible = true

namespace Action

/-- The action for a check and a kind; only rules, attributes and documents are containers. -/
def make (check : String) (scope : NodeKind) : Except Fault Action :=
  if h : scope.suppressible = true then .ok ⟨check, scope, h⟩ else .error (.noContainer scope)

/-- The actions for a check, in the order in which they are offered. -/
def offered (check : String) : List Action :=
  [⟨check, .rule, NodeKind.suppressible_rule⟩, ⟨check, .attr, NodeKind.suppressible_attr⟩,
    ⟨check, .document, NodeKind.suppressible_document⟩]

/-- How an action is called. -/
def label (a : Action) : String := "Suppress for " ++ a.scope.name

/-- The id that the action writes: that of the check, or its id for files if the container is the
document. -/
def id (a : Action) (s : Settings) : String :=
  if a.scope = .document then s.fileId a.check else a.check

/-- The container of an element that the action is for: the element itself if it is of the kind, or
else the nearest one around it. -/
def container? (a : Action) (f : Forest) (element? : Option ElementId) : Option ElementId :=
  element?.bind (f.enclosing? a.scope)

/-- The action can be taken: there is a container, and its document may be changed. -/
def isAvailable (a : Action) (w : Workspace) (element? : Option ElementId) : Bool :=
  ((a.container? w.forest element?).bind w.ownerOf?).any fun d =>
    w.documents[d]?.any Document.writable

end Action

/-- The nearest of some comments that is a directive, with what it says. Comments that are none may
stand in between. -/
def Forest.nearestDirective? (f : Forest) (verb : String) (comments : List ElementId) :
    Option (ElementId × Directive) :=
  comments.findSome? fun c => (Directive.parse? (f.ownText c) verb).map fun d => (c, d)

namespace Document

/-- Inserts a directive for an id at the start. It does so even if one is there already that lists
the id. -/
def suppressInFile (d : Document) (f : Forest) (s : Settings) (id : String) :
    Except Fault (Forest × Document) := do
  let (f, comment) ← f.addComment (s.comment id)
  d.insertAtStart f comment

/-- Adds an id to the nearest directive that leads a container, unless it lists the id already;
without a directive there, inserts one. -/
def suppressBefore (d : Document) (f : Forest) (s : Settings) (id : String)
    (container : ElementId) : Except Fault (Forest × Document) :=
  let w := f.leadingComments .beforeNode container
  match f.nearestDirective? s.verb w.run with
  | some (comment, directive) =>
    if directive.ids.contains id then .ok (f, d)
    else d.replaceComment f comment ((directive.withId id).render s.marker)
  | none => do
    f.faultOf w.stop
    let (f, comment) ← f.addComment (s.comment id)
    d.insertBefore f comment container

end Document

/-- Takes an action for an element. Nothing happens if the element has no container of the kind, or
the container belongs to no document. -/
def Workspace.apply (w : Workspace) (s : Settings) (a : Action) (element? : Option ElementId) :
    Except Fault Workspace :=
  match a.container? w.forest element? with
  | none => .ok w
  | some container =>
    match w.ownerOf? container with
    | none => .ok w
    | some id => w.edit id fun d f =>
      if !d.writable then .error (.readOnly d.name)
      else if a.scope = .document then d.suppressInFile f s (a.id s)
      else d.suppressBefore f s (a.id s) container

end BnfSuppression
