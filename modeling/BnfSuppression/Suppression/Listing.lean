import BnfSuppression.Suppression.Coverage

/-!
# Status listings

A status listing shows for every element that can be suppressed which checks are: the document,
the attributes outside rules, then every rule followed by its attributes.

## Main definitions

* `Document.suppressible`: the elements of the listing.
* `Workspace.statusRows`: the listing.
-/

namespace BnfSuppression

/-- The elements of a document that can be suppressed, as a listing shows them: the document, the
attributes outside rules, then each rule with its attributes. -/
def Document.suppressible (d : Document) (f : Forest) : List ElementId :=
  d.root :: d.globalAttrs f ++ (d.rules f).flatMap fun r => r :: f.composites .attr r

/-- A row of a status listing: an element, how it is described, and for each check whether it is
suppressed. -/
structure StatusRow where
  description : String
  suppressed : List Bool
  deriving Repr, DecidableEq

namespace Workspace

/-- How a listing describes an element: a document by its kind alone, any other also by its name and
line. -/
def describe (w : Workspace) (id : ElementId) : Except Fault String :=
  let kind := w.forest.kind id
  if kind = .document then .ok kind.name
  else return kind.name ++ " " ++ (w.forest.name? id).getD "?" ++ " (line " ++
    toString (← w.lineOf id) ++ ")"

/-- The row of an element. -/
def statusRow (w : Workspace) (s : Settings) (checks : List String) (id : ElementId) :
    Except Fault StatusRow := do
  let suppressed ← checks.mapM fun check => w.isSuppressed s id check
  return ⟨← w.describe id, suppressed⟩

/-- The listing of a document. -/
def statusRows (w : Workspace) (s : Settings) (checks : List String) (document : DocumentId) :
    Except Fault (List StatusRow) :=
  match w.documents[document]? with
  | none => .ok []
  | some d => (d.suppressible w.forest).mapM (w.statusRow s checks)

end Workspace

end BnfSuppression
