import BnfSuppression.Document

/-!
# Workspaces

Several documents share one forest. An element belongs to the document whose root is the outermost
element around it, or to none.

## Main definitions

* `Workspace`: documents over a forest.
* `Workspace.ownerOf?`: the document of an element.
* `Workspace.edit`: editing one of the documents.
-/

namespace BnfSuppression

/-- The name of a document in a workspace. -/
abbrev DocumentId := Nat

/-- Documents over one forest. What was created for one document, or removed from it, stays in the
forest and can be handed to another. -/
structure Workspace where
  forest : Forest
  documents : Array Document
  deriving Repr

namespace Workspace

/-- The workspace without documents. -/
def empty : Workspace := ⟨.empty, #[]⟩

/-- The workspace with one more document. -/
def «open» (w : Workspace) (text name : String) (writable : Bool) : Workspace :=
  let (forest, document) := Document.open w.forest text name writable
  ⟨forest, w.documents.push document⟩

/-- The document of an element: the one at whose root the way up from the element ends. An element
that stands nowhere has none. -/
def ownerOf? (w : Workspace) (id : ElementId) : Option DocumentId :=
  w.documents.findIdx? fun d => d.root == w.forest.top id

/-- The text of a document. -/
def text (w : Workspace) (id : DocumentId) : String :=
  (w.documents[id]?.map fun d => d.text w.forest).getD ""

/-- The line on which an element starts; an element of no document is on line one. -/
def lineOf (w : Workspace) (id : ElementId) : Except Fault Nat :=
  match w.ownerOf? id with
  | none => .ok 1
  | some d => return Text.lineAt (w.text d).toList (← w.forest.offset id)

/-- Changes one of the documents, and the forest with it; nothing happens if there is no such
document. -/
def edit (w : Workspace) (id : DocumentId)
    (change : Document → Forest → Except Fault (Forest × Document)) : Except Fault Workspace :=
  match w.documents[id]? with
  | none => .ok w
  | some d => do
    let (forest, d) ← change d w.forest
    return ⟨forest, w.documents.setIfInBounds id d⟩

/-- Takes back the latest edit of a document, if there is one. -/
def undo (w : Workspace) (id : DocumentId) : Option Workspace := do
  let (forest, d) ← (← w.documents[id]?).undo w.forest
  return ⟨forest, w.documents.setIfInBounds id d⟩

/-- Allows or forbids edits of a document; neither its text nor its history changes. -/
def setWritable (w : Workspace) (id : DocumentId) (writable : Bool) : Workspace :=
  { w with documents := w.documents.modify id fun d => { d with writable } }

end Workspace

end BnfSuppression
