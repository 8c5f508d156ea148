import BnfSuppression.Forest.Navigation
import BnfSuppression.Token.Lexer
import BnfSuppression.Tree.Parser

/-!
# Documents and their edits

A document is a tree of a forest with a name and a history of edits. Edits change the tree in
place: it is never read again, and elements keep their ids. Every edit puts comments among the
children of one composite, and is recorded with what undoing it needs; undoing is the same change
with the removed and the inserted elements exchanged.

An edit that fails leaves everything as it was, since it then has no result.

## Main definitions

* `Edit`, `Document`: what is recorded, and the document.
* `Fault`: the causes of failures, with their messages.
* `Document.insertBefore`, `Document.insertAtStart`, `Document.replaceComment`,
  `Document.undo`: the edits.
-/

namespace BnfSuppression

/-- A change of the children of a composite: at a place, elements were replaced by others. -/
structure Edit where
  parent : ElementId
  index : Nat
  removed : List ElementId
  inserted : List ElementId
  deriving Repr, DecidableEq

/-- The change that takes an edit back: what was removed stands in its place again, and what was
inserted is taken out. -/
def Edit.inverse (e : Edit) : Edit := { e with removed := e.inserted, inserted := e.removed }

/-- Makes the change in a forest. The composite is looked up by its id, so an edit can be made
wherever its composite stands by then. -/
def Edit.run (e : Edit) (f : Forest) : Forest := f.splice e.parent e.index e.removed e.inserted

/-- An editable document. -/
structure Document where
  name : String
  writable : Bool
  /-- The text that the document was opened with. -/
  initial : String
  root : ElementId
  /-- The edits that were not undone, the latest first. -/
  history : List Edit
  deriving Repr

/-- Why a request on documents fails. -/
inductive Fault
  /-- A suppression for a document that must not be changed. -/
  | readOnly (document : String)
  /-- An edit of a document that must not be changed. -/
  | locked (document : String)
  /-- There is no place before an element without a parent. -/
  | atRoot (document : String)
  /-- The element to be replaced is no comment of the document. -/
  | notItsComment (element document : String)
  /-- The text is not one line comment. -/
  | notOneComment (text : String)
  /-- The element is not among the children of the other. -/
  | notAChild (element parent : String)
  /-- Elements of this kind have no container of their own kind to suppress a check for. -/
  | noContainer (kind : NodeKind)
  /-- The document belongs to no file. -/
  | noPath (document : String)
  deriving Repr, DecidableEq

/-- The name that messages use for a kind. -/
def NodeKind.label : NodeKind → String
  | rule => "RULE"
  | attr => "ATTRIBUTE"
  | document => "DOCUMENT"
  | other => "OTHER"

/-- The message of a failure. -/
def Fault.message : Fault → String
  | readOnly name | locked name => "Document is not writable: " ++ name
  | atRoot name => "Cannot insert before the document root of " ++ name
  | notItsComment element name => element ++ " is not a comment of " ++ name
  | notOneComment text => "Not a single BNF line comment: " ++ Text.quote text
  | notAChild element parent => element ++ " is not a child of " ++ parent
  | noContainer kind =>
    "No suppression container for node kind <NodeKind." ++ kind.label ++ ": '" ++ kind.name ++ "'>"
  | noPath name => "No path to save " ++ name ++ " to"

namespace Forest

/-- The place of an element among the children of another. -/
def indexOf (f : Forest) (parent child : ElementId) : Except Fault Nat :=
  match (f.children parent).idxOf? child with
  | some index => .ok index
  | none => .error (.notAChild (f.describe child) (f.describe parent))

/-- The failure that a step stands for, if any. -/
def faultOf (f : Forest) : Step → Except Fault Unit
  | .stray child parent => .error (.notAChild (f.describe child) (f.describe parent))
  | .leaf _ | .edge => .ok ()

/-- The leaf that a step leads to. -/
def arrival (f : Forest) : Step → Except Fault (Option ElementId)
  | .leaf id => .ok (some id)
  | .edge => .ok none
  | .stray child parent => .error (.notAChild (f.describe child) (f.describe parent))

/-- The leaves of a walk, unless it came to an element that its parent does not list. -/
def visited (f : Forest) (w : Walk) : Except Fault (List ElementId) := do
  f.faultOf w.stop
  return w.run

/-- Where an element's text starts in the text of its tree; an element without leaves starts where
the leaf before it ends. -/
def offset (f : Forest) (id : ElementId) : Except Fault Nat := do
  return f.length (← f.visited (f.before id))

/-- A new line comment, which has no parent yet. The text has to be read as one line comment and
nothing else; a line break in it, or no marker, makes it a failure. -/
def addComment (f : Forest) (text : String) : Except Fault (Forest × ElementId) :=
  match tokenize text with
  | [t] => if t.type == .lineComment then .ok (f.addLeaf t) else .error (.notOneComment text)
  | _ => .error (.notOneComment text)

/-! ### Indentation -/

/-- The text after the last line feed, or all of it. -/
def afterLineFeed (cs : List Char) : List Char := (cs.reverse.takeWhile (· != '\n')).reverse

/-- The text between the start of an element's line and the element, given the walk back over the
leaves without a line feed. -/
def linePrefix (f : Forest) (w : Walk) : List Char :=
  let start := match w.stop with
    | .leaf id => afterLineFeed (f.ownText id).toList
    | .edge | .stray _ _ => []
  start ++ w.run.reverse.flatMap fun id => (f.ownText id).toList

/-- The blanks between the start of an element's line and the element; none if other text stands
there. -/
def indentation (f : Forest) (anchor : ElementId) : Except Fault String := do
  let w := f.walkWhile .backward (fun id => !(f.ownText id).toList.contains '\n')
    (f.step .backward anchor)
  f.faultOf w.stop
  let text := f.linePrefix w
  return if text.all Text.isBlank then String.ofList text else ""

end Forest

namespace Document

/-- The language that documents are written in. -/
def language : String := "BNF"

/-- The text as it is now. -/
def text (d : Document) (f : Forest) : String := f.text d.root

/-- The text is not the one that the document was opened with. -/
def modified (d : Document) (f : Forest) : Bool := d.text f != d.initial

/-- The document that belongs to a text. -/
def «open» (f : Forest) (text name : String) (writable : Bool) : Forest × Document :=
  let (f, root) := f.plant (Tree.parse text)
  (f, ⟨name, writable, text, root, []⟩)

/-! ### Asking -/

/-- The leaves in the order of the text. -/
def leaves (d : Document) (f : Forest) : List ElementId := f.leaves d.root

/-- The comments in the order of the text. -/
def comments (d : Document) (f : Forest) : List ElementId := (d.leaves f).filter f.isComment

/-- The rules in the order of the text. -/
def rules (d : Document) (f : Forest) : List ElementId := f.composites .rule d.root

/-- The attributes of the attribute blocks that stand outside rules. Only blocks that the file
itself holds count; those of rules are found through their rules. -/
def globalAttrs (d : Document) (f : Forest) : List ElementId :=
  ((f.children d.root).filter fun c => f.type? c == some .attrs).flatMap (f.composites .attr)

/-- The attributes in an element, or those outside rules. -/
def attrs (d : Document) (f : Forest) : Option ElementId → List ElementId
  | some id => f.composites .attr id
  | none => d.globalAttrs f

/-- The first rule of a name. -/
def findRule? (d : Document) (f : Forest) (name : String) : Option ElementId :=
  (d.rules f).find? fun r => f.name? r == some name

/-- The first attribute of a name, in an element or outside rules. -/
def findAttr? (d : Document) (f : Forest) (name : String) (rule? : Option ElementId) :
    Option ElementId :=
  (d.attrs f rule?).find? fun a => f.name? a == some name

/-! ### Editing -/

/-- Makes and records an edit. This is where it is asked whether the document may be changed, after
all that the edit needs was made. -/
def edit (d : Document) (f : Forest) (e : Edit) : Except Fault (Forest × Document) :=
  if d.writable then .ok (e.run f, { d with history := e :: d.history })
  else .error (.locked d.name)

/-- Inserts an element and a line break before an anchor, which keeps its indentation. The anchor
may belong to another document or to none. -/
def insertBefore (d : Document) (f : Forest) (comment anchor : ElementId) :
    Except Fault (Forest × Document) :=
  match f.parent? anchor with
  | none => .error (.atRoot d.name)
  | some parent => do
    let indent ← f.indentation anchor
    let index ← f.indexOf parent anchor
    let (f, lineBreak) := f.addLeaf ⟨.whitespace, "\n" ++ indent⟩
    d.edit f ⟨parent, index, [], [comment, lineBreak]⟩

/-- Inserts an element and a line break where the text starts, so that the element has a line of its
own. -/
def insertAtStart (d : Document) (f : Forest) (comment : ElementId) :
    Except Fault (Forest × Document) :=
  let (f, lineBreak) := f.addLeaf ⟨.whitespace, "\n"⟩
  d.edit f ⟨d.root, 0, [], [comment, lineBreak]⟩

/-- Replaces a comment of the document by a new line comment. The old one may be of either kind, but
it has to stand in this document. -/
def replaceComment (d : Document) (f : Forest) (comment : ElementId) (text : String) :
    Except Fault (Forest × Document) :=
  match f.parent? comment with
  | some parent =>
    if f.top comment == d.root && f.isComment comment then do
      let index ← f.indexOf parent comment
      let (f, fresh) ← f.addComment text
      d.edit f ⟨parent, index, [comment], [fresh]⟩
    else .error (.notItsComment (f.describe comment) d.name)
  | none => .error (.notItsComment (f.describe comment) d.name)

/-- Takes the latest edit back, if there is one. It is not asked whether the document may be
changed. -/
def undo (d : Document) (f : Forest) : Option (Forest × Document) :=
  match d.history with
  | [] => none
  | e :: history => some (e.inverse.run f, { d with history })

end Document

end BnfSuppression
