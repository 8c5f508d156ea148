import BnfSuppression.Text.Quoted
import BnfSuppression.Tree

/-!
# Forests of identified elements

Editing needs elements that keep their identity while they move. A forest stores elements under
ids: a leaf has its token, a composite the ids of its children, and each element names its parent.
Children and parents are stored apart, so that an element that was taken out of a composite, or is
listed in two, can be told from one that is listed once.

## Main definitions

* `Forest`: the store; `Forest.plant` adds a tree to it.
* `Forest.below`, `Forest.leaves`, `Forest.text`, `Forest.tree`: what an element holds.
* `Forest.splice`: replacing children of a composite.

## Main results

* `Forest.children_splice`, `Forest.children_splice_of_ne`: what a splice does to the children of
  each element.
* `Tree.length_layout`: a tree takes as many places as it has elements.
-/

namespace BnfSuppression

/-- The name of an element in a forest. -/
abbrev ElementId := Nat

/-- What an element is made of: a token, or a type with the ids of the children. -/
inductive Shape
  | leaf (token : Token)
  | node (type : ElementType) (children : List ElementId)
  deriving Repr, DecidableEq, Inhabited

/-- An element of a forest. The parent that it names need not list it among its children. -/
structure Element where
  shape : Shape
  parent? : Option ElementId
  deriving Repr, DecidableEq, Inhabited

/-- The composite's children; a leaf has none. -/
def Shape.children : Shape → List ElementId
  | leaf _ => []
  | node _ children => children

/-- A composite with other children; a leaf stays as it is. -/
def Shape.mapChildren (g : List ElementId → List ElementId) : Shape → Shape
  | leaf t => leaf t
  | node type children => node type (g children)

/-- A store of elements; the id of an element is its place. Elements are added and changed, but
never dropped. -/
structure Forest where
  elements : Array Element
  deriving Repr, Inhabited

namespace Forest

/-- The forest without elements. -/
def empty : Forest := ⟨#[]⟩

/-- The number of elements. -/
def size (f : Forest) : Nat := f.elements.size

/-- The element of an id. -/
def get? (f : Forest) (id : ElementId) : Option Element := f.elements[id]?

/-- The parent that an element names. -/
def parent? (f : Forest) (id : ElementId) : Option ElementId := (f.get? id).bind Element.parent?

/-- The children of an element. -/
def children (f : Forest) (id : ElementId) : List ElementId :=
  ((f.get? id).map fun e => e.shape.children).getD []

/-- The token of a leaf. -/
def token? (f : Forest) (id : ElementId) : Option Token :=
  (f.get? id).bind fun e => match e.shape with
    | .leaf t => some t
    | .node _ _ => none

/-- The type of a composite. -/
def type? (f : Forest) (id : ElementId) : Option ElementType :=
  (f.get? id).bind fun e => match e.shape with
    | .leaf _ => none
    | .node type _ => some type

/-- The name of the type of a leaf or composite. -/
def typeName (f : Forest) (id : ElementId) : String :=
  match f.token? id, f.type? id with
  | some t, _ => t.type.name
  | none, some type => type.name
  | none, none => ""

/-- The kind of an element: that of its type. Leaves, and what is not stored, are of kind `other`. -/
def kind (f : Forest) (id : ElementId) : NodeKind := ((f.type? id).map ElementType.kind).getD .other

/-- The element is a leaf. -/
def isLeaf (f : Forest) (id : ElementId) : Bool := (f.token? id).isSome

/-- The element is a leaf of white space. -/
def isWhitespace (f : Forest) (id : ElementId) : Bool := (f.token? id).any Token.isWhitespace

/-- The element is a comment. -/
def isComment (f : Forest) (id : ElementId) : Bool := (f.token? id).any Token.isComment

/-- The element is white space or a comment. -/
def isTrivia (f : Forest) (id : ElementId) : Bool := (f.token? id).any Token.isTrivia

/-- The text of a leaf; a composite has none of its own. -/
def ownText (f : Forest) (id : ElementId) : String := ((f.token? id).map Token.text).getD ""

/-- The text of the first identifier directly below a composite, which is how rules and attributes
are named. -/
def name? (f : Forest) (id : ElementId) : Option String :=
  (f.children id).findSome? fun c =>
    (f.token? c).bind fun t => if t.isIdentifier then some t.text else none

/-! ### What an element holds -/

/-- An element and all below it, each before what it holds, down to a depth. -/
def belowUpTo (f : Forest) : Nat → ElementId → List ElementId
  | 0, id => [id]
  | depth + 1, id => id :: (f.children id).flatMap (f.belowUpTo depth)

/-- An element and all below it, each before what it holds. No path down a forest has more steps
than there are elements, unless an element holds itself. -/
def below (f : Forest) (id : ElementId) : List ElementId := f.belowUpTo f.size id

/-- The leaves of an element in the order of the text; a leaf is its own. -/
def leaves (f : Forest) (id : ElementId) : List ElementId := (f.below id).filter f.isLeaf

/-- The text that an element spans. -/
def text (f : Forest) (id : ElementId) : String := String.join ((f.leaves id).map f.ownText)

/-- The composites of a type, the element itself and those below it. -/
def composites (f : Forest) (type : ElementType) (id : ElementId) : List ElementId :=
  (f.below id).filter fun e => f.type? e == some type

/-- The tree of an element down to a depth. -/
def treeUpTo (f : Forest) : Nat → ElementId → Tree
  | 0, id => .leaf ((f.token? id).getD default)
  | depth + 1, id =>
    match (f.get? id).map Element.shape with
    | some (.node type children) => .node type (children.map (f.treeUpTo depth))
    | some (.leaf t) => .leaf t
    | none => .leaf default

/-- The tree of an element, without the ids. -/
def tree (f : Forest) (id : ElementId) : Tree := f.treeUpTo f.size id

/-- How messages show an element: its type and its text. -/
def describe (f : Forest) (id : ElementId) : String :=
  (if f.isLeaf id then "BnfLeaf(" else "BnfComposite(") ++ f.typeName id ++ ", " ++
    Text.quote (f.text id) ++ ")"

end Forest

/-! ### Planting trees -/

namespace Tree

/-- The ids of trees that are stored side by side, the first from the given id on. -/
def startsFrom (id : ElementId) : List Tree → List ElementId
  | [] => []
  | t :: ts => id :: startsFrom (id + t.size) ts

mutual

/-- The elements of a tree as a forest stores them from the given id on, each before what it
holds. -/
def layout (parent? : Option ElementId) (id : ElementId) : Tree → List Element
  | leaf t => [⟨.leaf t, parent?⟩]
  | node type children =>
    ⟨.node type (startsFrom (id + 1) children), parent?⟩ :: layoutOf id (id + 1) children

/-- The elements of trees side by side below a parent. -/
def layoutOf (parent id : ElementId) : List Tree → List Element
  | [] => []
  | t :: ts => layout (some parent) id t ++ layoutOf parent (id + t.size) ts

end

mutual

/-- Laying out a tree takes one slot of the forest for each of its nodes. -/
theorem length_layout (parent? : Option ElementId) (id : ElementId) :
    (t : Tree) → (t.layout parent? id).length = t.size
  | leaf _ => by simp [layout, size]
  | node _ children => by simp [layout, size, length_layoutOf id (id + 1) children]

/-- Laying out a list of trees takes one slot of the forest for each of their nodes. -/
theorem length_layoutOf (parent id : ElementId) :
    (ts : List Tree) → (layoutOf parent id ts).length = sizeOf ts
  | [] => by simp [layoutOf, Tree.sizeOf]
  | t :: ts => by
    simp [layoutOf, Tree.sizeOf, length_layout (some parent) id t,
      length_layoutOf parent (id + t.size) ts]

end

end Tree

namespace Forest

/-- The forest with one more element, and its id. -/
def add (f : Forest) (e : Element) : Forest × ElementId := (⟨f.elements.push e⟩, f.size)

/-- The forest with a leaf that has no parent, and its id. Such leaves wait to be inserted. -/
def addLeaf (f : Forest) (t : Token) : Forest × ElementId := f.add ⟨.leaf t, none⟩

/-- The forest with a tree whose root has no parent, and the id of that root. -/
def plant (f : Forest) (t : Tree) : Forest × ElementId :=
  (⟨f.elements ++ (t.layout none f.size).toArray⟩, f.size)

/-! ### Changes -/

/-- The forest with one element changed. -/
def update (f : Forest) (id : ElementId) (g : Element → Element) : Forest :=
  ⟨f.elements.modify id g⟩

/-- The forest in which an element names another parent. -/
def setParent (f : Forest) (parent? : Option ElementId) (id : ElementId) : Forest :=
  f.update id fun e => { e with parent? }

/-- The forest in which the elements name another parent. -/
def setParents (f : Forest) (parent? : Option ElementId) (ids : List ElementId) : Forest :=
  ids.foldl (fun f id => f.setParent parent? id) f

/-- The forest in which a composite has other children. -/
def mapChildren (f : Forest) (id : ElementId) (g : List ElementId → List ElementId) : Forest :=
  f.update id fun e => { e with shape := e.shape.mapChildren g }

/-- A list in which what stands at a place is replaced; of what is removed, only the number
counts. -/
def replaceAt {α : Type _} (index : Nat) (removed inserted xs : List α) : List α :=
  xs.take index ++ inserted ++ xs.drop (index + removed.length)

/-- Puts elements among the children of a composite in place of those that stand there: the latter
have no parent afterwards. -/
def splice (f : Forest) (parent : ElementId) (index : Nat) (removed inserted : List ElementId) :
    Forest :=
  ((f.setParents none removed).setParents (some parent) inserted).mapChildren parent
    (replaceAt index removed inserted)

/-- Updating an element changes what is stored at that element and nowhere else. -/
theorem get?_update (f : Forest) (id other : ElementId) (g : Element → Element) :
    (f.update id g).get? other = if id = other then (f.get? other).map g else f.get? other := by
  simp [update, get?, Array.getElem?_modify]

/-- Updating an element stores no new one. -/
@[simp]
theorem size_update (f : Forest) (id : ElementId) (g : Element → Element) :
    (f.update id g).size = f.size := by
  simp [update, size]

/-- Setting a parent pointer changes no list of children. -/
@[simp]
theorem children_setParent (f : Forest) (parent? : Option ElementId) (id other : ElementId) :
    (f.setParent parent? id).children other = f.children other := by
  unfold setParent children
  rw [get?_update]
  split <;> cases f.get? other <;> rfl

/-- Setting the parent pointers of several elements changes no list of children. -/
@[simp]
theorem children_setParents (f : Forest) (parent? : Option ElementId) (ids : List ElementId)
    (other : ElementId) : (f.setParents parent? ids).children other = f.children other := by
  induction ids generalizing f with
  | nil => rfl
  | cons id ids ih => exact (ih (f.setParent parent? id)).trans (children_setParent ..)

/-- Setting a parent pointer changes no element's type. -/
@[simp]
theorem type?_setParent (f : Forest) (parent? : Option ElementId) (id other : ElementId) :
    (f.setParent parent? id).type? other = f.type? other := by
  unfold setParent type?
  rw [get?_update]
  split <;> cases f.get? other <;> rfl

/-- Setting the parent pointers of several elements changes no element's type. -/
@[simp]
theorem type?_setParents (f : Forest) (parent? : Option ElementId) (ids : List ElementId)
    (other : ElementId) : (f.setParents parent? ids).type? other = f.type? other := by
  induction ids generalizing f with
  | nil => rfl
  | cons id ids ih => exact (ih (f.setParent parent? id)).trans (type?_setParent ..)

/-- Changing the children of one composite leaves those of every other element alone. -/
theorem children_mapChildren_of_ne (f : Forest) {id other : ElementId} (h : id ≠ other)
    (g : List ElementId → List ElementId) :
    (f.mapChildren id g).children other = f.children other := by
  simp [mapChildren, children, get?_update, h]

/-- Changing the children of a composite applies the function to the list it had. -/
theorem children_mapChildren (f : Forest) {id : ElementId} (h : (f.type? id).isSome)
    (g : List ElementId → List ElementId) :
    (f.mapChildren id g).children id = g (f.children id) := by
  unfold type? at h
  unfold mapChildren children
  rw [get?_update]
  cases he : f.get? id with
  | none => simp [he] at h
  | some e =>
    cases hs : e.shape with
    | leaf t => simp [he, hs] at h
    | node type cs => simp [hs, Shape.mapChildren, Shape.children]

/-- A splice touches the children of one composite. -/
theorem children_splice_of_ne (f : Forest) {parent other : ElementId} (h : parent ≠ other)
    (index : Nat) (removed inserted : List ElementId) :
    (f.splice parent index removed inserted).children other = f.children other := by
  unfold splice
  rw [children_mapChildren_of_ne _ h]
  simp

/-- A splice puts the inserted elements in the place of the removed ones. -/
theorem children_splice (f : Forest) {parent : ElementId} (h : (f.type? parent).isSome)
    (index : Nat) (removed inserted : List ElementId) :
    (f.splice parent index removed inserted).children parent =
      replaceAt index removed inserted (f.children parent) := by
  unfold splice
  rw [children_mapChildren _ (by simpa using h)]
  simp

end Forest

end BnfSuppression
