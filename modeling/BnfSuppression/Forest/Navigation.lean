import BnfSuppression.Forest
import BnfSuppression.Text.Lines

/-!
# Moving about in a forest

The leaves of a tree follow each other in the order of the text. From an element one moves to the
leaf after its last one, or before its first one, by looking at the siblings on that side, then at
those of the parent, and so on up.

An element may name a parent that does not list it among its children; moving on from there is
not possible.

## Main definitions

* `Forest.step`: the next leaf in a direction.
* `Forest.walkWhile`: the leaves from a step on for as long as a condition holds.
* `Forest.ancestors`, `Forest.top`, `Forest.path`: the way up.
* `Forest.before`: the leaves before an element's text.
-/

namespace BnfSuppression

/-- The two directions of the text. -/
inductive Direction
  | forward
  | backward
  deriving DecidableEq, Repr

/-- Where one arrives when moving to the next leaf. Moving may fail, since a parent need not list
the element that names it. -/
inductive Step
  | leaf (id : ElementId)
  /-- There is no further leaf. -/
  | edge
  /-- The element names a parent that does not list it. -/
  | stray (child parent : ElementId)
  deriving DecidableEq, Repr

/-- The leaves of a walk, and the step that ended it. -/
structure Walk where
  run : List ElementId
  stop : Step
  deriving Repr

namespace Forest

/-! ### Leaf by leaf -/

/-- The first leaf of an element. -/
def firstLeaf? (f : Forest) (id : ElementId) : Option ElementId := (f.leaves id).head?

/-- The last leaf of an element. -/
def lastLeaf? (f : Forest) (id : ElementId) : Option ElementId := (f.leaves id).getLast?

/-- The children after or before a place, the nearest first. -/
def siblings (direction : Direction) (children : List ElementId) (index : Nat) : List ElementId :=
  match direction with
  | .forward => children.drop (index + 1)
  | .backward => (children.take index).reverse

/-- The leaf at which an element is entered in a direction. -/
def nearestLeaf? (f : Forest) : Direction → ElementId → Option ElementId
  | .forward => f.firstLeaf?
  | .backward => f.lastLeaf?

/-- The next leaf outside an element in a direction, looking no more than a number of parents
up. -/
def stepUpTo (f : Forest) (direction : Direction) : Nat → ElementId → Step
  | 0, _ => .edge
  | height + 1, id =>
    match f.parent? id with
    | none => .edge
    | some parent =>
      match (f.children parent).idxOf? id with
      | none => .stray id parent
      | some index =>
        let beside := siblings direction (f.children parent) index
        match beside.findSome? (f.nearestLeaf? direction) with
        | some leaf => .leaf leaf
        | none => stepUpTo f direction height parent

/-- The next leaf outside an element in a direction: that of the nearest sibling with leaves, or
else that of a sibling further up. -/
def step (f : Forest) (direction : Direction) (id : ElementId) : Step :=
  f.stepUpTo direction f.size id

/-- The leaves from a step on for as long as they satisfy the condition, at most a number of
them. -/
def walkUpTo (f : Forest) (direction : Direction) (p : ElementId → Bool) : Nat → Step → Walk
  | count + 1, .leaf id =>
    if p id then
      let rest := walkUpTo f direction p count (f.step direction id)
      ⟨id :: rest.run, rest.stop⟩
    else ⟨[], .leaf id⟩
  | _, s => ⟨[], s⟩

/-- The leaves from a step on for as long as they satisfy the condition, and where the walk
stopped. -/
def walkWhile (f : Forest) (direction : Direction) (p : ElementId → Bool) (s : Step) : Walk :=
  f.walkUpTo direction p (f.size + 1) s

/-- All leaves from a step on. -/
def walk (f : Forest) (direction : Direction) (s : Step) : Walk :=
  f.walkWhile direction (fun _ => true) s

/-! ### Upwards -/

/-- An element and the elements around it, the nearest first, at most a number of them. -/
def ancestorsUpTo (f : Forest) : Nat → ElementId → List ElementId
  | 0, _ => []
  | height + 1, id => id :: ((f.parent? id).map (f.ancestorsUpTo height)).getD []

/-- An element and the elements around it, the nearest first. No way up has more elements than the
forest. -/
def ancestors (f : Forest) (id : ElementId) : List ElementId := f.ancestorsUpTo (f.size + 1) id

/-- The outermost element around an element. -/
def top (f : Forest) (id : ElementId) : ElementId := (f.ancestors id).getLastD id

/-- The innermost element around an element, or the element itself, that has the kind. -/
def enclosing? (f : Forest) (kind : NodeKind) (id : ElementId) : Option ElementId :=
  (f.ancestors id).find? fun e => f.kind e == kind

/-- The places among their parents' children of an element and those around it, the outermost
first. -/
def path (f : Forest) (id : ElementId) : Option (List Nat) :=
  ((f.ancestors id).dropLast.mapM fun e =>
    (f.parent? e).bind fun parent => (f.children parent).idxOf? e).map List.reverse

/-- The descendant at a path of places among children. -/
def descend? (f : Forest) (id : ElementId) : List Nat → Option ElementId
  | [] => some id
  | i :: path => ((f.children id)[i]?).bind fun c => f.descend? c path

/-! ### Positions -/

/-- The step to the leaf before an element's first leaf, or before the element if it has none. -/
def stepBeforeText (f : Forest) (id : ElementId) : Step :=
  f.step .backward ((f.firstLeaf? id).getD id)

/-- The leaves before an element's text, the nearest first. -/
def before (f : Forest) (id : ElementId) : Walk := f.walk .backward (f.stepBeforeText id)

/-- The length of the text of leaves. -/
def length (f : Forest) (leaves : List ElementId) : Nat :=
  (String.join (leaves.map f.ownText)).length

end Forest

end BnfSuppression
