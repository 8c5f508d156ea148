import BnfSuppression.Token

/-!
# Syntax trees of grammars

A syntax tree is lossless: its leaves are the tokens of the text, white space and comments among
them. Composites group them; a composite may be empty.

## Main definitions

* `ElementType`: the types of composites.
* `NodeKind`: how an element takes part in suppression.
* `Tree`: a tree, with its leaves and its text.
-/

namespace BnfSuppression

/-- The types of composites. -/
inductive ElementType
  | file
  | rule
  | modifiers
  | expression
  | attrs
  | attr
  | attrPattern
  | value
  deriving DecidableEq, Repr, Inhabited

/-- The name of a type of composites. -/
def ElementType.name : ElementType → String
  | file => "file"
  | rule => "rule"
  | modifiers => "modifiers"
  | expression => "expression"
  | attrs => "attrs"
  | attr => "attr"
  | attrPattern => "attr-pattern"
  | value => "value"

/-- The types of composites. -/
def ElementType.all : List ElementType :=
  [file, rule, modifiers, expression, attrs, attr, attrPattern, value]

/-- The type of composites of a name. -/
def ElementType.ofName? (name : String) : Option ElementType := all.find? (·.name == name)

/-- How an element takes part in suppression: rules, attributes and whole documents can be
suppressed, anything else cannot. -/
inductive NodeKind
  | rule
  | attr
  | document
  | other
  deriving DecidableEq, Repr, Inhabited

/-- The name of a kind. -/
def NodeKind.name : NodeKind → String
  | rule => "rule"
  | attr => "attribute"
  | document => "file"
  | other => "other"

/-- The kinds. -/
def NodeKind.all : List NodeKind := [rule, attr, document, other]

/-- The kind of a name. -/
def NodeKind.ofName? (name : String) : Option NodeKind := all.find? (·.name == name)

/-- Checks can be suppressed for elements of this kind. -/
def NodeKind.suppressible : NodeKind → Bool
  | other => false
  | _ => true

/-- Checks can be suppressed for rules. -/
theorem NodeKind.suppressible_rule : rule.suppressible = true := rfl

/-- Checks can be suppressed for attributes. -/
theorem NodeKind.suppressible_attr : attr.suppressible = true := rfl

/-- Checks can be suppressed for documents. -/
theorem NodeKind.suppressible_document : document.suppressible = true := rfl

/-- The kind of a composite. -/
def ElementType.kind : ElementType → NodeKind
  | file => .document
  | rule => .rule
  | attr => .attr
  | _ => .other

/-- A syntax tree. -/
inductive Tree
  | leaf (token : Token)
  | node (type : ElementType) (children : List Tree)
  deriving Repr, Inhabited

namespace Tree

mutual

/-- The leaves of a tree, in the order of the text. -/
def leaves : Tree → List Token
  | leaf t => [t]
  | node _ children => leavesOf children

/-- The leaves of trees that stand side by side. -/
def leavesOf : List Tree → List Token
  | [] => []
  | t :: ts => leaves t ++ leavesOf ts

end

mutual

/-- The number of elements of a tree. -/
def size : Tree → Nat
  | leaf _ => 1
  | node _ children => sizeOf children + 1

/-- The number of elements of trees that stand side by side. -/
def sizeOf : List Tree → Nat
  | [] => 0
  | t :: ts => size t + sizeOf ts

end

/-- The text that a tree spans. -/
def text (t : Tree) : String := String.join (t.leaves.map Token.text)

/-- The children of a composite; a leaf has none. -/
def children : Tree → List Tree
  | leaf _ => []
  | node _ children => children

/-- The kind of the tree's topmost element. -/
def kind : Tree → NodeKind
  | leaf _ => .other
  | node type _ => type.kind

/-- The text of the first identifier directly below a composite. -/
def name? : Tree → Option String
  | leaf _ => none
  | node _ children => children.findSome? fun
    | leaf t => if t.isIdentifier then some t.text else none
    | node _ _ => none

/-- The leaves of two lists of trees together are those of the one, then those of the other. -/
@[simp]
theorem leavesOf_append (ts us : List Tree) : leavesOf (ts ++ us) = leavesOf ts ++ leavesOf us := by
  induction ts with
  | nil => rfl
  | cons t ts ih => simp [leavesOf, ih]

/-- Tokens side by side are the leaves of themselves. -/
@[simp]
theorem leavesOf_map_leaf (ts : List Token) : leavesOf (ts.map leaf) = ts := by
  induction ts with
  | nil => rfl
  | cons t ts ih => simp [leavesOf, leaves, ih]

end Tree

end BnfSuppression
