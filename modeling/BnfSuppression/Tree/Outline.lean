import BnfSuppression.Text.Lines
import BnfSuppression.Tree.Parser

/-!
# Outlines

The outline of a tree lists its composites, each before what it holds, with the offset at which it
starts and the line of that offset. An empty composite starts where the leaf before it ends.

## Main definitions

* `OutlineEntry`: a composite in an outline.
* `Tree.outline`: the outline of a tree.
-/

namespace BnfSuppression

/-- A composite as an outline shows it. -/
structure OutlineEntry where
  type : ElementType
  name? : Option String
  offset : Nat
  line : Nat
  deriving Repr

namespace Tree

/-- The number of characters that a tree spans. -/
def length (t : Tree) : Nat := t.text.length

mutual

/-- The outline of a tree that starts at an offset of the text. -/
def outlineFrom (text : List Char) (offset : Nat) : Tree → List OutlineEntry
  | leaf _ => []
  | node type children =>
    ⟨type, name? (node type children), offset, Text.lineAt text offset⟩ ::
      outlineOf text offset children

/-- The outlines of trees that stand side by side, the first of them at an offset of the text. -/
def outlineOf (text : List Char) (offset : Nat) : List Tree → List OutlineEntry
  | [] => []
  | t :: ts => outlineFrom text offset t ++ outlineOf text (offset + t.length) ts

end

/-- The outline of a tree. -/
def outline (t : Tree) : List OutlineEntry := t.outlineFrom t.text.toList 0

end Tree

end BnfSuppression
