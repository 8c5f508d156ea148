import BnfSuppression.Proofs.Calls
import BnfSuppression.Proofs.Walks

/-!
# The Forest of a Document Stays a Tree

Edits and undo change children and parents apart from each other, and what they take out may be put
in again. `Forest.Consistent` says that both always agree: seen from the root the forest is a tree,
and all else are single leaves. A forest that comprises a tree is consistent, and the sessions of a
document keep it so, since their histories are backed by the changes that were made.

## Main results

* `Forest.Comprises.consistent`: a tree and detached leaves are consistent.
* `Workspace.Reached.forest_consistent`: **whatever calls and actions do, succeeding or failing,
  the forest stays consistent**.
-/

namespace BnfSuppression

open Planted (plug Place)

namespace Forest

/-- Children and parents agree: the elements below the root make up a tree, all other elements are
leaves without a parent, and all walks end. -/
structure Consistent (f : Forest) (root : ElementId) : Prop where
  /-- The root has no parent. -/
  root_parent : f.parent? root = none
  /-- What is below an element of the tree is the element and what is below its children. -/
  below_eq : ∀ i ∈ f.below root, f.below i = i :: (f.children i).flatMap f.below
  /-- Every element occurs once in the tree. -/
  once : (f.below root).Nodup
  /-- Its parent is the one composite that lists it, and lists it once. -/
  parent : ∀ i ∈ f.below root, i ≠ root → ∃ parent ∈ f.below root, f.parent? i = some parent ∧
    (f.children parent).count i = 1 ∧ ∀ other, i ∈ f.children other → other = parent
  /-- What is not in the tree is a leaf without a parent. -/
  outside : ∀ i < f.size, i ∉ f.below root → f.isLeaf i = true ∧ f.parent? i = none
  /-- Every walk from a leaf ends. -/
  walks : ∀ i direction, f.isLeaf i = true →
    f.Walks direction i (f.walk direction (.leaf i)).run ∧
      (f.walk direction (.leaf i)).stop = .edge

variable {f : Forest} {p q : Planted} {cs : Place} {i : ElementId}

/-- What is below a stored composite is itself and what is below its children. -/
theorem Stores.below_children {outer? : Option ElementId} (h : f.Stores outer? q)
    (hn : q.ids.Nodup) : f.below q.id = q.id :: (f.children q.id).flatMap f.below := by
  rw [h.below_eq hn]
  cases q with
  | leaf id t => rw [Planted.id, h.children_leaf, Planted.ids, List.flatMap_nil]
  | node id type ps =>
      rw [Planted.ids, List.nodup_cons] at hn
      have hchild : ∀ c ∈ ps, f.below c.id = c.ids := by
        intro c hc
        obtain ⟨l, r, rfl⟩ := List.append_of_mem hc
        have hnodup := hn.2
        rw [Planted.idsOf_append, Planted.idsOf] at hnodup
        exact (h.child hc).below_eq hnodup.of_append_right.of_append_left
      rw [Planted.id, h.children_node, Planted.ids, Planted.idsOf_eq_flatMap, List.flatMap_map,
        List.flatMap_congr hchild]

/-- A composite does not list a child twice. -/
theorem Stores.nodup_children {outer? : Option ElementId} (h : f.Stores outer? q)
    (hn : q.ids.Nodup) : (f.children q.id).Nodup := by
  cases q with
  | leaf id t =>
      rw [Planted.id, h.children_leaf]
      exact List.nodup_nil
  | node id type ps =>
      rw [Planted.ids, List.nodup_cons] at hn
      rw [Planted.id, h.children_node]
      exact (Planted.map_id_sublist ps).nodup hn.2

/-- In a forest of one tree, the listed elements are those of the tree, and name the composite that
lists them. -/
theorem Comprises.of_mem_children (h : f.Comprises p) {other : ElementId}
    (hi : i ∈ f.children other) : other ∈ p.ids ∧ f.parent? i = some other := by
  have hm : other ∈ p.ids := by
    by_contra hn
    by_cases hs : other < f.size
    · obtain ⟨t, ht⟩ := h.rest other hs hn
      simp [children, ht, Shape.children] at hi
    · simp [children, get?_eq_none (Nat.le_of_not_lt hs)] at hi
  refine ⟨hm, ?_⟩
  obtain ⟨cs, q, rfl, rfl⟩ := Planted.exists_place hm
  cases q with
  | leaf id t =>
      rw [Planted.id, h.stores_at.children_leaf] at hi
      simp at hi
  | node id type ps =>
      rw [Planted.id, h.stores_at.children_node] at hi
      obtain ⟨c, hc, rfl⟩ := List.mem_map.1 hi
      exact (h.stores_at.child hc).parent?_eq

/-- A leaf of a stored tree is among the leaves of the tree. -/
theorem Holds.exists_leaf (h : f.Holds p) (hi : i ∈ p.ids) (hl : f.isLeaf i = true)
    (direction : Direction) : ∃ pre x post, p.leavesToward direction = pre ++ x :: post ∧
      x.1 = i := by
  have hm : i ∈ p.leaves.map Prod.fst := by
    rw [← h.stores.filter_isLeaf, List.mem_filter]
    exact ⟨hi, hl⟩
  obtain ⟨x, hx, rfl⟩ := List.mem_map.1 hm
  rw [Planted.leavesToward_eq]
  obtain ⟨pre, post, hp⟩ := List.append_of_mem (Direction.mem_order.2 hx)
  exact ⟨pre, x, post, hp, rfl⟩

/-- **A tree and leaves that stand nowhere are consistent.** -/
theorem Comprises.consistent (h : f.Comprises p) : f.Consistent p.id where
  root_parent := h.stores.parent?_eq
  below_eq := by
    intro i hi
    rw [h.toHolds.below_eq] at hi
    obtain ⟨cs, q, rfl, rfl⟩ := Planted.exists_place hi
    exact h.stores_at.below_children h.nodup_at
  once := by
    rw [h.toHolds.below_eq]
    exact h.nodup
  parent := by
    intro i hi hr
    rw [h.toHolds.below_eq] at hi ⊢
    obtain ⟨cs, q, rfl, rfl⟩ := Planted.exists_place hi
    cases cs with
    | nil => exact absurd rfl hr
    | cons c cs =>
        have hparent : f.parent? q.id = some c.id := h.parent?_eq
        have hlisted : q.id ∈ f.children c.id := by
          rw [h.children_eq]
          simp
        refine ⟨c.id, (h.of_mem_children hlisted).1, hparent, ?_, ?_⟩
        · have hnode : f.Holds (plug cs (.node c.id c.type (c.left ++ q :: c.right))) := h.toHolds
          exact List.count_eq_one_of_mem (hnode.stores_at.nodup_children hnode.nodup_at) hlisted
        · intro other ho
          exact Option.some.inj ((h.of_mem_children ho).2.symm.trans hparent)
  outside := by
    intro i hi hn
    rw [h.toHolds.below_eq] at hn
    obtain ⟨t, ht⟩ := h.rest i hi hn
    simp [isLeaf, token?, parent?, ht]
  walks := by
    intro i direction hl
    by_cases hi : i ∈ p.ids
    · obtain ⟨pre, x, post, hp, rfl⟩ := h.exists_leaf hi hl direction
      rw [h.toHolds.walk_eq hp]
      exact ⟨h.toHolds.walks hp, rfl⟩
    · obtain ⟨hwalks, hwalk⟩ := @walks_of_parent? f direction i (h.parent?_of_notMem hi)
      rw [hwalk]
      exact ⟨hwalks, rfl⟩

end Forest

namespace Workspace

variable {text name : String} {writable : Bool} {w : Workspace}

/-- **Whatever calls and actions do, succeeding or failing, the forest stays consistent.** -/
theorem Reached.forest_consistent (h : Reached text name writable w) :
    ∃ history, w.documents = #[⟨name, writable, text, 0, history⟩] ∧ w.forest.Consistent 0 := by
  obtain ⟨log, hs⟩ := h.session
  obtain ⟨history, p, hp⟩ := hs.opened Session.records_edits
  have hroot : p.id = 0 := hp.id_eq
  exact ⟨history, hp.documents, hroot ▸ hp.comprises.consistent⟩

/-- A comment is put in, another takes its place, and it is put in again; a comment of two lines is
refused, and an edit is undone. -/
theorem Reached.forest_consistent_of_reinserted : ∃ w, Reached "a ::= b\n" "g" true w ∧
    ∃ history, w.documents = #[⟨"g", true, "a ::= b\n", 0, history⟩] ∧ w.forest.Consistent 0 := by
  let start := empty.open "a ::= b\n" "g" true
  let comment := start.forest.size
  let created := start.call 0 (.createComment "// noinspection A")
  have h₁ : Reached "a ::= b\n" "g" true created := .called .opened (by decide)
  let inserted := created.call 0 (.insertBefore comment 1)
  have h₂ : Reached "a ::= b\n" "g" true inserted := .called h₁ (by decide +kernel)
  let replaced := inserted.call 0 (.replaceComment comment "// noinspection B")
  have h₃ : Reached "a ::= b\n" "g" true replaced := .called h₂ (by decide)
  let twice := replaced.call 0 (.insertBefore comment 1)
  have h₄ : Reached "a ::= b\n" "g" true twice := .called h₃ (by decide +kernel)
  let refused := twice.call 0 (.createComment "// C\n// D")
  have h₅ : Reached "a ::= b\n" "g" true refused := .called h₄ (by decide)
  let undone := refused.call 0 .undo
  have h₆ : Reached "a ::= b\n" "g" true undone := .called h₅ (by decide)
  exact ⟨undone, h₆, h₆.forest_consistent⟩

end Workspace

end BnfSuppression
