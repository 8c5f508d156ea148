import BnfSuppression.Forest.Navigation
import Mathlib.Data.List.Nodup
import Mathlib.Data.List.Perm.Subperm

/-!
# Trees with Identities

A forest names its elements and keeps children and parents apart; a `Tree` has neither names nor
parents. This module defines `Planted`, a tree whose elements carry ids, and the relation
`Forest.Stores` between it and a forest. Everything that a forest tells about a stored tree is a
structural recursion on the planted tree, and the depth bound that the forest's own recursions
carry disappears.

What is read downwards from an element does not ask what its elements name as their parents, nor
whether one of them is listed twice. `Forest.Shows` is the part of the relation that this needs.

## Main results

* `Forest.Holds.below_eq`, `Forest.Holds.leaves_eq`, `Forest.Holds.text_eq`,
  `Forest.Holds.tree_eq`: what a forest reads off a stored tree.
* `Forest.holds_plant`: planting a tree stores it.
* `Forest.Stores.congr`: a stored tree only depends on the elements of its ids.
-/

namespace BnfSuppression

/-- A syntax tree whose elements carry the ids under which a forest stores them. -/
inductive Planted
  | leaf (id : ElementId) (token : Token)
  | node (id : ElementId) (type : ElementType) (children : List Planted)
  deriving Inhabited

namespace Planted

/-- Induction on planted trees, with the hypothesis for every child of a composite. -/
@[elab_as_elim]
theorem induction {motive : Planted → Prop} (leaf : ∀ id t, motive (.leaf id t))
    (node : ∀ id type children, (∀ c ∈ children, motive c) → motive (.node id type children)) :
    ∀ p, motive p
  | .leaf id t => leaf id t
  | .node id type children => node id type children fun c _ => induction leaf node c

/-- The id of the topmost element. -/
def id : Planted → ElementId
  | leaf id _ => id
  | node id _ _ => id

mutual

/-- The ids of a tree, each before those below it. -/
def ids : Planted → List ElementId
  | leaf id _ => [id]
  | node id _ children => id :: idsOf children

/-- The ids of trees that stand side by side. -/
def idsOf : List Planted → List ElementId
  | [] => []
  | p :: ps => ids p ++ idsOf ps

end

mutual

/-- The leaves of a tree with their tokens, in the order of the text. -/
def leaves : Planted → List (ElementId × Token)
  | leaf id t => [(id, t)]
  | node _ _ children => leavesOf children

/-- The leaves of trees that stand side by side. -/
def leavesOf : List Planted → List (ElementId × Token)
  | [] => []
  | p :: ps => leaves p ++ leavesOf ps

end

mutual

/-- The tree without the ids. -/
def tree : Planted → Tree
  | leaf _ t => .leaf t
  | node _ type children => .node type (treesOf children)

/-- Trees side by side without their ids. -/
def treesOf : List Planted → List Tree
  | [] => []
  | p :: ps => tree p :: treesOf ps

end

/-- The ids of two lists of trees together are those of the one, then those of the other. -/
@[simp]
theorem idsOf_append (ps qs : List Planted) : idsOf (ps ++ qs) = idsOf ps ++ idsOf qs := by
  induction ps with
  | nil => rfl
  | cons p ps ih => simp [idsOf, ih]

/-- The leaves of two lists of trees together are those of the one, then those of the other. -/
@[simp]
theorem leavesOf_append (ps qs : List Planted) :
    leavesOf (ps ++ qs) = leavesOf ps ++ leavesOf qs := by
  induction ps with
  | nil => rfl
  | cons p ps ih => simp [leavesOf, ih]

/-- Taking the ids off two lists of trees together takes them off each of the two. -/
@[simp]
theorem treesOf_append (ps qs : List Planted) : treesOf (ps ++ qs) = treesOf ps ++ treesOf qs := by
  induction ps with
  | nil => rfl
  | cons p ps ih => simp [treesOf, ih]

/-- Taking the ids off trees side by side takes them off each tree. -/
theorem treesOf_eq_map (ps : List Planted) : treesOf ps = ps.map tree := by
  induction ps with
  | nil => rfl
  | cons p ps ih => simp [treesOf, ih]

/-- The id of the topmost element is one of the tree's ids. -/
theorem id_mem_ids (p : Planted) : p.id ∈ p.ids := by
  cases p <;> simp [id, ids]

/-- The ids below trees side by side are those of the single trees. -/
theorem mem_idsOf {i : ElementId} {ps : List Planted} : i ∈ idsOf ps ↔ ∃ p ∈ ps, i ∈ p.ids := by
  induction ps with
  | nil => simp [idsOf]
  | cons p ps ih => simp [idsOf, ih]

/-- The ids of trees side by side are those of each tree, one tree after the other. -/
theorem idsOf_eq_flatMap (ps : List Planted) : idsOf ps = ps.flatMap ids := by
  induction ps with
  | nil => rfl
  | cons p ps ih => rw [idsOf, ih, List.flatMap_cons]

/-- The topmost elements of trees side by side are among all of their elements, in order. -/
theorem map_id_sublist (ps : List Planted) : (ps.map Planted.id).Sublist (idsOf ps) := by
  induction ps with
  | nil => exact List.Sublist.refl _
  | cons p ps ih =>
      rw [List.map_cons, idsOf, ← List.singleton_append]
      exact (List.singleton_sublist.2 p.id_mem_ids).append ih

/-- Every tree has at least one id. -/
theorem length_ids_pos (p : Planted) : 0 < p.ids.length := by
  cases p <;> simp [ids]

/-- A tree side by side with others has no more elements than all of them. -/
theorem length_ids_le_of_mem {p : Planted} {ps : List Planted} (h : p ∈ ps) :
    p.ids.length ≤ (idsOf ps).length := by
  obtain ⟨l, r, rfl⟩ := List.append_of_mem h
  simp only [idsOf_append, idsOf, List.length_append]
  omega

mutual

/-- The tokens of the leaves are the leaves of the tree without ids. -/
theorem leaves_tree : (p : Planted) → p.tree.leaves = p.leaves.map Prod.snd
  | leaf _ _ => rfl
  | node _ _ children => by
    simp only [tree, Tree.leaves, leaves]
    exact leavesOf_treesOf children

/-- Taking the ids off trees side by side leaves the tokens of their leaves. -/
theorem leavesOf_treesOf : (ps : List Planted) →
    Tree.leavesOf (treesOf ps) = (leavesOf ps).map Prod.snd
  | [] => rfl
  | p :: ps => by
    simp only [treesOf, Tree.leavesOf, leavesOf, List.map_append, leaves_tree p,
      leavesOf_treesOf ps]

end

mutual

/-- The ids of the leaves are ids of the tree, in the same order. -/
theorem leaves_sublist : (p : Planted) → (p.leaves.map Prod.fst).Sublist p.ids
  | leaf _ _ => List.Sublist.refl _
  | node id _ children => (leavesOf_sublist children).cons id

/-- The leaves of trees side by side are among their elements, in the same order. -/
theorem leavesOf_sublist : (ps : List Planted) → ((leavesOf ps).map Prod.fst).Sublist (idsOf ps)
  | [] => List.Sublist.refl _
  | p :: ps => by
    simp only [leavesOf, idsOf, List.map_append]
    exact (leaves_sublist p).append (leavesOf_sublist ps)

end

end Planted

namespace Forest

/-! ### Stored trees -/

mutual

/-- The forest stores the tree under its ids, its topmost element naming the given parent. -/
def Stores (f : Forest) (parent? : Option ElementId) : Planted → Prop
  | .leaf id t => f.get? id = some ⟨.leaf t, parent?⟩
  | .node id type children =>
    f.get? id = some ⟨.node type (children.map Planted.id), parent?⟩ ∧ StoresAll f id children

/-- The forest stores trees side by side below a composite. -/
def StoresAll (f : Forest) (parent : ElementId) : List Planted → Prop
  | [] => True
  | p :: ps => Stores f (some parent) p ∧ StoresAll f parent ps

end

/-- The forest stores the tree as a whole of its own, with every id once. -/
structure Holds (f : Forest) (p : Planted) : Prop where
  stores : f.Stores none p
  nodup : p.ids.Nodup

section

variable {f : Forest} {outer? : Option ElementId}

/-- Trees side by side are stored exactly if each of them is, below the same parent. -/
theorem storesAll_iff {parent : ElementId} {ps : List Planted} :
    f.StoresAll parent ps ↔ ∀ p ∈ ps, f.Stores (some parent) p := by
  induction ps with
  | nil => simp [StoresAll]
  | cons p ps ih => simp [StoresAll, ih]

/-- Two lists of trees side by side are stored together exactly if each of them is stored. -/
theorem storesAll_append {parent : ElementId} {ps qs : List Planted} :
    f.StoresAll parent (ps ++ qs) ↔ f.StoresAll parent ps ∧ f.StoresAll parent qs := by
  simp only [storesAll_iff, List.mem_append, or_imp, forall_and]

/-- The topmost element names the parent. -/
theorem Stores.parent?_eq {p : Planted} (h : f.Stores outer? p) : f.parent? p.id = outer? := by
  cases p with
  | leaf id t =>
      simp only [Stores] at h
      simp [parent?, Planted.id, h]
  | node id type children =>
      simp only [Stores] at h
      simp [parent?, Planted.id, h.1]

/-- A stored leaf has its token. -/
theorem Stores.token?_eq {id : ElementId} {t : Token} (h : f.Stores outer? (.leaf id t)) :
    f.token? id = some t := by
  simp only [Stores] at h
  simp [token?, h]

/-- A stored leaf has no children. -/
theorem Stores.children_leaf {id : ElementId} {t : Token} (h : f.Stores outer? (.leaf id t)) :
    f.children id = [] := by
  simp only [Stores] at h
  simp [children, h, Shape.children]

/-- A stored composite has the ids of its children. -/
theorem Stores.children_node {id : ElementId} {type : ElementType} {ps : List Planted}
    (h : f.Stores outer? (.node id type ps)) : f.children id = ps.map Planted.id := by
  simp only [Stores] at h
  simp [children, h.1, Shape.children]

/-- A stored composite has its type. -/
theorem Stores.type?_node {id : ElementId} {type : ElementType} {ps : List Planted}
    (h : f.Stores outer? (.node id type ps)) : f.type? id = some type := by
  simp only [Stores] at h
  simp [type?, h.1]

/-- A stored composite has no token of its own. -/
theorem Stores.token?_node {id : ElementId} {type : ElementType} {ps : List Planted}
    (h : f.Stores outer? (.node id type ps)) : f.token? id = none := by
  simp only [Stores] at h
  simp [token?, h.1]

/-- The kind of a stored tree's topmost element is the kind of the tree. -/
theorem Stores.kind_eq {p : Planted} (h : f.Stores outer? p) : f.kind p.id = p.tree.kind := by
  cases p with
  | leaf id t =>
      simp only [Stores] at h
      simp [kind, type?, Planted.id, Planted.tree, Tree.kind, h]
  | node id type children => simp [kind, Planted.id, Planted.tree, Tree.kind, h.type?_node]

/-- The children of a stored composite are stored below it. -/
theorem Stores.child {id : ElementId} {type : ElementType} {ps : List Planted}
    (h : f.Stores outer? (.node id type ps)) {p : Planted} (hp : p ∈ ps) :
    f.Stores (some id) p := by
  simp only [Stores] at h
  exact storesAll_iff.1 h.2 p hp

/-- Every id of a stored tree is a place of the forest. -/
theorem Stores.lt_size {p : Planted} (h : f.Stores outer? p) : ∀ i ∈ p.ids, i < f.size := by
  have place : ∀ {i : ElementId} {e : Element}, f.get? i = some e → i < f.size := fun hi =>
    (Array.getElem?_eq_some_iff.1 hi).1
  induction p using Planted.induction generalizing outer? with
  | leaf id t =>
      simp only [Stores] at h
      simp only [Planted.ids, List.mem_singleton, forall_eq]
      exact place h
  | node id type children ih =>
      intro i hi
      rcases List.mem_cons.1 hi with rfl | hi
      · simp only [Stores] at h
        exact place h.1
      · obtain ⟨c, hc, hi⟩ := Planted.mem_idsOf.1 hi
        exact ih c hc (h.child hc) i hi

/-- A stored tree only depends on the elements of its ids. -/
theorem Stores.congr {g : Forest} {p : Planted} (h : f.Stores outer? p)
    (hg : ∀ i ∈ p.ids, g.get? i = f.get? i) : g.Stores outer? p := by
  induction p using Planted.induction generalizing outer? with
  | leaf id t =>
      simp only [Stores] at h ⊢
      rw [hg id (by simp [Planted.ids]), h]
  | node id type children ih =>
      have hc : ∀ c ∈ children, g.Stores (some id) c := fun c hc =>
        ih c hc (h.child hc) fun i hi =>
          hg i (List.mem_cons_of_mem _ (Planted.mem_idsOf.2 ⟨c, hc, hi⟩))
      simp only [Stores] at h ⊢
      exact ⟨by rw [hg id (by simp [Planted.ids]), h.1], storesAll_iff.2 hc⟩

/-- A stored tree without repeated ids has no more elements than the forest. -/
theorem Stores.length_ids_le {p : Planted} (h : f.Stores outer? p) (hn : p.ids.Nodup) :
    p.ids.length ≤ f.size := by
  have hs : p.ids ⊆ List.range f.size := fun i hi => List.mem_range.2 (h.lt_size i hi)
  simpa using (hn.subperm hs).length_le

/-! ### What a forest reads off a tree that it shows -/

/-- What an element is made of, whatever parent it names. -/
def shape? (f : Forest) (id : ElementId) : Option Shape := (f.get? id).map Element.shape

/-- The children of an element depend on what it is made of alone. -/
theorem children_eq_shape? (f : Forest) (id : ElementId) :
    f.children id = ((f.shape? id).map Shape.children).getD [] := by
  simp [children, shape?, Function.comp_def]

/-- The token of an element depends on what it is made of alone. -/
theorem token?_eq_shape? (f : Forest) (id : ElementId) :
    f.token? id = (f.shape? id).bind fun s => match s with
      | .leaf t => some t
      | .node _ _ => none := by
  cases h : f.get? id with
  | none => simp [token?, shape?, h]
  | some e =>
      obtain ⟨s, parent?⟩ := e
      cases s <;> simp [token?, shape?, h]

/-- A leaf is made of its token. -/
theorem shape?_eq_leaf_iff {id : ElementId} {t : Token} :
    f.shape? id = some (.leaf t) ↔ f.token? id = some t := by
  rw [token?_eq_shape?]
  cases f.shape? id with
  | none => simp
  | some s => cases s <;> simp

mutual

/-- Below its topmost element, the forest shows the tree: the elements are made of what the tree
has, whatever parents they name and however often one of them is listed. -/
def Shows (f : Forest) : Planted → Prop
  | .leaf id t => f.shape? id = some (.leaf t)
  | .node id type children =>
    f.shape? id = some (.node type (children.map Planted.id)) ∧ ShowsAll f children

/-- The forest shows trees side by side. -/
def ShowsAll (f : Forest) : List Planted → Prop
  | [] => True
  | p :: ps => Shows f p ∧ ShowsAll f ps

end

/-- Trees side by side are shown exactly if each of them is. -/
theorem showsAll_iff {ps : List Planted} : f.ShowsAll ps ↔ ∀ p ∈ ps, f.Shows p := by
  induction ps with
  | nil => simp [ShowsAll]
  | cons p ps ih => simp [ShowsAll, ih]

/-- A forest that shows a composite shows each tree below it. -/
theorem Shows.child {id : ElementId} {type : ElementType} {ps : List Planted}
    (h : f.Shows (.node id type ps)) {p : Planted} (hp : p ∈ ps) : f.Shows p := by
  simp only [Shows] at h
  exact showsAll_iff.1 h.2 p hp

/-- A stored tree is shown. -/
theorem Stores.shows {p : Planted} (h : f.Stores outer? p) : f.Shows p := by
  induction p using Planted.induction generalizing outer? with
  | leaf id t =>
      simp only [Stores] at h
      simp [Shows, shape?, h]
  | node id type children ih =>
      have hc : ∀ c ∈ children, f.Shows c := fun c hc => ih c hc (h.child hc)
      simp only [Stores] at h
      simp [Shows, shape?, h.1, showsAll_iff.2 hc]

/-- A shown tree only depends on what the elements of its ids are made of. -/
theorem Shows.congr {g : Forest} {p : Planted} (h : f.Shows p)
    (hg : ∀ i ∈ p.ids, g.shape? i = f.shape? i) : g.Shows p := by
  induction p using Planted.induction with
  | leaf id t =>
      simp only [Shows] at h ⊢
      rw [hg id (by simp [Planted.ids]), h]
  | node id type children ih =>
      have hc : ∀ c ∈ children, g.Shows c := fun c hc => ih c hc (h.child hc) fun i hi =>
        hg i (List.mem_cons_of_mem _ (Planted.mem_idsOf.2 ⟨c, hc, hi⟩))
      simp only [Shows] at h ⊢
      exact ⟨by rw [hg id (by simp [Planted.ids]), h.1], showsAll_iff.2 hc⟩

/-- With a depth that the tree fits in, the elements below its root are those of the tree. -/
theorem Shows.belowUpTo_eq {p : Planted} (h : f.Shows p) {depth : Nat}
    (hd : p.ids.length ≤ depth + 1) : f.belowUpTo depth p.id = p.ids := by
  induction p using Planted.induction generalizing depth with
  | leaf id t =>
      cases depth with
      | zero => rfl
      | succ depth =>
          simp only [Shows] at h
          simp [belowUpTo, Planted.id, Planted.ids, children_eq_shape?, h, Shape.children]
  | node id type children ih =>
      cases depth with
      | zero =>
          cases children with
          | nil => rfl
          | cons c cs =>
              have := c.length_ids_pos
              simp only [Planted.ids, Planted.idsOf, List.length_cons, List.length_append] at hd
              omega
      | succ depth =>
          simp only [Planted.ids, List.length_cons] at hd
          have hc : ∀ c ∈ children, f.belowUpTo depth c.id = c.ids := fun c hc =>
            ih c hc (h.child hc) (by have := Planted.length_ids_le_of_mem hc; omega)
          simp only [Shows] at h
          simp only [belowUpTo, Planted.id, Planted.ids, children_eq_shape?, h.1, Option.map_some,
            Option.getD_some, Shape.children]
          rw [List.flatMap_map, List.flatMap_congr hc, Planted.idsOf_eq_flatMap]

/-- With a depth that the tree fits in, the forest gives back the tree. -/
theorem Shows.treeUpTo_eq {p : Planted} (h : f.Shows p) {depth : Nat}
    (hd : p.ids.length ≤ depth) : f.treeUpTo depth p.id = p.tree := by
  induction p using Planted.induction generalizing depth with
  | leaf id t =>
      obtain ⟨depth, rfl⟩ : ∃ d, depth = d + 1 := ⟨depth - 1, by simp [Planted.ids] at hd; omega⟩
      simp only [Shows, shape?] at h
      simp only [treeUpTo, Planted.id, Planted.tree, h]
  | node id type children ih =>
      simp only [Planted.ids, List.length_cons] at hd
      obtain ⟨depth, rfl⟩ : ∃ d, depth = d + 1 := ⟨depth - 1, by omega⟩
      have hc : ∀ c ∈ children, f.treeUpTo depth c.id = c.tree := fun c hc =>
        ih c hc (h.child hc) (by have := Planted.length_ids_le_of_mem hc; omega)
      simp only [Shows, shape?] at h
      simp only [treeUpTo, Planted.id, Planted.tree, h.1, Planted.treesOf_eq_map, List.map_map]
      congr 1
      exact List.map_congr_left hc

/-- Of the elements of a shown tree, the leaves are those of the tree. -/
theorem Shows.filter_isLeaf {p : Planted} (h : f.Shows p) :
    p.ids.filter f.isLeaf = p.leaves.map Prod.fst := by
  induction p using Planted.induction with
  | leaf id t =>
      simp only [Shows] at h
      simp [Planted.ids, Planted.leaves, isLeaf, token?_eq_shape?, h]
  | node id type children ih =>
      have hc : ∀ c ∈ children, c.ids.filter f.isLeaf = c.leaves.map Prod.fst := fun c hc =>
        ih c hc (h.child hc)
      simp only [Shows] at h
      have hid : f.isLeaf id = false := by simp [isLeaf, token?_eq_shape?, h.1]
      simp only [Planted.ids, Planted.leaves, List.filter_cons, hid, Bool.false_eq_true, if_false]
      clear h ih hid
      induction children with
      | nil => rfl
      | cons c cs ih =>
          simp only [Planted.idsOf, Planted.leavesOf, List.filter_append, List.map_append,
            hc c (by simp), ih fun d hd => hc d (List.mem_cons_of_mem _ hd)]

/-- Each leaf of a shown tree has its token. -/
theorem Shows.token?_of_mem {p : Planted} (h : f.Shows p) {x : ElementId × Token}
    (hx : x ∈ p.leaves) : f.token? x.1 = some x.2 := by
  induction p using Planted.induction with
  | leaf id t =>
      obtain rfl : x = (id, t) := by simpa [Planted.leaves] using hx
      exact shape?_eq_leaf_iff.1 h
  | node id type children ih =>
      have hc : ∃ c ∈ children, x ∈ c.leaves := by
        simp only [Planted.leaves] at hx
        clear h ih
        induction children with
        | nil => simp [Planted.leavesOf] at hx
        | cons c cs ih =>
            rcases List.mem_append.1 hx with hx | hx
            · exact ⟨c, by simp, hx⟩
            · obtain ⟨d, hd, hx⟩ := ih hx
              exact ⟨d, List.mem_cons_of_mem _ hd, hx⟩
      obtain ⟨c, hc, hx⟩ := hc
      exact ih c hc (h.child hc) hx

/-- The leaves of a shown tree that the forest has room for. -/
theorem Shows.leaves_eq {p : Planted} (h : f.Shows p) (hroom : p.ids.length ≤ f.size + 1) :
    f.leaves p.id = p.leaves.map Prod.fst := by
  simp only [leaves, below, h.belowUpTo_eq hroom, h.filter_isLeaf]

/-- The text of a shown tree that the forest has room for. -/
theorem Shows.text_eq {p : Planted} (h : f.Shows p) (hroom : p.ids.length ≤ f.size + 1) :
    f.text p.id = p.tree.text := by
  have ht : p.leaves.map (f.ownText ∘ Prod.fst) = p.leaves.map (Token.text ∘ Prod.snd) :=
    List.map_congr_left fun x hx => by simp [ownText, h.token?_of_mem hx]
  simp only [text, Tree.text, h.leaves_eq hroom, Planted.leaves_tree, List.map_map, ht]

/-! ### What a forest reads off a stored tree -/

/-- A forest has room for the trees that it stores. -/
theorem Stores.room {p : Planted} (h : f.Stores outer? p) (hn : p.ids.Nodup) :
    p.ids.length ≤ f.size + 1 :=
  Nat.le_succ_of_le (h.length_ids_le hn)

/-- The elements below the root of a stored tree. -/
theorem Stores.below_eq {p : Planted} (h : f.Stores outer? p) (hn : p.ids.Nodup) :
    f.below p.id = p.ids :=
  h.shows.belowUpTo_eq (h.room hn)

/-- Of the elements of a stored tree, the leaves are those of the tree. -/
theorem Stores.filter_isLeaf {p : Planted} (h : f.Stores outer? p) :
    p.ids.filter f.isLeaf = p.leaves.map Prod.fst :=
  h.shows.filter_isLeaf

/-- The leaves of a stored tree. -/
theorem Stores.leaves_eq {p : Planted} (h : f.Stores outer? p) (hn : p.ids.Nodup) :
    f.leaves p.id = p.leaves.map Prod.fst :=
  h.shows.leaves_eq (h.room hn)

/-- Each leaf of a stored tree has its token. -/
theorem Stores.token?_of_mem {p : Planted} (h : f.Stores outer? p) {x : ElementId × Token}
    (hx : x ∈ p.leaves) : f.token? x.1 = some x.2 :=
  h.shows.token?_of_mem hx

/-- The text of a stored leaf is that of its token. -/
theorem Stores.ownText_of_mem {p : Planted} (h : f.Stores outer? p) {x : ElementId × Token}
    (hx : x ∈ p.leaves) : f.ownText x.1 = x.2.text := by
  simp [ownText, h.token?_of_mem hx]

/-- The text of a stored tree. -/
theorem Stores.text_eq {p : Planted} (h : f.Stores outer? p) (hn : p.ids.Nodup) :
    f.text p.id = p.tree.text :=
  h.shows.text_eq (h.room hn)

/-- The tree of a stored tree. -/
theorem Stores.tree_eq {p : Planted} (h : f.Stores outer? p) (hn : p.ids.Nodup) :
    f.tree p.id = p.tree :=
  h.shows.treeUpTo_eq (h.length_ids_le hn)

end

/-! ### Planting -/

end Forest

mutual

/-- A tree with the ids that planting gives it, its root having the given one. -/
def Tree.plantedFrom (id : ElementId) : Tree → Planted
  | .leaf t => .leaf id t
  | .node type children => .node id type (Tree.plantedAllFrom (id + 1) children)

/-- Trees side by side with the ids that planting gives them. -/
def Tree.plantedAllFrom (id : ElementId) : List Tree → List Planted
  | [] => []
  | t :: ts => t.plantedFrom id :: Tree.plantedAllFrom (id + t.size) ts

end

namespace Tree

/-- A planted tree has the id that it was planted from. -/
@[simp]
theorem id_plantedFrom (id : ElementId) (t : Tree) : (t.plantedFrom id).id = id := by
  cases t <;> rfl

/-- Trees planted side by side have the ids at which each of them starts. -/
theorem map_id_plantedAllFrom (id : ElementId) (ts : List Tree) :
    (plantedAllFrom id ts).map Planted.id = startsFrom id ts := by
  induction ts generalizing id with
  | nil => rfl
  | cons t ts ih => simp [plantedAllFrom, startsFrom, ih]

mutual

/-- Planting changes nothing but the ids. -/
theorem tree_plantedFrom (id : ElementId) : (t : Tree) → (t.plantedFrom id).tree = t
  | leaf _ => rfl
  | node _ children => by
    simp only [plantedFrom, Planted.tree, treesOf_plantedAllFrom (id + 1) children]

/-- Planting trees side by side and taking the ids off again gives the trees. -/
theorem treesOf_plantedAllFrom (id : ElementId) : (ts : List Tree) →
    Planted.treesOf (plantedAllFrom id ts) = ts
  | [] => rfl
  | t :: ts => by
    simp only [plantedAllFrom, Planted.treesOf, tree_plantedFrom id t,
      treesOf_plantedAllFrom (id + t.size) ts]

end

mutual

/-- Planting numbers the elements one after the other. -/
theorem ids_plantedFrom (id : ElementId) : (t : Tree) →
    (t.plantedFrom id).ids = List.range' id t.size
  | leaf _ => rfl
  | node _ children => by
    simp only [plantedFrom, Planted.ids, size, idsOf_plantedAllFrom (id + 1) children,
      List.range'_succ]

/-- Trees planted side by side take one id after the other, from the first one on. -/
theorem idsOf_plantedAllFrom (id : ElementId) : (ts : List Tree) →
    Planted.idsOf (plantedAllFrom id ts) = List.range' id (Tree.sizeOf ts)
  | [] => rfl
  | t :: ts => by
    simp only [plantedAllFrom, Planted.idsOf, Tree.sizeOf, ids_plantedFrom id t,
      idsOf_plantedAllFrom (id + t.size) ts, List.range'_append_1]

end

end Tree

namespace Forest

/-- The forest has the elements of the list from an id on. -/
def HasFrom (f : Forest) (id : ElementId) (es : List Element) : Prop :=
  ∀ i, i < es.length → f.get? (id + i) = es[i]?

/-- The first element of the list is stored at the first of its ids. -/
theorem HasFrom.head {f : Forest} {id : ElementId} {e : Element} {es : List Element}
    (h : f.HasFrom id (e :: es)) : f.get? id = some e := by
  simpa using h 0 (by simp)

/-- A list in two parts is stored as the first part, and the second part after it. -/
theorem hasFrom_append {f : Forest} {id : ElementId} {es ds : List Element}
    (h : f.HasFrom id (es ++ ds)) : f.HasFrom id es ∧ f.HasFrom (id + es.length) ds := by
  constructor
  · intro i hi
    rw [h i (by simp; omega), List.getElem?_append_left hi]
  · intro i hi
    rw [Nat.add_assoc, h (es.length + i) (by simp; omega),
      List.getElem?_append_right (by omega), Nat.add_sub_cancel_left]

mutual

/-- A forest that has the elements of a laid out tree stores the tree. -/
theorem stores_of_hasFrom {f : Forest} {parent? : Option ElementId} {id : ElementId} :
    (t : Tree) → f.HasFrom id (t.layout parent? id) → f.Stores parent? (t.plantedFrom id)
  | .leaf t, h => by
    simp only [Tree.layout] at h
    simpa only [Tree.plantedFrom, Stores] using h.head
  | .node type children, h => by
    simp only [Tree.layout] at h
    simp only [Tree.plantedFrom, Stores, Tree.map_id_plantedAllFrom]
    refine ⟨h.head, storesAll_of_hasFrom children ?_⟩
    exact (@hasFrom_append _ _ [_] _ h).2

/-- A forest that has the layout of trees from an id on stores these trees as planted from there. -/
theorem storesAll_of_hasFrom {f : Forest} {parent id : ElementId} :
    (ts : List Tree) → f.HasFrom id (Tree.layoutOf parent id ts) →
      f.StoresAll parent (Tree.plantedAllFrom id ts)
  | [], _ => trivial
  | t :: ts, h => by
    simp only [Tree.layoutOf] at h
    obtain ⟨ht, hts⟩ := hasFrom_append h
    rw [Tree.length_layout] at hts
    exact ⟨stores_of_hasFrom t ht, storesAll_of_hasFrom ts hts⟩

end

/-- **Planting a tree stores it** under fresh ids. -/
theorem holds_plant (f : Forest) (t : Tree) : (f.plant t).1.Holds (t.plantedFrom f.size) := by
  refine ⟨stores_of_hasFrom t ?_, ?_⟩
  · intro i hi
    simp only [plant, get?, size, Array.getElem?_append]
    rw [if_neg (by omega), Nat.add_sub_cancel_left, List.getElem?_toArray]
  · rw [Tree.ids_plantedFrom]
    exact List.nodup_range'

section

variable {f : Forest} {p : Planted}

/-- The elements below a tree that a forest holds are the tree's ids. -/
theorem Holds.below_eq (h : f.Holds p) : f.below p.id = p.ids := h.stores.below_eq h.nodup

/-- The leaves below a tree that a forest holds are the tree's leaves. -/
theorem Holds.leaves_eq (h : f.Holds p) : f.leaves p.id = p.leaves.map Prod.fst :=
  h.stores.leaves_eq h.nodup

/-- The text below a tree that a forest holds is the tree's text. -/
theorem Holds.text_eq (h : f.Holds p) : f.text p.id = p.tree.text := h.stores.text_eq h.nodup

/-- Reading a tree off the forest that holds it gives the tree. -/
theorem Holds.tree_eq (h : f.Holds p) : f.tree p.id = p.tree := h.stores.tree_eq h.nodup

end

end Forest

end BnfSuppression
