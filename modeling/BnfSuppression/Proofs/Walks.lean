import BnfSuppression.Proofs.Planted.Place
import Mathlib.Data.List.TakeWhile

/-!
# Walks That End

The functions that move about in a forest carry a bound on their steps, and stop at the bound
whether or not there is more to find. This module gives the same movements as relations without any
bound: a derivation is a search that comes to its end by itself, so an element that holds itself,
or a leaf that comes back on the way, has none.

A stored tree has a derivation from every leaf in both directions, and the functions with a bound
find the same leaves.

## Main definitions

* `Forest.Meets`: the first leaf among elements side by side.
* `Forest.NextLeaf`: the next leaf outside an element.
* `Forest.Walks`: all leaves from one on.

## Main results

* `Forest.Walks.unique`: there is one way to walk.
* `Forest.Holds.walks`: **every walk through a stored tree ends**, behind the last leaf.
* `Forest.Holds.walk_eq`: a walk with a bound takes the same leaves.
-/

namespace BnfSuppression

open Planted (plug Place)

/-- A list as it is met in a direction. -/
def Direction.order {α : Type _} (direction : Direction) (xs : List α) : List α :=
  match direction with
  | .forward => xs
  | .backward => xs.reverse

/-- A list has the same members in either direction. -/
@[simp]
theorem Direction.mem_order {α : Type _} {direction : Direction} {xs : List α} {x : α} :
    x ∈ direction.order xs ↔ x ∈ xs := by
  cases direction <;> simp [order]

/-- A list may be mapped before or after it is put in the order of a direction. -/
theorem Direction.order_map {α β : Type _} (direction : Direction) (g : α → β) (xs : List α) :
    direction.order (xs.map g) = (direction.order xs).map g := by
  cases direction <;> simp [order]

/-- The leaves of a tree in a direction are its leaves in the order of the direction. -/
theorem Planted.leavesToward_eq (p : Planted) (direction : Direction) :
    p.leavesToward direction = direction.order p.leaves := by
  cases direction <;> rfl

/-- The leaves of trees side by side, from whatever side they are met. -/
theorem Planted.order_leavesOf (direction : Direction) (ps : List Planted) :
    direction.order (leavesOf ps) =
      (direction.order ps).flatMap fun p => p.leavesToward direction := by
  cases direction with
  | forward =>
      induction ps with
      | nil => rfl
      | cons p ps ih =>
          simp only [Direction.order] at ih
          simp [Direction.order, leavesOf, leavesToward, ih]
  | backward =>
      induction ps with
      | nil => rfl
      | cons p ps ih =>
          simp only [Direction.order] at ih
          simp [Direction.order, leavesOf, leavesToward, ih]

namespace Forest

/-! ### Movements without a bound -/

/-- The search for the first leaf among elements, in the order in which they are met, ends with the
given result. -/
inductive Meets (f : Forest) (direction : Direction) :
    List ElementId → Option ElementId → Prop
  | nothing : Meets f direction [] none
  | leaf {id : ElementId} {ids : List ElementId} :
    f.isLeaf id = true → Meets f direction (id :: ids) (some id)
  | inside {id leaf : ElementId} {ids : List ElementId} :
    f.isLeaf id = false → Meets f direction (direction.order (f.children id)) (some leaf) →
    Meets f direction (id :: ids) (some leaf)
  | beyond {id : ElementId} {ids : List ElementId} {leaf? : Option ElementId} :
    f.isLeaf id = false → Meets f direction (direction.order (f.children id)) none →
    Meets f direction ids leaf? → Meets f direction (id :: ids) leaf?

/-- The search for the next leaf outside an element ends with the given result. -/
inductive NextLeaf (f : Forest) (direction : Direction) :
    ElementId → Option ElementId → Prop
  | outermost {id : ElementId} : f.parent? id = none → NextLeaf f direction id none
  | beside {id parent leaf : ElementId} {index : Nat} :
    f.parent? id = some parent → (f.children parent).idxOf? id = some index →
    f.Meets direction (siblings direction (f.children parent) index) (some leaf) →
    NextLeaf f direction id (some leaf)
  | above {id parent : ElementId} {index : Nat} {leaf? : Option ElementId} :
    f.parent? id = some parent → (f.children parent).idxOf? id = some index →
    f.Meets direction (siblings direction (f.children parent) index) none →
    NextLeaf f direction parent leaf? → NextLeaf f direction id leaf?

/-- The walk from a leaf on ends, after the given leaves. -/
inductive Walks (f : Forest) (direction : Direction) : ElementId → List ElementId → Prop
  | last {id : ElementId} : f.NextLeaf direction id none → Walks f direction id [id]
  | next {id leaf : ElementId} {run : List ElementId} :
    f.NextLeaf direction id (some leaf) → Walks f direction leaf run →
    Walks f direction id (id :: run)

section

variable {f : Forest} {direction : Direction}

/-- A search has one result. -/
theorem Meets.unique {ids : List ElementId} {a? b? : Option ElementId}
    (ha : f.Meets direction ids a?) (hb : f.Meets direction ids b?) : a? = b? := by
  induction ha generalizing b? with
  | nothing =>
      cases hb
      rfl
  | leaf hl =>
      cases hb with
      | leaf => rfl
      | inside hn _ => simp [hl] at hn
      | beyond hn _ _ => simp [hl] at hn
  | inside hn _ ih =>
      cases hb with
      | leaf hl => simp [hn] at hl
      | inside _ hm => exact ih hm
      | beyond _ hm _ => exact absurd (ih hm) (by simp)
  | beyond hn _ _ ih ihs =>
      cases hb with
      | leaf hl => simp [hn] at hl
      | inside _ hm => exact absurd (ih hm) (by simp)
      | beyond _ _ hm => exact ihs hm

/-- The search for the next leaf has only one result. -/
theorem NextLeaf.unique {id : ElementId} {a? b? : Option ElementId}
    (ha : f.NextLeaf direction id a?) (hb : f.NextLeaf direction id b?) : a? = b? := by
  induction ha generalizing b? with
  | outermost hp =>
      cases hb with
      | outermost => rfl
      | beside hq _ _ => simp [hp] at hq
      | above hq _ _ _ => simp [hp] at hq
  | beside hp hi hm =>
      cases hb with
      | outermost hq => simp [hp] at hq
      | beside hq hj hn =>
          obtain rfl := Option.some.inj (hp.symm.trans hq)
          obtain rfl := Option.some.inj (hi.symm.trans hj)
          exact hm.unique hn
      | above hq hj hn _ =>
          obtain rfl := Option.some.inj (hp.symm.trans hq)
          obtain rfl := Option.some.inj (hi.symm.trans hj)
          exact absurd (hm.unique hn) (by simp)
  | above hp hi hm _ ih =>
      cases hb with
      | outermost hq => simp [hp] at hq
      | beside hq hj hn =>
          obtain rfl := Option.some.inj (hp.symm.trans hq)
          obtain rfl := Option.some.inj (hi.symm.trans hj)
          exact absurd (hm.unique hn) (by simp)
      | above hq hj _ hb =>
          obtain rfl := Option.some.inj (hp.symm.trans hq)
          exact ih hb

/-- **There is one way to walk.** -/
theorem Walks.unique {id : ElementId} {run run' : List ElementId} (h : f.Walks direction id run)
    (h' : f.Walks direction id run') : run = run' := by
  induction h generalizing run' with
  | last hn =>
      cases h' with
      | last => rfl
      | next hn' _ => exact absurd (hn.unique hn') (by simp)
  | next hn _ ih =>
      cases h' with
      | last hn' => exact absurd (hn.unique hn') (by simp)
      | next hn' hw =>
          obtain rfl := Option.some.inj (hn.unique hn')
          rw [ih hw]

/-! ### In a stored tree -/

/-- A search comes to its end in a stored tree. -/
theorem Stores.meets {outer? : Option ElementId} {p : Planted} (h : f.Stores outer? p)
    {ids : List ElementId} {leaf? : Option ElementId} (hm : f.Meets direction ids leaf?) :
    f.Meets direction (p.id :: ids)
      (((p.leavesToward direction).head?.map Prod.fst).or leaf?) := by
  induction p using Planted.induction generalizing outer? ids leaf? with
  | leaf id t =>
      have hhead : (Planted.leaf id t).leavesToward direction = [(id, t)] := by
        cases direction <;> rfl
      rw [hhead]
      exact .leaf (by simp [isLeaf, Planted.id, h.token?_eq])
  | node id type children ih =>
      have hleaf : f.isLeaf id = false := by simp [isLeaf, h.token?_node]
      -- the children, one after the other
      have hchildren : ∀ ps : List Planted, (∀ p ∈ ps, p ∈ children) →
          f.Meets direction (ps.map Planted.id)
            ((ps.flatMap fun p => p.leavesToward direction).head?.map Prod.fst) := by
        intro ps hps
        induction ps with
        | nil => exact .nothing
        | cons p ps ihs =>
            have hp : p ∈ children := hps p (by simp)
            have hmeets := ih p hp (h.child hp) (ihs fun q hq => hps q (by simp [hq]))
            rwa [List.map_cons, List.flatMap_cons, List.head?_append, Option.map_or]
      have hall := hchildren (direction.order children) fun p hp => Direction.mem_order.1 hp
      rw [← Planted.order_leavesOf, ← Direction.order_map, ← h.children_node] at hall
      rw [Planted.leavesToward_eq, Planted.leaves]
      cases hl : direction.order (Planted.leavesOf children) with
      | nil =>
          rw [hl] at hall
          exact .beyond hleaf hall hm
      | cons x xs =>
          rw [hl] at hall
          exact .inside hleaf hall

/-- The siblings on one side of a place are searched to their end. -/
theorem StoresAll.meets {parent : ElementId} {ps : List Planted} (h : f.StoresAll parent ps) :
    f.Meets direction ((direction.order ps).map Planted.id)
      ((direction.order (Planted.leavesOf ps)).head?.map Prod.fst) := by
  rw [Planted.order_leavesOf]
  have hall : ∀ p ∈ direction.order ps, f.Stores (some parent) p := fun p hp =>
    storesAll_iff.1 h p (Direction.mem_order.1 hp)
  generalize direction.order ps = qs at hall
  induction qs with
  | nil => exact .nothing
  | cons q qs ih =>
      have hmeets := (hall q (by simp)).meets (ih fun p hp => hall p (by simp [hp]))
      rwa [List.map_cons, List.flatMap_cons, List.head?_append, Option.map_or]

/-- The search among the siblings of a place finds the nearest leaf there. -/
theorem meets_siblings {c : Crumb} {hole : ElementId} (hl : f.StoresAll c.id c.left)
    (hr : f.StoresAll c.id c.right) :
    f.Meets direction
      (siblings direction (c.left.map Planted.id ++ hole :: c.right.map Planted.id) c.left.length)
      ((Place.beside [c] direction).head?.map Prod.fst) := by
  rw [siblings_eq]
  cases direction with
  | forward => simpa [Place.beside, Place.after, Direction.order] using @hr.meets _ .forward
  | backward => simpa [Place.beside, Place.before, Direction.order] using @hl.meets _ .backward

/-- From a place the search for the next leaf ends at the nearest leaf beside it. -/
theorem StoresAround.nextLeaf {cs : Place} {hole : ElementId} (h : f.StoresAround cs hole)
    (hp : f.parent? hole = cs.parent?) (hn : (hole :: cs.ids).Nodup) :
    f.NextLeaf direction hole ((cs.beside direction).head?.map Prod.fst) := by
  induction cs generalizing hole with
  | nil =>
      have hb : Place.beside [] direction = [] := by cases direction <;> rfl
      rw [hb]
      exact .outermost hp
  | cons c cs ih =>
      have hparent : f.parent? hole = some c.id := hp
      obtain ⟨hc, hl, hr, h⟩ := h
      have hc' : f.parent? c.id = Place.parent? cs := by simp [parent?, hc]
      have hchildren : f.children c.id =
          c.left.map Planted.id ++ hole :: c.right.map Planted.id := by
        simp [children, hc, Shape.children]
      simp only [Place.ids, List.cons_append, List.nodup_cons, List.nodup_append,
        List.mem_cons, List.mem_append, not_or] at hn
      obtain ⟨⟨-, ⟨hole_left, -⟩, -⟩, ⟨-, c_ids⟩, -, hcs, -⟩ := hn
      have hindex : (f.children c.id).idxOf? hole = some c.left.length := by
        rw [hchildren, idxOf?_hole hole_left]
      have hmeets := @meets_siblings f direction c hole hl hr
      rw [← hchildren] at hmeets
      rw [Place.beside_cons, List.head?_append, Option.map_or]
      cases hb : Place.beside [c] direction with
      | nil =>
          rw [hb] at hmeets
          exact .above hparent hindex hmeets (ih h hc' (List.nodup_cons.2 ⟨c_ids, hcs⟩))
      | cons x xs =>
          rw [hb] at hmeets
          exact .beside hparent hindex hmeets

/-- From leaf to leaf, the search for the next one ends. -/
theorem Holds.nextLeaf {q : Planted} (h : f.Holds q) {pre post : List (ElementId × Token)}
    {x : ElementId × Token} (hq : q.leavesToward direction = pre ++ x :: post) :
    f.NextLeaf direction x.1 (post.head?.map Prod.fst) := by
  obtain ⟨cs, rfl, rfl⟩ := Planted.exists_place_of_leavesToward hq
  exact h.around.nextLeaf h.parent?_eq h.nodup_hole

/-- **Every walk through a stored tree ends**, behind the last leaf in its direction. -/
theorem Holds.walks {q : Planted} (h : f.Holds q) {pre post : List (ElementId × Token)}
    {x : ElementId × Token} (hq : q.leavesToward direction = pre ++ x :: post) :
    f.Walks direction x.1 ((x :: post).map Prod.fst) := by
  induction post generalizing pre x with
  | nil => exact .last (h.nextLeaf hq)
  | cons y post ih =>
      have hq' : q.leavesToward direction = (pre ++ [x]) ++ y :: post := by simpa using hq
      exact .next (h.nextLeaf hq) (ih hq')

/-- A walk with a bound takes the leaves from the given one on. -/
theorem Holds.walk_eq {q : Planted} (h : f.Holds q) {pre post : List (ElementId × Token)}
    {x : ElementId × Token} (hq : q.leavesToward direction = pre ++ x :: post) :
    f.walk direction (.leaf x.1) = ⟨(x :: post).map Prod.fst, .edge⟩ := by
  have hx : x :: post <:+ q.leavesToward direction := ⟨pre, hq.symm⟩
  have hw := h.walkWhile_eq (fun _ => true) hx
  have ht : (x :: post).map Prod.fst = ((x :: post).map Prod.fst).takeWhile fun _ => true :=
    (List.takeWhile_eq_self_iff.2 fun _ _ => rfl).symm
  have hd : ((x :: post).dropWhile fun _ => true) = [] := List.dropWhile_eq_nil_iff.2 fun _ _ => rfl
  rw [walk, ht]
  rwa [hd] at hw

/-- Without a parent a leaf is all of its walks. -/
theorem walks_of_parent? {id : ElementId} (h : f.parent? id = none) :
    f.Walks direction id [id] ∧ f.walk direction (.leaf id) = ⟨[id], .edge⟩ := by
  have hstep : f.step direction id = .edge := by
    unfold step
    cases f.size with
    | zero => rfl
    | succ height => simp [stepUpTo, h]
  refine ⟨.last (.outermost h), ?_⟩
  unfold walk walkWhile
  rw [walkUpTo]
  simp only [if_true, hstep]
  cases f.size <;> rfl

end

end Forest

end BnfSuppression
