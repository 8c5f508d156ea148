import BnfSuppression.Proofs.Walks

/-!
# Leaves by Index

Moving about in a stored tree is reading off one list, the leaves of the tree in the order of the
text. An element has an index in that list, the number of leaves before it; its own leaves go on
from there, and a composite that holds no leaf, however deep it is nested, takes up no room at all.
The leaves before and after an element and the first and the last one in it are at these indices.

## Main definitions

* `Forest.leafIndex`: the index of an element.
* `Forest.StandsAt`: the leaves around and in an element are those at its indices.

## Main results

* `Forest.Holds.standsAt`: every element of a stored tree stands at its index.
* `Forest.Holds.navigation`: **moving about in a tree is reading off its leaves**, and the walks
  from one end of the tree lead to the other.
-/

namespace BnfSuppression

open Planted (plug Place)

/-! ### Elements in front of a place -/

namespace Planted

namespace Place

/-- The ids of the elements that come before a place, those around it included. -/
def idsBefore : Place → List ElementId
  | [] => []
  | c :: cs => idsBefore cs ++ c.id :: idsOf c.left

/-- The ids of the elements that come after a place. -/
def idsAfter : Place → List ElementId
  | [] => []
  | c :: cs => idsOf c.right ++ idsAfter cs

end Place

/-- A place splits the ids of the tree. -/
theorem ids_plug (cs : Place) (p : Planted) :
    (plug cs p).ids = cs.idsBefore ++ p.ids ++ cs.idsAfter := by
  induction cs generalizing p with
  | nil => simp [plug, Place.idsBefore, Place.idsAfter]
  | cons c cs ih => simp [plug, ih, ids, idsOf, Place.idsBefore, Place.idsAfter]

/-- The ids of a tree start with that of its topmost element. -/
theorem exists_ids_eq_cons (p : Planted) : ∃ is, p.ids = p.id :: is := by
  cases p <;> exact ⟨_, rfl⟩

end Planted

/-- Where one arrives if the next leaf is the given one. -/
def Step.ofLeaf? : Option ElementId → Step
  | none => .edge
  | some id => .leaf id

/-- Where one arrives depends on the nearest leaf alone. -/
theorem Step.ofHead_eq (xs : List (ElementId × Token)) :
    Step.ofHead xs = .ofLeaf? (xs.head?.map Prod.fst) := by
  cases xs <;> rfl

namespace Forest

/-- The number of leaves before an element of a tree. -/
def leafIndex (f : Forest) (root e : ElementId) : Nat :=
  (((f.below root).takeWhile (· != e)).filter f.isLeaf).length

/-- From an element on, the next leaf outside of it is the given one. -/
def Moves (f : Forest) (direction : Direction) (e : ElementId) (leaf? : Option ElementId) : Prop :=
  f.NextLeaf direction e leaf? ∧ f.step direction e = .ofLeaf? leaf?

/-- The leaf at which an element is entered is the given one. -/
def Enters (f : Forest) (direction : Direction) (e : ElementId) (leaf? : Option ElementId) : Prop :=
  f.Meets direction [e] leaf? ∧ f.nearestLeaf? direction e = leaf?

/-- The leaves of the element are those from the index `i` to before the index `j`, and what a
forest tells of the leaves around and in the element is at these indices. -/
structure StandsAt (f : Forest) (leaves : List ElementId) (i j : Nat) (e : ElementId) : Prop where
  le_length : j ≤ leaves.length
  leaves_eq : f.leaves e = (leaves.take j).drop i
  previous : f.Moves .backward e (if i = 0 then none else leaves[i - 1]?)
  next : f.Moves .forward e (if j = leaves.length then none else leaves[j]?)
  first : f.Enters .forward e (if i < j then leaves[i]? else none)
  last : f.Enters .backward e (if i < j then leaves[j - 1]? else none)

section

variable {f : Forest} {cs : Place} {p : Planted} {direction : Direction}

/-- An element stands between the leaves before it and those after it. -/
theorem standsAt_append {before own after : List ElementId} {e : ElementId}
    (hown : f.leaves e = own) (hprevious : f.Moves .backward e before.getLast?)
    (hnext : f.Moves .forward e after.head?) (hfirst : f.Enters .forward e own.head?)
    (hlast : f.Enters .backward e own.getLast?) :
    f.StandsAt (before ++ own ++ after) before.length (before.length + own.length) e where
  le_length := by simp
  leaves_eq := by
    rw [hown, ← List.length_append, List.take_left, List.drop_left]
  previous := by
    have hindex : (if before.length = 0 then none
        else (before ++ own ++ after)[before.length - 1]?) = before.getLast? := by
      split
      · next h =>
        rw [List.length_eq_zero_iff.1 h]
        rfl
      · next h =>
        rw [List.append_assoc, List.getElem?_append_left (by omega), List.getLast?_eq_getElem?]
    rwa [hindex]
  next := by
    have hindex : (if before.length + own.length = (before ++ own ++ after).length then none
        else (before ++ own ++ after)[before.length + own.length]?) = after.head? := by
      rw [← List.length_append, List.getElem?_append_right (Nat.le_refl _), Nat.sub_self,
        List.head?_eq_getElem?]
      split
      · next h =>
        have hnil : after = [] := by simpa using h
        rw [hnil]
        rfl
      · rfl
    rwa [hindex]
  first := by
    have hindex : (if before.length < before.length + own.length then
        (before ++ own ++ after)[before.length]? else none) = own.head? := by
      split
      · next h =>
        rw [List.append_assoc, List.getElem?_append_right (Nat.le_refl _), Nat.sub_self,
          List.getElem?_append_left (by omega), List.head?_eq_getElem?]
      · next h =>
        rw [List.length_eq_zero_iff.1 (by omega : own.length = 0)]
        rfl
    rwa [hindex]
  last := by
    have hindex : (if before.length < before.length + own.length then
        (before ++ own ++ after)[before.length + own.length - 1]? else none) = own.getLast? := by
      split
      · next h =>
        rw [List.append_assoc, List.getElem?_append_right (by omega),
          List.getElem?_append_left (by omega), List.getLast?_eq_getElem?]
        congr 1
        omega
      · next h =>
        rw [List.length_eq_zero_iff.1 (by omega : own.length = 0)]
        rfl
    rwa [hindex]

/-! ### The index of a place -/

/-- Of the elements of stored trees side by side, those that are leaves are the trees' leaves. -/
theorem StoresAll.filter_isLeaf {parent : ElementId} {ps : List Planted}
    (h : f.StoresAll parent ps) :
    (Planted.idsOf ps).filter f.isLeaf = (Planted.leavesOf ps).map Prod.fst := by
  induction ps with
  | nil => rfl
  | cons p ps ih =>
      rw [Planted.idsOf, Planted.leavesOf, List.filter_append, List.map_append,
        h.1.filter_isLeaf, ih h.2]

/-- Of the elements before a place, the leaves are those before it. -/
theorem StoresAround.filter_isLeaf {hole : ElementId} (h : f.StoresAround cs hole) :
    cs.idsBefore.filter f.isLeaf = cs.before.map Prod.fst := by
  induction cs generalizing hole with
  | nil => rfl
  | cons c cs ih =>
      obtain ⟨hc, hl, -, h⟩ := h
      have hleaf : f.isLeaf c.id = false := by simp [isLeaf, token?, hc]
      rw [Place.idsBefore, Place.before, List.filter_append, List.map_append, ih h,
        List.filter_cons_of_neg (by simp [hleaf]), hl.filter_isLeaf]

/-- **The index of an element is the number of leaves before its place.** -/
theorem Holds.leafIndex_eq (h : f.Holds (plug cs p)) :
    f.leafIndex (plug cs p).id p.id = cs.before.length := by
  obtain ⟨is, his⟩ := p.exists_ids_eq_cons
  have hids : (plug cs p).ids = cs.idsBefore ++ p.id :: (is ++ cs.idsAfter) := by
    rw [Planted.ids_plug, his]
    simp
  have hne : ∀ i ∈ cs.idsBefore, (i != p.id) = true := by
    have hn := h.nodup
    rw [hids, List.nodup_append] at hn
    exact fun i hi => bne_iff_ne.2 (hn.2.2 i hi p.id List.mem_cons_self)
  rw [leafIndex, h.below_eq, hids, List.takeWhile_append_of_pos hne,
    List.takeWhile_cons_of_neg (by simp), List.append_nil, h.around.filter_isLeaf,
    List.length_map]

/-! ### Moving and entering -/

/-- From what stands at a place, the next leaf in a direction is the nearest one beside the
place. -/
theorem Holds.moves (h : f.Holds (plug cs p)) (direction : Direction) :
    f.Moves direction p.id ((cs.beside direction).head?.map Prod.fst) :=
  ⟨h.around.nextLeaf h.parent?_eq h.nodup_hole, by rw [h.step_eq, Step.ofHead_eq]⟩

/-- What stands at a place is entered at its first leaf in the direction. -/
theorem Holds.enters (h : f.Holds (plug cs p)) (direction : Direction) :
    f.Enters direction p.id ((p.leavesToward direction).head?.map Prod.fst) := by
  constructor
  · simpa using h.stores_at.meets (@Meets.nothing f direction)
  · cases direction with
    | forward => exact h.stores_at.firstLeaf?_eq h.nodup_at
    | backward =>
        rw [Planted.leavesToward, List.head?_reverse]
        exact h.stores_at.lastLeaf?_eq h.nodup_at

/-- **Every element of a stored tree stands at its index.** -/
theorem Holds.standsAt (h : f.Holds p) {e : ElementId} (he : e ∈ f.below p.id) :
    f.StandsAt (f.leaves p.id) (f.leafIndex p.id e)
      (f.leafIndex p.id e + (f.leaves e).length) e := by
  rw [h.below_eq] at he
  obtain ⟨cs, q, rfl, rfl⟩ := Planted.exists_place he
  have hown := h.stores_at.leaves_eq h.nodup_at
  have hbefore : f.leafIndex (plug cs q).id q.id = (cs.before.map Prod.fst).length := by
    rw [h.leafIndex_eq, List.length_map]
  rw [hbefore, h.leaves_eq, hown, Planted.leaves_plug, List.map_append, List.map_append]
  refine standsAt_append hown ?_ ?_ ?_ ?_
  · simpa [Place.beside] using h.moves .backward
  · simpa [Place.beside] using h.moves .forward
  · simpa [Planted.leavesToward] using h.enters .forward
  · simpa [Planted.leavesToward] using h.enters .backward

/-! ### From one end to the other -/

/-- The walk from the first leaf in a direction takes all leaves, and ends behind the last one. -/
theorem Holds.walks_all (h : f.Holds p) (direction : Direction) {first : ElementId}
    (hfirst : f.nearestLeaf? direction p.id = some first) :
    f.Walks direction first (direction.order (f.leaves p.id)) ∧
      f.walk direction (.leaf first) = ⟨direction.order (f.leaves p.id), .edge⟩ := by
  rw [h.leaves_eq, Direction.order_map, ← Planted.leavesToward_eq]
  have henters : f.nearestLeaf? direction p.id =
      (p.leavesToward direction).head?.map Prod.fst := (@Holds.enters f [] p h direction).2
  obtain ⟨x, hx, rfl⟩ := Option.map_eq_some_iff.1 (henters.symm.trans hfirst)
  obtain ⟨post, hpost⟩ := List.head?_eq_some_iff.1 hx
  have hsplit : p.leavesToward direction = [] ++ x :: post := hpost
  rw [hpost]
  exact ⟨h.walks hsplit, h.walk_eq hsplit⟩

/-- **Moving about in a tree is reading off its leaves.** Of the leaves of the tree in the order of
the text, let `i` be the number of those before an element, and `j` be `i` and the number of those
in it. The leaf before the element is at `i - 1`, the leaf after it at `j`, and its own first and
last leaf are at `i` and `j - 1`, if there are such. In both directions the walk from the first leaf
takes all leaves of the tree and ends. -/
theorem Holds.navigation (h : f.Holds p) :
    (∀ e ∈ f.below p.id, f.StandsAt (f.leaves p.id) (f.leafIndex p.id e)
      (f.leafIndex p.id e + (f.leaves e).length) e) ∧
    ∀ direction, f.walk direction (.ofLeaf? (f.nearestLeaf? direction p.id)) =
        ⟨direction.order (f.leaves p.id), .edge⟩ ∧
      ∀ first, f.nearestLeaf? direction p.id = some first →
        f.Walks direction first (direction.order (f.leaves p.id)) := by
  refine ⟨fun e he => h.standsAt he, fun direction => ⟨?_, fun first hfirst => ?_⟩⟩
  · cases hfirst : f.nearestLeaf? direction p.id with
    | none =>
        have hnone : f.leaves p.id = [] := by
          cases direction <;> simpa [nearestLeaf?, firstLeaf?, lastLeaf?] using hfirst
        rw [hnone, Step.ofLeaf?, walk, walkWhile, walkUpTo]
        · cases direction <;> rfl
        · simp
    | some first => exact (h.walks_all direction hfirst).2
  · exact (h.walks_all direction hfirst).1

/-- Around and in an expression that holds nothing but an empty value. -/
theorem Holds.navigation_of_empty :
    let t : Tree := .node .file [.node .attrs [], .leaf ⟨.identifier, "a"⟩,
      .node .rule [.node .expression [.node .value []], .leaf ⟨.operator, ";"⟩]]
    let f := (empty.plant t).1
    f.Moves .backward 4 (some 2) ∧ f.Moves .forward 4 (some 6) ∧ f.Enters .forward 4 none ∧
      f.Moves .backward 1 none ∧ f.Walks .forward 2 [2, 6] ∧ f.Walks .backward 6 [6, 2] := by
  intro t f
  have hroot : (t.plantedFrom empty.size).id = 0 := by decide +kernel
  have hleaves : f.leaves 0 = [2, 6] := by decide +kernel
  obtain ⟨hat, hwalk⟩ := Holds.navigation (holds_plant empty t)
  rw [hroot, hleaves] at hat hwalk
  have hempty : ∀ {e i}, e ∈ f.below 0 → f.leafIndex 0 e = i → f.leaves e = [] →
      f.StandsAt [2, 6] i i e := by
    intro e i he hi hown
    have hstands := hat e he
    rwa [hi, hown] at hstands
  have hexpression : f.StandsAt [2, 6] 1 1 4 :=
    hempty (by decide +kernel) (by decide +kernel) (by decide +kernel)
  have hattrs : f.StandsAt [2, 6] 0 0 1 :=
    hempty (by decide +kernel) (by decide +kernel) (by decide +kernel)
  exact ⟨hexpression.previous, hexpression.next, hexpression.first, hattrs.previous,
    (hwalk .forward).2 2 (by decide +kernel), (hwalk .backward).2 6 (by decide +kernel)⟩

end

end Forest

end BnfSuppression
