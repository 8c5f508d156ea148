import BnfSuppression.Document
import BnfSuppression.Proofs.Planted.Place

/-!
# Edits as Changes of a Tree

An edit of a document replaces elements among the children of one composite, by index, and names
elements by ids. This module ties it to what it does to the tree: a `Change` splits the tree at the
place of the edit, and running the edit in a forest that stores the tree on one side gives a forest
that stores the tree on the other side.

Sessions also create leaves that stand nowhere yet. `Forest.Grows` is the relation between a forest
and one with more such leaves, and `Forest.Comprises` says that a forest is made of one tree and of
such leaves alone.

## Main results

* `Forest.get?_splice`: what a splice does to each element.
* `Edit.inverse_run_run`: **undoing an edit right after it gives back the same forest**.
* `Edit.grows_run`: edits do not touch leaves that were created since.
* `Forest.Allows.holds_run`: **an edit turns the tree on one side of its change into the other**,
  whatever else the forest holds.
* `Forest.Admits.comprises_run`: the same for a forest made of that tree and of leaves alone.
* `Forest.Holds.shows_run`: read downwards, this holds of leaves that stand somewhere already, too.
-/

namespace BnfSuppression

open Planted (plug Place)

/-- A tree with a composite at a place is a composite, whatever the one at the place holds. -/
theorem Planted.exists_plug_node (cs : Place) (id : ElementId) (type : ElementType) :
    ∃ id' type', ∀ ps, ∃ ps', plug cs (.node id type ps) = .node id' type' ps' := by
  induction cs generalizing id type with
  | nil => exact ⟨id, type, fun ps => ⟨ps, rfl⟩⟩
  | cons c cs ih =>
      obtain ⟨id', type', h⟩ := ih c.id c.type
      exact ⟨id', type', fun ps => h _⟩

/-! ### Splices -/

namespace Forest

/-- Forests with the same elements are the same. -/
theorem ext_get? {f g : Forest} (h : ∀ i, f.get? i = g.get? i) : f = g := by
  obtain ⟨es⟩ := f
  obtain ⟨ds⟩ := g
  simp only [Forest.mk.injEq]
  exact Array.ext_getElem? h

/-- Setting a parent pointer changes the one element, in its pointer alone. -/
theorem get?_setParent (f : Forest) (parent? : Option ElementId) (id i : ElementId) :
    (f.setParent parent? id).get? i =
      (f.get? i).map fun e => if i = id then { e with parent? } else e := by
  rw [setParent, get?_update]
  by_cases h : id = i
  · simp [h]
  · simp [h, Ne.symm h]

/-- Setting the parent pointers of several elements changes these, in their pointers alone. -/
theorem get?_setParents (f : Forest) (parent? : Option ElementId) (ids : List ElementId)
    (i : ElementId) :
    (f.setParents parent? ids).get? i =
      (f.get? i).map fun e => if i ∈ ids then { e with parent? } else e := by
  induction ids generalizing f with
  | nil => simp [setParents]
  | cons id ids ih =>
      have hs : f.setParents parent? (id :: ids) = (f.setParent parent? id).setParents parent? ids :=
        rfl
      rw [hs, ih, get?_setParent, Option.map_map]
      congr 1
      funext e
      by_cases hi : i ∈ ids <;> by_cases hid : i = id <;> simp [hi, hid]

/-- What a splice makes of an element. -/
def spliced (parent : ElementId) (index : Nat) (removed inserted : List ElementId)
    (i : ElementId) (e : Element) : Element where
  shape := if i = parent then e.shape.mapChildren (replaceAt index removed inserted) else e.shape
  parent? := if i ∈ inserted then some parent else if i ∈ removed then none else e.parent?

/-- **What a splice does to each element.** -/
theorem get?_splice (f : Forest) (parent : ElementId) (index : Nat)
    (removed inserted : List ElementId) (i : ElementId) :
    (f.splice parent index removed inserted).get? i =
      (f.get? i).map (spliced parent index removed inserted i) := by
  rw [splice, mapChildren, get?_update, get?_setParents, get?_setParents]
  cases f.get? i with
  | none => simp
  | some e =>
      simp only [Option.map_some]
      by_cases hp : parent = i
      · subst hp
        by_cases hi : parent ∈ inserted <;> by_cases hr : parent ∈ removed <;>
          simp [spliced, hi, hr]
      · by_cases hi : i ∈ inserted <;> by_cases hr : i ∈ removed <;>
          simp [spliced, hp, Ne.symm hp, hi, hr]

/-- Setting parent pointers stores no new element. -/
@[simp]
theorem size_setParents (f : Forest) (parent? : Option ElementId) (ids : List ElementId) :
    (f.setParents parent? ids).size = f.size := by
  induction ids generalizing f with
  | nil => rfl
  | cons id ids ih => exact (ih (f.setParent parent? id)).trans (size_update ..)

/-- A splice stores no new element and drops none. -/
@[simp]
theorem size_splice (f : Forest) (parent : ElementId) (index : Nat)
    (removed inserted : List ElementId) :
    (f.splice parent index removed inserted).size = f.size := by
  simp [splice, mapChildren]

/-- Replacing what stands behind `l` replaces just that. -/
theorem replaceAt_append (l removed inserted r : List ElementId) :
    replaceAt l.length removed inserted (l ++ removed ++ r) = l ++ inserted ++ r := by
  rw [replaceAt, List.append_assoc l removed, List.take_left' rfl, ← List.drop_drop,
    List.drop_left' rfl, List.drop_left' rfl]

end Forest

/-! ### Undoing an edit right after it -/

namespace Edit

/-- What an edit relies on: the elements that it removes stand at its place and name its composite
as their parent, and those that it inserts have no parent. -/
structure Fits (e : Edit) (f : Forest) : Prop where
  composite : ∃ type l r outer?,
    f.get? e.parent = some ⟨.node type (l ++ e.removed ++ r), outer?⟩ ∧ l.length = e.index
  removed_parent : ∀ i ∈ e.removed, f.parent? i = some e.parent
  inserted_parent : ∀ i ∈ e.inserted, i < f.size ∧ f.parent? i = none

/-- An edit stores no new element: what it inserts was stored before. -/
@[simp]
theorem size_run (e : Edit) (f : Forest) : (e.run f).size = f.size := by
  simp [run]

/-- What an edit makes of an element is what its splice makes of it. -/
theorem get?_run (e : Edit) (f : Forest) (i : ElementId) :
    (e.run f).get? i =
      (f.get? i).map (Forest.spliced e.parent e.index e.removed e.inserted i) :=
  Forest.get?_splice ..

/-- An edit changes what one composite is made of. -/
theorem shape?_run_of_ne {e : Edit} {f : Forest} {i : ElementId} (h : i ≠ e.parent) :
    (e.run f).shape? i = f.shape? i := by
  simp [Forest.shape?, get?_run, Function.comp_def, Forest.spliced, h]

/-- The elements that an edit names. -/
def ids (e : Edit) : List ElementId := e.parent :: (e.removed ++ e.inserted)

/-- An edit touches the elements that it names alone. -/
theorem get?_run_of_notMem {e : Edit} {f : Forest} {i : ElementId} (h : i ∉ e.ids) :
    (e.run f).get? i = f.get? i := by
  simp only [ids, List.mem_cons, List.mem_append, not_or] at h
  have hkept : ∀ d : Element, Forest.spliced e.parent e.index e.removed e.inserted i d = d :=
    fun d => by simp only [Forest.spliced, h.1, h.2.1, h.2.2, if_false]
  rw [get?_run]
  cases f.get? i with
  | none => rfl
  | some d => rw [Option.map_some, hkept]

/-- **Undoing an edit right after it gives back the same forest.** -/
theorem inverse_run_run {e : Edit} {f : Forest} (h : e.Fits f) : e.inverse.run (e.run f) = f := by
  refine Forest.ext_get? fun i => ?_
  rw [get?_run, get?_run, Option.map_map]
  cases hi : f.get? i with
  | none => rfl
  | some d =>
      have hparent : f.parent? i = d.parent? := by simp [Forest.parent?, hi]
      have hshape : (Forest.spliced e.inverse.parent e.inverse.index e.inverse.removed
          e.inverse.inserted i (Forest.spliced e.parent e.index e.removed e.inserted i d)).shape =
          d.shape := by
        simp only [Forest.spliced, inverse]
        by_cases hp : i = e.parent
        · obtain ⟨type, l, r, outer?, he, hl⟩ := h.composite
          rw [← hp, hi, Option.some.injEq] at he
          simp only [hp, if_true, he, Shape.mapChildren, ← hl, Forest.replaceAt_append]
        · simp [hp]
      have hnamed : (Forest.spliced e.inverse.parent e.inverse.index e.inverse.removed
          e.inverse.inserted i (Forest.spliced e.parent e.index e.removed e.inserted i d)).parent? =
          d.parent? := by
        simp only [Forest.spliced, inverse]
        by_cases hr : i ∈ e.removed
        · simp [hr, ← hparent, h.removed_parent i hr]
        · by_cases hins : i ∈ e.inserted
          · simp [hr, hins, ← hparent, (h.inserted_parent i hins).2]
          · simp [hr, hins]
      simp only [Option.map_some, Function.comp_apply, Option.some.injEq]
      cases d
      exact (Element.mk.injEq ..).mpr ⟨hshape, hnamed⟩

end Edit

/-! ### Leaves that stand nowhere -/

namespace Forest

/-- A forest with more leaves that have no parent. -/
structure Grows (f g : Forest) : Prop where
  size_le : f.size ≤ g.size
  old : ∀ i < f.size, g.get? i = f.get? i
  new : ∀ i, f.size ≤ i → i < g.size → ∃ t, g.get? i = some ⟨.leaf t, none⟩

/-- A forest made of one tree and of leaves that have no parent. -/
structure Comprises (f : Forest) (p : Planted) : Prop extends f.Holds p where
  rest : ∀ i < f.size, i ∉ p.ids → ∃ t, f.get? i = some ⟨.leaf t, none⟩

/-- Every forest grows into itself: no leaf has to be added. -/
theorem Grows.refl (f : Forest) : f.Grows f where
  size_le := Nat.le_refl _
  old := fun _ _ => rfl
  new := fun i hi hl => absurd hl (by omega)

/-- Growing a forest in two steps is growing it. -/
theorem Grows.trans {f g k : Forest} (h₁ : f.Grows g) (h₂ : g.Grows k) : f.Grows k where
  size_le := Nat.le_trans h₁.size_le h₂.size_le
  old := fun i hi => (h₂.old i (Nat.lt_of_lt_of_le hi h₁.size_le)).trans (h₁.old i hi)
  new := fun i hi hk => by
    by_cases hg : i < g.size
    · obtain ⟨t, ht⟩ := h₁.new i hi hg
      exact ⟨t, (h₂.old i hg).trans ht⟩
    · exact h₂.new i (by omega) hk

/-- A new leaf is stored after all other elements, has no parent, and changes none of them. -/
theorem get?_addLeaf (f : Forest) (t : Token) (i : ElementId) :
    (f.addLeaf t).1.get? i = if i = f.size then some ⟨.leaf t, none⟩ else f.get? i := by
  by_cases h : i = f.elements.size
  · simp [addLeaf, add, get?, size, h]
  · simp [addLeaf, add, get?, size, Array.getElem?_push, h]

/-- A new leaf makes the forest larger by one. -/
@[simp]
theorem size_addLeaf (f : Forest) (t : Token) : (f.addLeaf t).1.size = f.size + 1 := by
  simp [addLeaf, add, size]

/-- Creating a leaf. -/
theorem grows_addLeaf (f : Forest) (t : Token) : f.Grows (f.addLeaf t).1 where
  size_le := by simp
  old := fun i hi => by rw [get?_addLeaf, if_neg (Nat.ne_of_lt hi)]
  new := fun i hi hl => ⟨t, by
    rw [size_addLeaf] at hl
    rw [get?_addLeaf, if_pos (Nat.le_antisymm (Nat.le_of_lt_succ hl) hi)]⟩

/-- The elements that a forest had keep their parents while leaves are added. -/
theorem Grows.parent?_eq {f g : Forest} (h : f.Grows g) {i : ElementId} (hi : i < f.size) :
    g.parent? i = f.parent? i := by
  simp [parent?, h.old i hi]

/-- Nothing is stored beyond the size of a forest. -/
theorem get?_eq_none {f : Forest} {i : ElementId} (h : f.size ≤ i) : f.get? i = none := by
  simpa [get?, size] using h

/-- Whatever is stored is stored below the size of the forest. -/
theorem lt_size_of_get? {f : Forest} {i : ElementId} {e : Element} (h : f.get? i = some e) :
    i < f.size := by
  rcases Nat.lt_or_ge i f.size with hi | hi
  · exact hi
  · rw [get?_eq_none hi] at h
    simp at h

/-- Leaves without a parent leave the held trees as they are. -/
theorem Holds.grows {f g : Forest} {p : Planted} (h : f.Holds p) (hg : f.Grows g) :
    g.Holds p where
  stores := h.stores.congr fun i hi => hg.old i (h.stores.lt_size i hi)
  nodup := h.nodup

/-- Leaves without a parent only add to the rest. -/
theorem Comprises.grows {f g : Forest} {p : Planted} (h : f.Comprises p) (hg : f.Grows g) :
    g.Comprises p where
  toHolds := h.toHolds.grows hg
  rest := fun i hi hp => by
    by_cases hf : i < f.size
    · obtain ⟨t, ht⟩ := h.rest i hf hp
      exact ⟨t, (hg.old i hf).trans ht⟩
    · exact hg.new i (by omega) hi

/-- Planted in an empty forest, a tree is all there is. -/
theorem comprises_plant (t : Tree) : (empty.plant t).1.Comprises (t.plantedFrom 0) where
  toHolds := holds_plant empty t
  rest := fun i hi hp => by
    rw [Tree.ids_plantedFrom] at hp
    simp [plant, empty, size, Tree.length_layout] at hi
    simp [List.mem_range'_1] at hp
    omega

/-- An element outside the tree has no parent. -/
theorem Comprises.parent?_of_notMem {f : Forest} {p : Planted} (h : f.Comprises p)
    {i : ElementId} (hi : i ∉ p.ids) : f.parent? i = none := by
  by_cases hs : i < f.size
  · obtain ⟨t, ht⟩ := h.rest i hs hi
    simp [parent?, ht]
  · simp [parent?, get?_eq_none (Nat.le_of_not_lt hs)]

/-- A leaf without a parent is outside a tree that has composites. -/
theorem Holds.notMem_of_detached {f : Forest} {cs : Place} {id : ElementId} {type : ElementType}
    {ps : List Planted} (h : f.Holds (plug cs (.node id type ps))) {i : ElementId} {t : Token}
    (hi : f.get? i = some ⟨.leaf t, none⟩) : i ∉ (plug cs (.node id type ps)).ids := by
  intro hm
  obtain ⟨id', type', hroot⟩ := Planted.exists_plug_node cs id type
  obtain ⟨ps', hroot⟩ := hroot ps
  rw [hroot] at h hm
  obtain ⟨ds, q, hq, rfl⟩ := Planted.exists_place hm
  rw [hq] at h
  cases ds with
  | nil =>
      obtain rfl : q = .node id' type' ps' := hq.symm
      have hs := h.stores_at
      simp only [Stores, Planted.id] at hs hi
      rw [hs.1] at hi
      simp at hi
  | cons c ds =>
      have hp := h.parent?_eq
      simp [parent?, hi, Place.parent?] at hp

end Forest

/-- Edits do not touch leaves that were created since. -/
theorem Edit.grows_run {e : Edit} {f g : Forest} (h : f.Grows g) (hp : e.parent < f.size)
    (hr : ∀ i ∈ e.removed, i < f.size) (hi : ∀ i ∈ e.inserted, i < f.size) :
    (e.run f).Grows (e.run g) where
  size_le := by simpa using h.size_le
  old := fun i hl => by
    rw [size_run] at hl
    rw [get?_run, get?_run, h.old i hl]
  new := fun i hl hg => by
    rw [size_run] at hl hg
    obtain ⟨t, ht⟩ := h.new i hl hg
    have h₁ : i ≠ e.parent := Nat.ne_of_gt (Nat.lt_of_lt_of_le hp hl)
    have h₂ : i ∉ e.removed := fun hm => absurd (hr i hm) (Nat.not_lt.2 hl)
    have h₃ : i ∉ e.inserted := fun hm => absurd (hi i hm) (Nat.not_lt.2 hl)
    exact ⟨t, by simp [get?_run, ht, Forest.spliced, h₁, h₂, h₃]⟩

/-! ### Changes -/

namespace Planted

/-- Leaves side by side. -/
def leafs (xs : List (ElementId × Token)) : List Planted := xs.map fun x => .leaf x.1 x.2

/-- The ids of leaves side by side are those of the leaves, in their order. -/
@[simp]
theorem idsOf_leafs (xs : List (ElementId × Token)) : idsOf (leafs xs) = xs.map Prod.fst := by
  induction xs with
  | nil => rfl
  | cons x xs ih =>
      rw [List.map_cons, ← ih]
      rfl

/-- Leaves side by side have exactly these leaves. -/
@[simp]
theorem leavesOf_leafs (xs : List (ElementId × Token)) : leavesOf (leafs xs) = xs := by
  induction xs with
  | nil => rfl
  | cons x xs ih =>
      conv_rhs => rw [← ih]
      rfl

/-- Each of the leaves side by side is a tree with the id of the leaf at its top. -/
@[simp]
theorem map_id_leafs (xs : List (ElementId × Token)) :
    (leafs xs).map Planted.id = xs.map Prod.fst := by
  simp [leafs, Planted.id, Function.comp_def]

/-- A change of leaves among the children of one composite of a tree. -/
structure Change where
  place : Place
  id : ElementId
  type : ElementType
  left : List Planted
  removed : List (ElementId × Token)
  inserted : List (ElementId × Token)
  right : List Planted

namespace Change

/-- The tree before the change. -/
def source (c : Change) : Planted :=
  plug c.place (.node c.id c.type (c.left ++ leafs c.removed ++ c.right))

/-- The tree after the change. -/
def target (c : Change) : Planted :=
  plug c.place (.node c.id c.type (c.left ++ leafs c.inserted ++ c.right))

/-- The edit that makes the change. -/
def edit (c : Change) : Edit :=
  ⟨c.id, c.left.length, c.removed.map Prod.fst, c.inserted.map Prod.fst⟩

/-- The change back. -/
def inverse (c : Change) : Change := { c with removed := c.inserted, inserted := c.removed }

/-- A change back starts from where the change ended. -/
@[simp]
theorem source_inverse (c : Change) : c.inverse.source = c.target := rfl

/-- A change back ends where the change started. -/
@[simp]
theorem target_inverse (c : Change) : c.inverse.target = c.source := rfl

/-- The leaves before the change. -/
def front (c : Change) : List (ElementId × Token) := c.place.before ++ leavesOf c.left

/-- The leaves after the change. -/
def back (c : Change) : List (ElementId × Token) := leavesOf c.right ++ c.place.after

/-- Before a change there are the leaves in front, those it removes, and those behind. -/
theorem leaves_source (c : Change) : c.source.leaves = c.front ++ c.removed ++ c.back := by
  simp [source, leaves_plug, leaves, front, back]

/-- After a change there are the leaves in front, those it inserts, and those behind. -/
theorem leaves_target (c : Change) : c.target.leaves = c.front ++ c.inserted ++ c.back := by
  simp [target, leaves_plug, leaves, front, back]

/-- The ids that a change leaves alone. -/
def otherIds (c : Change) : List ElementId := c.id :: (idsOf c.left ++ idsOf c.right) ++ c.place.ids

/-- The ids of the tree before a change are the removed ones and those that it leaves alone. -/
theorem ids_source_perm (c : Change) :
    c.source.ids.Perm (c.removed.map Prod.fst ++ c.otherIds) := by
  refine (ids_plug_perm _ _).trans ?_
  simp only [ids, idsOf_append, idsOf_leafs, otherIds]
  rw [← List.append_assoc]
  refine List.Perm.append_right _ ?_
  refine (List.Perm.cons _ ?_).trans List.perm_middle.symm
  rw [← List.append_assoc]
  exact List.perm_append_comm.append_right _

/-- The ids of the tree after a change are the inserted ones and those that it leaves alone. -/
theorem ids_target_perm (c : Change) :
    c.target.ids.Perm (c.inserted.map Prod.fst ++ c.otherIds) :=
  ids_source_perm { c with removed := c.inserted }

/-- A change touches its composite and what it removes and inserts. -/
theorem get?_run_of_notMem (c : Change) (f : Forest) {i : ElementId} (hid : i ≠ c.id)
    (hr : i ∉ c.removed.map Prod.fst) (hi : i ∉ c.inserted.map Prod.fst) :
    (c.edit.run f).get? i = f.get? i :=
  Edit.get?_run_of_notMem (by simp [Edit.ids, edit, hid, hr, hi])

/-- What a change makes of the children of its composite. -/
theorem replaceAt_children (c : Change) :
    Forest.replaceAt c.left.length (c.removed.map Prod.fst) (c.inserted.map Prod.fst)
        (c.left.map Planted.id ++ c.removed.map Prod.fst ++ c.right.map Planted.id) =
      c.left.map Planted.id ++ c.inserted.map Prod.fst ++ c.right.map Planted.id := by
  simpa using Forest.replaceAt_append (c.left.map Planted.id) (c.removed.map Prod.fst)
    (c.inserted.map Prod.fst) (c.right.map Planted.id)

/-- A change keeps the type of the root. -/
theorem target_eq_node {c : Change} {id : ElementId} {type : ElementType} {ps : List Planted}
    (h : c.source = .node id type ps) : ∃ ps', c.target = .node id type ps' := by
  obtain ⟨id', type', hroot⟩ := exists_plug_node c.place c.id c.type
  obtain ⟨ps₁, h₁⟩ := hroot (c.left ++ leafs c.removed ++ c.right)
  obtain ⟨ps₂, h₂⟩ := hroot (c.left ++ leafs c.inserted ++ c.right)
  rw [source, h₁, node.injEq] at h
  exact ⟨ps₂, by rw [target, h₂, h.1, h.2.1]⟩

end Change

end Planted

open Planted (Change)

namespace Forest

/-- The removed leaves of a change are stored below its composite. -/
theorem Holds.stores_removed {f : Forest} {c : Change} (h : f.Holds c.source)
    {x : ElementId × Token} (hx : x ∈ c.removed) : f.Stores (some c.id) (.leaf x.1 x.2) := by
  refine h.stores_at.child ?_
  simp only [List.mem_append]
  exact .inl (.inr (List.mem_map_of_mem hx))

/-- A change can be made in a forest that holds its source, if what it inserts are different leaves
that stand nowhere. -/
structure Allows (f : Forest) (c : Change) : Prop extends f.Holds c.source where
  detached : ∀ x ∈ c.inserted, f.get? x.1 = some ⟨.leaf x.2, none⟩
  distinct : (c.inserted.map Prod.fst).Nodup

namespace Allows

variable {f : Forest} {c : Change}

/-- The edit of a change fits a forest in which the change can be made. -/
theorem fits (h : f.Allows c) : c.edit.Fits f where
  composite := by
    have hs := h.stores_at
    simp only [Stores, List.map_append, Planted.map_id_leafs] at hs
    exact ⟨c.type, c.left.map Planted.id, c.right.map Planted.id, _, hs.1, by simp [Change.edit]⟩
  removed_parent := by
    intro i hm
    obtain ⟨x, hx, rfl⟩ := List.mem_map.1 hm
    exact (h.stores_removed hx).parent?_eq
  inserted_parent := by
    intro i hm
    obtain ⟨x, hx, rfl⟩ := List.mem_map.1 hm
    exact ⟨lt_size_of_get? (h.detached x hx), by simp [parent?, h.detached x hx]⟩

/-- Before a change no id occurs twice, among the removed ones and those that it leaves alone. -/
theorem nodup_source (h : f.Allows c) : (c.removed.map Prod.fst ++ c.otherIds).Nodup :=
  c.ids_source_perm.nodup_iff.1 h.nodup

/-- What a change removes is none of what it leaves alone. -/
theorem removed_notMem (h : f.Allows c) : ∀ i ∈ c.removed.map Prod.fst, i ∉ c.otherIds :=
  fun i hm ho => (List.nodup_append.1 h.nodup_source).2.2 i hm i ho rfl

/-- What a change inserts was not in the tree before, since it stood nowhere. -/
theorem inserted_notMem_source (h : f.Allows c) :
    ∀ i ∈ c.inserted.map Prod.fst, i ∉ c.source.ids := by
  intro i hm
  obtain ⟨x, hx, rfl⟩ := List.mem_map.1 hm
  exact h.notMem_of_detached (h.detached x hx)

/-- What a change inserts is none of what it leaves alone. -/
theorem inserted_notMem (h : f.Allows c) : ∀ i ∈ c.inserted.map Prod.fst, i ∉ c.otherIds :=
  fun i hm ho => h.inserted_notMem_source i hm
    (c.ids_source_perm.mem_iff.2 (List.mem_append_right _ ho))

/-- What was removed is not in the tree after the change. -/
theorem removed_notMem_target (h : f.Allows c) :
    ∀ i ∈ c.removed.map Prod.fst, i ∉ c.target.ids := by
  intro i hm ht
  rw [c.ids_target_perm.mem_iff, List.mem_append] at ht
  rcases ht with ht | ht
  · exact h.inserted_notMem_source i ht (c.ids_source_perm.mem_iff.2 (List.mem_append_left _ hm))
  · exact h.removed_notMem i hm ht

/-- A removed leaf has no parent afterwards. -/
theorem get?_run_removed (h : f.Allows c) {x : ElementId × Token} (hx : x ∈ c.removed) :
    (c.edit.run f).get? x.1 = some ⟨.leaf x.2, none⟩ := by
  have hm : x.1 ∈ c.removed.map Prod.fst := List.mem_map_of_mem hx
  have hid : x.1 ≠ c.id := fun he => h.removed_notMem _ hm (by simp [he, Change.otherIds])
  have hins : x.1 ∉ c.inserted.map Prod.fst := fun hi =>
    h.inserted_notMem_source _ hi (c.ids_source_perm.mem_iff.2 (List.mem_append_left _ hm))
  have hs := h.stores_removed hx
  simp only [Stores] at hs
  rw [Edit.get?_run, hs]
  simp only [Change.edit, Option.map_some, spliced, hid, hins, hm, if_true, if_false]

/-- **An edit turns the tree on one side of its change into the other**, whatever else the forest
holds. -/
theorem holds_run (h : f.Allows c) : (c.edit.run f).Holds c.target := by
  have hother : ∀ i ∈ c.otherIds, i ≠ c.id → (c.edit.run f).get? i = f.get? i := fun i hm hid =>
    c.get?_run_of_notMem f hid (fun hx => h.removed_notMem i hx hm)
      (fun hx => h.inserted_notMem i hx hm)
  have hdistinct : c.id ∉ Planted.idsOf c.left ++ Planted.idsOf c.right ∧ c.id ∉ c.place.ids := by
    have := h.nodup_source.of_append_right
    simp only [Change.otherIds, List.cons_append, List.nodup_cons, List.mem_append] at this ⊢
    tauto
  have hnode := h.stores_at
  simp only [Stores, List.map_append, Planted.map_id_leafs, storesAll_append] at hnode
  obtain ⟨hget, ⟨hleft, -⟩, hright⟩ := hnode
  have hc : c.id ∈ c.otherIds := by simp [Change.otherIds]
  refine ⟨stores_plug.2 ⟨?_, ?_⟩, ?_⟩
  · -- around the composite nothing changes
    refine h.around.congr fun i hm => hother i ?_ ?_
    · simp [Change.otherIds, hm]
    · rintro rfl
      exact hdistinct.2 hm
  · have keep : ∀ ps : List Planted, f.StoresAll c.id ps →
        Planted.idsOf ps ⊆ Planted.idsOf c.left ++ Planted.idsOf c.right →
        (c.edit.run f).StoresAll c.id ps := fun ps hps hsub =>
      storesAll_iff.2 fun p hp => (storesAll_iff.1 hps p hp).congr fun i hm => by
        have hm' := hsub (Planted.mem_idsOf.2 ⟨p, hp, hm⟩)
        refine hother i ?_ ?_
        · simp only [Change.otherIds, List.cons_append, List.mem_cons, List.mem_append] at hm' ⊢
          tauto
        · rintro rfl
          exact hdistinct.1 hm'
    simp only [Stores, List.map_append, Planted.map_id_leafs, storesAll_append]
    refine ⟨?_, ⟨keep _ hleft (List.subset_append_left _ _), ?_⟩,
      keep _ hright (List.subset_append_right _ _)⟩
    · have h₁ : c.id ∉ c.inserted.map Prod.fst := fun hx => h.inserted_notMem _ hx hc
      have h₂ : c.id ∉ c.removed.map Prod.fst := fun hx => h.removed_notMem _ hx hc
      rw [Edit.get?_run, hget]
      simp only [Change.edit, Option.map_some, spliced, h₁, h₂, if_true, if_false,
        Shape.mapChildren, c.replaceAt_children]
    · -- the inserted leaves now name the composite
      refine storesAll_iff.2 fun q hq => ?_
      obtain ⟨x, hx, rfl⟩ := List.mem_map.1 hq
      have hx₁ : x.1 ∈ c.inserted.map Prod.fst := List.mem_map_of_mem hx
      have hx₂ : x.1 ≠ c.id := fun he => h.inserted_notMem _ hx₁ (he ▸ hc)
      simp only [Stores]
      rw [Edit.get?_run, h.detached x hx]
      simp only [Change.edit, Option.map_some, spliced, hx₁, hx₂, if_true, if_false]
  · rw [c.ids_target_perm.nodup_iff, List.nodup_append]
    refine ⟨h.distinct, h.nodup_source.of_append_right, ?_⟩
    rintro i hm j hj rfl
    exact h.inserted_notMem i hm hj

end Allows

/-- **An edit shows the tree after its change**, whatever leaves it inserts: they may stand
somewhere already, or be inserted twice. -/
theorem Holds.shows_run {f : Forest} {c : Change} (h : f.Holds c.source)
    (hi : ∀ x ∈ c.inserted, f.token? x.1 = some x.2) : (c.edit.run f).Shows c.target := by
  have hnode := h.stores_at.shows
  simp only [Shows, List.map_append, Planted.map_id_leafs, showsAll_iff] at hnode
  have hid : c.id ∉ c.place.ids := (List.nodup_cons.1 h.nodup_hole).1
  have others : ∀ i, i ≠ c.id → (c.edit.run f).shape? i = f.shape? i := fun i hne =>
    Edit.shape?_run_of_ne hne
  have kept : ∀ ps, (∀ p ∈ ps, p ∈ c.left ++ Planted.leafs c.removed ++ c.right) →
      c.id ∉ Planted.idsOf ps → ∀ p ∈ ps, (c.edit.run f).Shows p := fun ps hps hn p hp =>
    (hnode.2 p (hps p hp)).congr fun i hm => others i fun he =>
      hn (he ▸ Planted.mem_idsOf.2 ⟨p, hp, hm⟩)
  have hn : c.id ∉ Planted.idsOf (c.left ++ Planted.leafs c.removed ++ c.right) :=
    (List.nodup_cons.1 h.nodup_at).1
  rw [Planted.idsOf_append, Planted.idsOf_append] at hn
  simp only [List.mem_append, not_or] at hn
  refine h.stores.shows.plug_congr rfl (fun i hm => others i fun he => hid (he ▸ hm)) ?_
  simp only [Shows, List.map_append, Planted.map_id_leafs, showsAll_iff]
  refine ⟨?_, fun p hp => ?_⟩
  · obtain ⟨e, he, hs⟩ := Option.map_eq_some_iff.1 hnode.1
    simp only [shape?, Edit.get?_run, he, Option.map_some, Change.edit, spliced, if_true, hs,
      Shape.mapChildren, c.replaceAt_children]
  · rcases List.mem_append.1 hp with hp | hp
    · rcases List.mem_append.1 hp with hp | hp
      · exact kept c.left (fun q hq => by simp [hq]) hn.1.1 p hp
      · -- a leaf is not the composite, so it is made of its token still
        obtain ⟨x, hx, rfl⟩ := List.mem_map.1 hp
        have hne : x.1 ≠ c.id := by
          intro he
          have ht := hi x hx
          rw [he, token?_eq_shape?, hnode.1] at ht
          simp at ht
        exact (others _ hne).trans (shape?_eq_leaf_iff.2 (hi x hx))
    · exact kept c.right (fun q hq => by simp [hq]) hn.2 p hp

/-- A change can be made in a forest that comprises its source, if what it inserts are different
leaves that stand nowhere. -/
structure Admits (f : Forest) (c : Change) : Prop extends f.Comprises c.source where
  detached : ∀ x ∈ c.inserted, f.get? x.1 = some ⟨.leaf x.2, none⟩
  distinct : (c.inserted.map Prod.fst).Nodup

/-- A change that a forest of one tree and loose leaves admits is one that it allows. -/
theorem Admits.allows {f : Forest} {c : Change} (h : f.Admits c) : f.Allows c :=
  ⟨h.toHolds, h.detached, h.distinct⟩

/-- What a change removes joins the leaves that stand nowhere. -/
theorem Admits.comprises_run {f : Forest} {c : Change} (h : f.Admits c) :
    (c.edit.run f).Comprises c.target where
  toHolds := h.allows.holds_run
  rest := by
    intro i hl hm
    rw [Edit.size_run] at hl
    by_cases hr : i ∈ c.removed.map Prod.fst
    · obtain ⟨x, hx, rfl⟩ := List.mem_map.1 hr
      exact ⟨x.2, h.allows.get?_run_removed hx⟩
    · rw [c.ids_target_perm.mem_iff, List.mem_append, not_or] at hm
      obtain ⟨t, ht⟩ := h.rest i hl fun hs => by
        rw [c.ids_source_perm.mem_iff, List.mem_append] at hs
        tauto
      have hid : i ≠ c.id := fun he => hm.2 (by simp [he, Change.otherIds])
      exact ⟨t, (c.get?_run_of_notMem f hid hr hm.1).trans ht⟩

end Forest

end BnfSuppression
