import BnfSuppression.Proofs.Resolver

/-!
# Elements Around an Element

The ways up from the elements of a tree determine the tree's order: an element is around another one
if it is on the way up from it, and the leaves before an element are those at the front of the tree
that it is not around. With this, whether a check is suppressed is told from two things alone, the
list of leaves and the ways up, and neither places nor subtrees need to be followed through an edit.

## Main results

* `Forest.Holds.mem_ancestors_iff`: being on the way up is holding.
* `Forest.Holds.leavesBefore_eq`: the leaves before an element are those it is not around.
* `Workspace.Standing.isSuppressed_iff_leads`: **suppression in terms of leaves and ways up**.
-/

namespace BnfSuppression

open Planted (plug Place)

/-- The topmost element of a tree is on the way up from every place in it. -/
theorem Planted.id_plug_mem (cs : Place) (p : Planted) :
    (plug cs p).id ∈ p.id :: cs.map Crumb.id := by
  induction cs generalizing p with
  | nil => simp [plug]
  | cons c cs ih => exact List.mem_cons_of_mem _ (ih _)

namespace Forest

variable {f : Forest} {p q : Planted} {cs ds : Place} {a n : ElementId}

/-- The elements on the way up are the topmost ones of the subtrees around the place. -/
theorem Holds.mem_ancestors_place_iff (h : f.Holds (plug cs q)) :
    a ∈ f.ancestors q.id ↔ ∃ es ds, cs = es ++ ds ∧ (plug es q).id = a := by
  rw [h.ancestors_eq]
  constructor
  · intro ha
    rcases List.mem_cons.1 ha with rfl | ha
    · exact ⟨[], cs, rfl, rfl⟩
    · obtain ⟨b, hb, rfl⟩ := List.mem_map.1 ha
      obtain ⟨xs, ys, rfl⟩ := List.append_of_mem hb
      exact ⟨xs ++ [b], ys, by simp, by rw [Planted.plug_append]; rfl⟩
  · rintro ⟨es, ds, rfl, rfl⟩
    rw [List.map_append]
    rcases List.mem_cons.1 (Planted.id_plug_mem es q) with hid | hid
    · exact hid ▸ List.mem_cons_self
    · exact List.mem_cons_of_mem _ (List.mem_append_left _ hid)

/-- **An element is on the way up from another one exactly if it holds it.** -/
theorem Holds.mem_ancestors_iff (h : f.Holds p) (hn : n ∈ p.ids) :
    a ∈ f.ancestors n ↔ a ∈ p.ids ∧ n ∈ f.below a := by
  constructor
  · intro ha
    obtain ⟨cs, q, rfl, rfl⟩ := Planted.exists_place hn
    obtain ⟨es, ds, rfl, rfl⟩ := h.mem_ancestors_place_iff.1 ha
    rw [Planted.plug_append] at h ⊢
    refine ⟨Planted.id_mem_plug ds _, ?_⟩
    rw [h.stores_at.below_eq h.nodup_at]
    exact Planted.id_mem_plug es q
  · rintro ⟨ha, hna⟩
    obtain ⟨ds, r, rfl, rfl⟩ := Planted.exists_place ha
    rw [h.stores_at.below_eq h.nodup_at] at hna
    obtain ⟨es, q, rfl, rfl⟩ := Planted.exists_place hna
    rw [← Planted.plug_append] at h
    exact h.mem_ancestors_place_iff.2 ⟨es, ds, rfl, rfl⟩

/-- The elements at a place are those that its topmost element is around. -/
theorem Holds.mem_ancestors_at_iff (h : f.Holds (plug cs q)) (hn : n ∈ (plug cs q).ids) :
    q.id ∈ f.ancestors n ↔ n ∈ q.ids := by
  rw [h.mem_ancestors_iff hn, h.stores_at.below_eq h.nodup_at]
  exact and_iff_right (Planted.id_mem_plug cs q)

/-- The way up goes on from everything on it. -/
theorem Holds.ancestors_trans (h : f.Holds p) (hn : n ∈ p.ids) {b : ElementId}
    (ha : a ∈ f.ancestors n) (hb : b ∈ f.ancestors a) : b ∈ f.ancestors n := by
  obtain ⟨cs, q, rfl, rfl⟩ := Planted.exists_place hn
  obtain ⟨es, ds, rfl, rfl⟩ := h.mem_ancestors_place_iff.1 ha
  have hsplit := h
  rw [Planted.plug_append] at hsplit
  obtain ⟨es', ds', rfl, rfl⟩ := hsplit.mem_ancestors_place_iff.1 hb
  exact h.mem_ancestors_place_iff.2
    ⟨es ++ es', ds', by simp, by rw [Planted.plug_append]⟩

/-- What is around an element at a place is in the subtree there, or around the place. -/
theorem Holds.mem_ancestors_cases (h : f.Holds (plug cs q)) (hn : n ∈ q.ids)
    (ha : a ∈ f.ancestors n) : a ∈ q.ids ∨ a ∈ cs.map Crumb.id := by
  obtain ⟨es, r, rfl, rfl⟩ := Planted.exists_place hn
  rw [← Planted.plug_append] at h
  rw [h.ancestors_eq, List.map_append, ← List.cons_append, List.mem_append] at ha
  refine ha.imp_left fun ha => ?_
  rw [(Planted.ids_plug_perm es r).mem_iff, List.mem_append]
  rcases List.mem_cons.1 ha with rfl | ha
  · exact .inl r.id_mem_ids
  · exact .inr (es.map_id_sublist_ids.subset ha)

/-- The leaves at the front of a list that an element is not around. -/
def leavesBefore (f : Forest) (a : ElementId) (xs : List (ElementId × Token)) :
    List (ElementId × Token) :=
  xs.takeWhile fun x => !(f.ancestors x.1).contains a

/-- The elements of the leaves below a node are elements of the node. -/
theorem fst_mem_ids_of_mem_leaves {x : ElementId × Token} (hx : x ∈ p.leaves) : x.1 ∈ p.ids :=
  (Planted.leaves_sublist p).subset (List.mem_map_of_mem hx)

/-- An element is around its own leaves. -/
theorem Holds.mem_ancestors_of_leaves (h : f.Holds (plug cs q)) {x : ElementId × Token}
    (hx : x ∈ q.leaves) : q.id ∈ f.ancestors x.1 := by
  have hi := fst_mem_ids_of_mem_leaves hx
  exact (h.mem_ancestors_at_iff (Planted.ids_subset_plug cs q hi)).2 hi

/-- An element is around no leaf before it. -/
theorem Holds.notMem_ancestors_of_before (h : f.Holds (plug cs q)) {x : ElementId × Token}
    (hx : x ∈ cs.before) : q.id ∉ f.ancestors x.1 := by
  have hleaves := Planted.leaves_plug cs q
  have hm : x ∈ (plug cs q).leaves := by simp [hleaves, hx]
  intro ha
  have hi := (h.mem_ancestors_at_iff (fst_mem_ids_of_mem_leaves hm)).1 ha
  -- the leaf would stand at the place and before it
  have hids : x.1 ∈ cs.ids := cs.map_before_subset_ids (List.mem_map_of_mem hx)
  exact (List.nodup_append.1 h.nodup_append).2.2 _ hi _ hids rfl

/-- The leaves after that front. -/
def leavesFrom (f : Forest) (a : ElementId) (xs : List (ElementId × Token)) :
    List (ElementId × Token) :=
  xs.dropWhile fun x => !(f.ancestors x.1).contains a

/-- Leaves that are outside an element, and come first, all stand before it. -/
theorem leavesBefore_append_of_notMem {xs : List (ElementId × Token)}
    (h : ∀ x ∈ xs, a ∉ f.ancestors x.1) (ys : List (ElementId × Token)) :
    f.leavesBefore a (xs ++ ys) = xs ++ f.leavesBefore a ys ∧
      f.leavesFrom a (xs ++ ys) = f.leavesFrom a ys := by
  have hp : ∀ x ∈ xs, (!(f.ancestors x.1).contains a) = true := fun x hx => by simpa using h x hx
  exact ⟨List.takeWhile_append_of_pos hp, List.dropWhile_append_of_pos hp⟩

/-- If the first leaf is within an element, nothing stands before the element. -/
theorem leavesBefore_cons_of_mem {x : ElementId × Token} (h : a ∈ f.ancestors x.1)
    (xs : List (ElementId × Token)) :
    f.leavesBefore a (x :: xs) = [] ∧ f.leavesFrom a (x :: xs) = x :: xs :=
  ⟨List.takeWhile_cons_of_neg (by simpa using h), List.dropWhile_cons_of_neg (by simpa using h)⟩

/-- Behind a leaf that the element is around, nothing counts. -/
theorem leavesBefore_append_of_mem {xs : List (ElementId × Token)}
    (h : ∃ x ∈ xs, a ∈ f.ancestors x.1) (ys : List (ElementId × Token)) :
    f.leavesBefore a (xs ++ ys) = f.leavesBefore a xs ∧
      ∃ z ∈ xs, (f.leavesFrom a (xs ++ ys)).head? = some z := by
  induction xs with
  | nil => simp at h
  | cons x xs ih =>
      by_cases hx : a ∈ f.ancestors x.1
      · refine ⟨?_, x, by simp, ?_⟩
        · rw [List.cons_append, (leavesBefore_cons_of_mem hx _).1, (leavesBefore_cons_of_mem hx _).1]
        · rw [List.cons_append, (leavesBefore_cons_of_mem hx _).2]
          rfl
      · obtain ⟨y, hy, hay⟩ := h
        rcases List.mem_cons.1 hy with rfl | hy
        · exact absurd hay hx
        · obtain ⟨hb, z, hz, hf⟩ := ih ⟨y, hy, hay⟩
          have hx' : ∀ y ∈ [x], a ∉ f.ancestors y.1 := by simpa using hx
          have h₁ := leavesBefore_append_of_notMem hx' (xs ++ ys)
          have h₂ := leavesBefore_append_of_notMem hx' xs
          simp only [List.singleton_append] at h₁ h₂
          refine ⟨?_, z, List.mem_cons_of_mem _ hz, ?_⟩
          · rw [List.cons_append, h₁.1, h₂.1, hb]
          · rw [List.cons_append, h₁.2, hf]

/-- If some leaf is within an element, then not all leaves stand before it. -/
theorem length_leavesBefore_lt {xs : List (ElementId × Token)}
    (h : ∃ x ∈ xs, a ∈ f.ancestors x.1) : (f.leavesBefore a xs).length < xs.length := by
  refine (List.takeWhile_prefix _).length_le.lt_of_ne fun hl => ?_
  obtain ⟨x, hx, hxa⟩ := h
  have hall := List.takeWhile_eq_self_iff.1 ((List.takeWhile_prefix _).eq_of_length hl) x hx
  simp [hxa] at hall

/-- What stands before an element only depends on the ways up from the leaves. -/
theorem leavesBefore_congr {g : Forest} {xs : List (ElementId × Token)}
    (h : ∀ x ∈ xs, g.ancestors x.1 = f.ancestors x.1) :
    g.leavesBefore a xs = f.leavesBefore a xs := by
  induction xs with
  | nil => rfl
  | cons x xs ih =>
      have hx := h x (by simp)
      have hxs := ih fun y hy => h y (List.mem_cons_of_mem _ hy)
      simp only [leavesBefore] at hxs ⊢
      rw [List.takeWhile_cons, List.takeWhile_cons, hx, hxs]

/-- **The leaves before an element** are those at the front of the tree that it is not around, and
its own leaves follow. -/
theorem Holds.leavesBefore_eq (h : f.Holds (plug cs q)) {x : ElementId × Token}
    {xs : List (ElementId × Token)} (hq : q.leaves = x :: xs) :
    f.leavesBefore q.id (plug cs q).leaves = cs.before ∧
      f.leavesFrom q.id (plug cs q).leaves = x :: (xs ++ cs.after) := by
  have hfirst : q.id ∈ f.ancestors x.1 := h.mem_ancestors_of_leaves (by simp [hq])
  have hfront := leavesBefore_append_of_notMem (fun y hy => h.notMem_ancestors_of_before hy)
    (x :: (xs ++ cs.after))
  have hrest := leavesBefore_cons_of_mem hfirst (xs ++ cs.after)
  rw [Planted.leaves_plug, List.append_assoc, hq, List.cons_append, hfront.1, hfront.2, hrest.1,
    hrest.2]
  simp

end Forest

namespace Workspace.Standing

variable {w : Workspace} {d : Document} {p q : Planted} {cs : Place} {a n : ElementId}

/-- **Suppression in terms of leaves and ways up.** -/
theorem isSuppressed_iff_leads (h : w.Standing d p) (hp : p.tree.WellShaped) (hn : n ∈ p.ids)
    (hk : (w.forest.kind n).suppressible = true) (s : Settings) (check : String) :
    ∃ b, w.isSuppressed s n check = .ok b ∧ (b = true ↔
      Leaves.lists s (s.fileId check) (Leaves.openingComments p.leaves) = true ∨
      ∃ a ∈ w.forest.ancestors n, a ≠ d.root ∧ Leaves.lists s check
        (Leaves.trailingComments (w.forest.leavesBefore a p.leaves)) = true) := by
  obtain ⟨cs, q, rfl, rfl⟩ := Planted.exists_place hn
  rw [h.comprises.stores_at.kind_eq] at hk
  refine ⟨_, h.isSuppressed_eq s check, ?_⟩
  rw [hk, Bool.true_and, Bool.or_eq_true, Place.isLed_iff]
  -- the elements on the way up other than the root are at the suffixes of the place
  have hbefore : ∀ es ds, cs = es ++ ds → ds ≠ [] →
      w.forest.leavesBefore (plug es q).id (plug cs q).leaves = Place.before ds := by
    rintro es ds rfl hds
    obtain ⟨x, xs, hx, -⟩ := Planted.leaves_plug_of_suppressible hp hds hk
    rw [Planted.plug_append] at h ⊢
    exact (h.comprises.toHolds.leavesBefore_eq hx).1
  refine or_congr_right ⟨?_, ?_⟩
  · rintro ⟨ds, ⟨es, rfl⟩, hds, hl⟩
    refine ⟨(plug es q).id, h.comprises.toHolds.mem_ancestors_place_iff.2 ⟨es, ds, rfl, rfl⟩, ?_, ?_⟩
    · rw [Planted.plug_append] at h
      exact h.id_ne_root hds
    · rw [hbefore es ds rfl hds, hl]
  · rintro ⟨a, ha, hr, hl⟩
    obtain ⟨es, ds, rfl, rfl⟩ := h.comprises.toHolds.mem_ancestors_place_iff.1 ha
    have hds : ds ≠ [] := by
      rintro rfl
      rw [List.append_nil] at h
      exact hr h.id_eq
    rw [hbefore es ds rfl hds] at hl
    exact ⟨ds, List.suffix_append es ds, hds, hl⟩

end Workspace.Standing

end BnfSuppression
