import BnfSuppression.Proofs.Ancestry

/-!
# What an Edit Changes in Front of Elements

An edit of comments changes the list of leaves at one spot, and no way up from an element that
stays. For an element that starts with a solid leaf, the leaves before it are therefore the same as
before, or they are the same but for the inserted leaves in place of the removed ones.

## Main results

* `Workspace.Makes.ancestors_eq`: **the ways up stay**.
* `Workspace.Makes.leavesBefore_cases`: the leaves before an element after an edit.
* `Leaves.lists_trailing_append`, `Leaves.trailing_append_of_solid`: which of these leaves lead an
  element.
-/

namespace BnfSuppression

open Planted (plug Place Change leafs)

/-! ### Stretches of leaves -/

namespace Leaves

variable {xs ys : List (ElementId × Token)}

/-- The comments of a stretch, in the order of the text. -/
def comments (xs : List (ElementId × Token)) : List (ElementId × Token) :=
  xs.filter fun x => x.2.isComment

/-- Two stretches together list an id if one of them does. -/
theorem lists_append (s : Settings) (id : String) (xs ys : List (ElementId × Token)) :
    lists s id (xs ++ ys) = (lists s id xs || lists s id ys) := by
  simp [lists]

/-- Whether a stretch lists an id does not depend on its direction. -/
theorem lists_reverse (s : Settings) (id : String) (xs : List (ElementId × Token)) :
    lists s id xs.reverse = lists s id xs := by
  simp [lists]

/-- White space and comments at the end are part of the last stretch. -/
theorem lists_trailing_append (s : Settings) (id : String) (h : ∀ y ∈ ys, y.2.isTrivia = true) :
    lists s id (trailingComments (xs ++ ys)) =
      (lists s id (comments ys) || lists s id (trailingComments xs)) := by
  have hr : ∀ y ∈ ys.reverse, y.2.isTrivia = true := fun y hy => h y (List.mem_reverse.1 hy)
  rw [trailingComments, List.reverse_append, List.takeWhile_append_of_pos hr, List.filter_append,
    lists_append, List.filter_reverse, lists_reverse]
  rfl

/-- Any other leaf ends the last stretch. -/
theorem trailing_append_of_solid (h : ∃ y ∈ ys, y.2.isTrivia = false) :
    trailingComments (xs ++ ys) = trailingComments ys := by
  have hlen : (ys.reverse.takeWhile fun x => x.2.isTrivia).length ≠ ys.reverse.length := by
    intro hl
    obtain ⟨y, hy, hs⟩ := h
    have := List.takeWhile_eq_self_iff.1 ((List.takeWhile_prefix _).eq_of_length hl) y
      (List.mem_reverse.2 hy)
    simp [hs] at this
  rw [trailingComments, List.reverse_append, List.takeWhile_append, if_neg hlen]
  rfl

/-- White space and comments at the start are part of the first stretch. -/
theorem lists_opening_append (s : Settings) (id : String) (h : ∀ x ∈ xs, x.2.isTrivia = true) :
    lists s id (openingComments (xs ++ ys)) =
      (lists s id (comments xs) || lists s id (openingComments ys)) := by
  rw [openingComments, List.takeWhile_append_of_pos h, List.filter_append, lists_append]
  rfl

/-- The comments at the start of a stretch end at its first solid leaf, so what follows adds
none. -/
theorem opening_append_of_solid (h : ∃ x ∈ xs, x.2.isTrivia = false) :
    openingComments (xs ++ ys) = openingComments xs := by
  have hlen : (xs.takeWhile fun x => x.2.isTrivia).length ≠ xs.length := by
    intro hl
    obtain ⟨x, hx, hs⟩ := h
    have := List.takeWhile_eq_self_iff.1 ((List.takeWhile_prefix _).eq_of_length hl) x hx
    simp [hs] at this
  rw [openingComments, List.takeWhile_append, if_neg hlen]
  rfl

end Leaves

/-! ### Ways up -/

namespace Forest

variable {f g : Forest} {p q : Planted} {cs : Place} {a n : ElementId}

/-- A way up only depends on the parents that are named on it. -/
theorem ancestorsUpTo_congr {height : Nat}
    (h : ∀ i ∈ f.ancestorsUpTo height n, g.parent? i = f.parent? i) :
    g.ancestorsUpTo height n = f.ancestorsUpTo height n := by
  induction height generalizing n with
  | zero => rfl
  | succ height ih =>
      have hn : g.parent? n = f.parent? n := h n (by simp [ancestorsUpTo])
      rw [ancestorsUpTo, ancestorsUpTo, hn]
      cases hp : f.parent? n with
      | none => rfl
      | some parent =>
          simp only [Option.map_some, Option.getD_some]
          rw [ih fun i hi => h i (by simp [ancestorsUpTo, hp, hi])]

/-- In a forest that is no smaller, the way up is the same if the parents on it are. -/
theorem Holds.ancestors_congr (h : f.Holds p) (hn : n ∈ p.ids) (hs : f.size ≤ g.size)
    (hp : ∀ i ∈ f.ancestors n, g.parent? i = f.parent? i) : g.ancestors n = f.ancestors n := by
  obtain ⟨cs, q, rfl, rfl⟩ := Planted.exists_place hn
  have hup : f.ancestorsUpTo (g.size + 1) q.id = f.ancestors q.id := by
    rw [h.ancestors_eq]
    exact ancestorsUpTo_eq h.around h.parent?_eq (by have := h.length_place_le; omega)
  rw [ancestors, ← hup]
  exact ancestorsUpTo_congr fun i hi => hp i (hup ▸ hi)

/-- The way up from a child of a composite. -/
theorem Holds.ancestors_child {id : ElementId} {type : ElementType} {ps : List Planted}
    (h : f.Holds (plug cs (.node id type ps))) (hq : q ∈ ps) :
    f.ancestors q.id = q.id :: id :: cs.map Crumb.id := by
  obtain ⟨l, r, rfl⟩ := List.append_of_mem hq
  have hchild : f.Holds (plug (⟨id, type, l, r⟩ :: cs) q) := h
  exact hchild.ancestors_eq

/-- A leaf is on no way up but its own. -/
theorem Holds.eq_of_mem_ancestors_of_leaf {x : ElementId × Token}
    (h : f.Holds (plug cs (.leaf x.1 x.2))) (hn : n ∈ (plug cs (.leaf x.1 x.2)).ids)
    (ha : x.1 ∈ f.ancestors n) : n = x.1 := by
  have := (h.mem_ancestors_at_iff hn).1 ha
  simpa [Planted.ids] using this

end Forest

namespace Workspace

variable {w v : Workspace} {d : Document} {c : Change} {a n : ElementId}

/-- An edit changes no parent but those of the leaves that it inserts or removes. -/
theorem Makes.parent?_eq (h : w.Makes d c v) (hn : n < w.forest.size)
    (hr : n ∉ c.removed.map Prod.fst) (hi : n ∉ c.inserted.map Prod.fst) :
    v.forest.parent? n = w.forest.parent? n := by
  obtain ⟨g, hg, -, rfl⟩ := h.prepared
  rw [← hg.parent?_eq hn]
  simp only [Forest.parent?, Edit.get?_run, Change.edit]
  cases g.get? n with
  | none => rfl
  | some e => simp [Forest.spliced, hr, hi]

/-- The leaves that an edit inserts are no elements of the tree before it. -/
theorem Makes.notMem_source (h : w.Makes d c v) (hi : n ∈ c.inserted.map Prod.fst) :
    n ∉ c.source.ids := by
  obtain ⟨g, -, ha, -⟩ := h.prepared
  obtain ⟨x, hx, rfl⟩ := List.mem_map.1 hi
  exact ha.notMem_of_detached (ha.detached x hx)

/-- A removed leaf has a place. -/
theorem exists_place_of_removed {x : ElementId × Token} (hx : x ∈ c.removed) :
    ∃ cs : Place, c.source = plug cs (.leaf x.1 x.2) := by
  obtain ⟨xs, ys, hsplit⟩ := List.append_of_mem hx
  refine ⟨⟨c.id, c.type, c.left ++ leafs xs, leafs ys ++ c.right⟩ :: c.place, ?_⟩
  simp [Change.source, hsplit, leafs, plug]

/-- **The ways up stay**, but for those from removed leaves. -/
theorem Makes.ancestors_eq (h : w.Makes d c v) (hw : w.Standing d c.source)
    (hn : n ∈ c.source.ids) (hr : n ∉ c.removed.map Prod.fst) :
    v.forest.ancestors n = w.forest.ancestors n := by
  have hholds := hw.comprises.toHolds
  have hsize : w.forest.size ≤ v.forest.size := by
    obtain ⟨g, hg, -, rfl⟩ := h.prepared
    simpa using hg.size_le
  refine hholds.ancestors_congr hn hsize fun i hi => ?_
  have his := hw.ancestors_subset hn hi
  refine h.parent?_eq (hholds.stores.lt_size i his) ?_ fun hins => h.notMem_source hins his
  intro hrem
  obtain ⟨x, hx, rfl⟩ := List.mem_map.1 hrem
  obtain ⟨cs, hcs⟩ := exists_place_of_removed hx
  rw [hcs] at hholds hn
  exact hr (hholds.eq_of_mem_ancestors_of_leaf hn hi ▸ hrem)

/-- An inserted leaf stands below the composite of the edit. -/
theorem Makes.ancestors_inserted (h : w.Makes d c v) (hi : n ∈ c.inserted.map Prod.fst) :
    v.forest.ancestors n = n :: c.id :: c.place.map Crumb.id := by
  obtain ⟨x, hx, rfl⟩ := List.mem_map.1 hi
  have hleaf : Planted.leaf x.1 x.2 ∈ c.left ++ leafs c.inserted ++ c.right := by
    rw [List.mem_append, List.mem_append]
    exact .inl (.inr (List.mem_map_of_mem hx))
  exact h.standing.comprises.toHolds.ancestors_child hleaf

/-- An element below the root whose first leaf is neither white space nor a comment. -/
def StartsSolid (p : Planted) (a : ElementId) : Prop :=
  ∃ ds r x xs, p = plug ds r ∧ r.id = a ∧ ds ≠ [] ∧ r.leaves = x :: xs ∧ x.2.isTrivia = false

/-- Such an element does not start with white space or a comment. -/
theorem Standing.notMem_ancestors_of_isTrivia {p : Planted} (h : w.Standing d p)
    (ha : StartsSolid p a) {xs gap ys : List (ElementId × Token)}
    (hp : p.leaves = xs ++ (gap ++ ys)) (hx : ∀ x ∈ xs, a ∉ w.forest.ancestors x.1)
    (hgap : ∀ x ∈ gap, x.2.isTrivia = true) : ∀ x ∈ gap, a ∉ w.forest.ancestors x.1 := by
  obtain ⟨ds, r, y, zs, rfl, rfl, -, hr, hsolid⟩ := ha
  intro x hxg hxa
  have hfirst := (h.comprises.toHolds.leavesBefore_eq hr).2
  rw [hp, (Forest.leavesBefore_append_of_notMem hx _).2] at hfirst
  obtain ⟨-, z, hz, hhead⟩ := Forest.leavesBefore_append_of_mem ⟨x, hxg, hxa⟩ ys
  rw [hfirst, List.head?_cons, Option.some.injEq] at hhead
  rw [hhead, hgap z hz] at hsolid
  simp at hsolid

/-- **The leaves before an element after an edit**: if it starts before the edit, they are as before;
otherwise the inserted leaves stand among them where the removed ones stood. -/
theorem Makes.leavesBefore_cases (h : w.Makes d c v) (hw : w.Standing d c.source)
    (ha : StartsSolid c.source a) (hrem : ∀ x ∈ c.removed, x.2.isTrivia = true)
    (hin : ∀ b ∈ c.id :: c.place.map Crumb.id, b ≠ d.root →
      ∃ x ∈ c.front ++ c.removed, b ∈ w.forest.ancestors x.1) :
    (∃ x ∈ c.front, a ∈ w.forest.ancestors x.1) ∧
        v.forest.leavesBefore a c.target.leaves = w.forest.leavesBefore a c.source.leaves ∨
      (∀ x ∈ c.front ++ c.removed, a ∉ w.forest.ancestors x.1) ∧
        w.forest.leavesBefore a c.source.leaves =
          c.front ++ c.removed ++ w.forest.leavesBefore a c.back ∧
        v.forest.leavesBefore a c.target.leaves =
          c.front ++ c.inserted ++ w.forest.leavesBefore a c.back := by
  have hsolid := ha
  obtain ⟨ds, r, y, ys, hplug, rfl, hds, hr, -⟩ := ha
  have hroot : r.id ≠ d.root := (hplug ▸ hw).id_ne_root hds
  have hmem : r.id ∈ c.source.ids := hplug ▸ Planted.id_mem_plug ds r
  -- leaves that stay have the same way up
  have hnodup : ((c.front ++ c.removed ++ c.back).map Prod.fst).Nodup := by
    rw [← c.leaves_source]
    exact (Planted.leaves_sublist _).nodup hw.comprises.nodup
  have hstay : ∀ x ∈ c.front ++ c.back, v.forest.ancestors x.1 = w.forest.ancestors x.1 := by
    intro x hx
    refine h.ancestors_eq hw (Forest.fst_mem_ids_of_mem_leaves ?_) fun hr => ?_
    · rw [c.leaves_source]
      simp only [List.mem_append] at hx ⊢
      tauto
    · simp only [List.map_append, List.nodup_append, List.mem_append] at hnodup hx
      rcases hx with hx | hx
      · exact hnodup.1.2.2 _ (List.mem_map_of_mem hx) _ hr rfl
      · exact hnodup.2.2 _ (.inr hr) _ (List.mem_map_of_mem hx) rfl
  have hfront := Forest.leavesBefore_congr (a := r.id) fun x hx =>
    hstay x (List.mem_append_left _ hx)
  have hback := Forest.leavesBefore_congr (a := r.id) fun x hx =>
    hstay x (List.mem_append_right _ hx)
  rw [c.leaves_source, c.leaves_target]
  by_cases hf : ∃ x ∈ c.front, r.id ∈ w.forest.ancestors x.1
  · -- the element starts before the edit
    have hf' : ∃ x ∈ c.front, r.id ∈ v.forest.ancestors x.1 := by
      obtain ⟨x, hx, hxa⟩ := hf
      exact ⟨x, hx, (hstay x (List.mem_append_left _ hx)).symm ▸ hxa⟩
    rw [List.append_assoc, List.append_assoc, (Forest.leavesBefore_append_of_mem hf _).1,
      (Forest.leavesBefore_append_of_mem hf' _).1]
    exact .inl ⟨hf, hfront⟩
  · have hfn : ∀ x ∈ c.front, r.id ∉ w.forest.ancestors x.1 := fun x hx hxa => hf ⟨x, hx, hxa⟩
    -- its first leaf is solid, so it was not removed
    have hrn : ∀ x ∈ c.removed, r.id ∉ w.forest.ancestors x.1 :=
      hw.notMem_ancestors_of_isTrivia hsolid (by rw [c.leaves_source, List.append_assoc]) hfn hrem
    have hsn : ∀ x ∈ c.front ++ c.removed, r.id ∉ w.forest.ancestors x.1 := fun x hx =>
      (List.mem_append.1 hx).elim (hfn x) (hrn x)
    -- nor does it hold the composite of the edit
    have htn : ∀ x ∈ c.front ++ c.inserted, r.id ∉ v.forest.ancestors x.1 := by
      intro x hx
      rcases List.mem_append.1 hx with hx | hx
      · rw [hstay x (List.mem_append_left _ hx)]
        exact hfn x hx
      · have hi : x.1 ∈ c.inserted.map Prod.fst := List.mem_map_of_mem hx
        rw [h.ancestors_inserted hi]
        intro hm
        rcases List.mem_cons.1 hm with hid | hm
        · exact h.notMem_source hi (hid ▸ hmem)
        · obtain ⟨z, hz, hza⟩ := hin _ hm hroot
          exact hsn z hz hza
    refine .inr ⟨hsn, (Forest.leavesBefore_append_of_notMem hsn _).1, ?_⟩
    rw [(Forest.leavesBefore_append_of_notMem htn _).1, hback]

end Workspace

end BnfSuppression
