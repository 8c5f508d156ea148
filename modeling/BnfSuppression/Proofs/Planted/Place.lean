import BnfSuppression.Proofs.Planted

/-!
# Places in a Tree

A place in a planted tree is given by the composites around it, the innermost first, each with what
stands on either side of the place among its children. A forest moves about by naming parents and
looking up indices; at a place of a stored tree all of these movements are readings of two lists,
the leaves before the place and the leaves after it.

## Main results

* `Planted.leaves_plug`: the leaves of a tree, split at a place.
* `Planted.exists_place`, `Planted.exists_place_of_leaves`: every element and every leaf has a
  place.
* `Forest.stores_plug`: storing a tree is storing a subtree and what is around it.
* `Forest.Holds.ancestors_eq`, `Forest.Holds.top_eq`: the way up from a place.
* `Forest.Holds.step_eq`: **one step leads to the nearest leaf beside the place**.
* `Forest.Holds.walkWhile_eq`: a walk is a `takeWhile` of the leaves beside the place.
-/

namespace BnfSuppression

/-- A composite around a place, with its children on both sides of the place. -/
structure Crumb where
  id : ElementId
  type : ElementType
  left : List Planted
  right : List Planted

namespace Planted

/-- A place in a tree: the composites around it, the innermost first. -/
abbrev Place := List Crumb

/-- The tree that has a subtree at a place. -/
def plug : Place → Planted → Planted
  | [], p => p
  | c :: cs, p => plug cs (.node c.id c.type (c.left ++ p :: c.right))

namespace Place

/-- The composite right around the place. -/
def parent? (cs : Place) : Option ElementId := cs.head?.map Crumb.id

/-- The leaves before the place, in the order of the text. -/
def before : Place → List (ElementId × Token)
  | [] => []
  | c :: cs => before cs ++ leavesOf c.left

/-- The leaves after the place, in the order of the text. -/
def after : Place → List (ElementId × Token)
  | [] => []
  | c :: cs => leavesOf c.right ++ after cs

/-- The ids of all elements outside the place. -/
def ids : Place → List ElementId
  | [] => []
  | c :: cs => c.id :: (idsOf c.left ++ idsOf c.right) ++ ids cs

/-- The leaves beside the place in a direction, the nearest first. -/
def beside (cs : Place) : Direction → List (ElementId × Token)
  | .forward => cs.after
  | .backward => cs.before.reverse

/-- The leaves before a place within a place are the outer ones, then the inner ones. -/
theorem before_append (cs ds : Place) : before (cs ++ ds) = before ds ++ before cs := by
  induction cs with
  | nil => simp [before]
  | cons c cs ih => simp [before, ih]

/-- The leaves after a place within a place are the inner ones, then the outer ones. -/
theorem after_append (cs ds : Place) : after (cs ++ ds) = after cs ++ after ds := by
  induction cs with
  | nil => simp [after]
  | cons c cs ih => simp [after, ih]

/-- In either direction the nearest leaves are those beside the place in its own composite. -/
theorem beside_cons (c : Crumb) (cs : Place) (direction : Direction) :
    beside (c :: cs) direction = beside [c] direction ++ beside cs direction := by
  cases direction <;> simp [beside, before, after]

/-- The leaves before a place are elements outside of it. -/
theorem map_before_subset_ids (cs : Place) : cs.before.map Prod.fst ⊆ cs.ids := by
  induction cs with
  | nil => exact List.Subset.refl _
  | cons c cs ih =>
      intro i hi
      simp only [before, List.map_append, List.mem_append] at hi
      simp only [ids, List.cons_append, List.mem_cons, List.mem_append]
      rcases hi with hi | hi
      · exact .inr (.inr (ih hi))
      · exact .inr (.inl (.inl ((leavesOf_sublist c.left).subset hi)))

/-- The composites around a place are elements outside of it. -/
theorem map_id_sublist_ids (cs : Place) : (cs.map Crumb.id).Sublist cs.ids := by
  induction cs with
  | nil => exact List.Sublist.refl _
  | cons c cs ih => exact (ih.trans (List.sublist_append_right _ _)).cons_cons c.id

/-- A place is no deeper than there are elements outside of it. -/
theorem length_le_length_ids (cs : Place) : cs.length ≤ cs.ids.length := by
  induction cs with
  | nil => simp
  | cons c cs ih =>
      simp only [ids, List.length_cons, List.length_append]
      omega

end Place

/-- The leaves of a tree as they are met in a direction. -/
def leavesToward (p : Planted) : Direction → List (ElementId × Token)
  | .forward => p.leaves
  | .backward => p.leaves.reverse

/-- A tree at a place within a place is the plugged inner tree at the outer place. -/
theorem plug_append (cs ds : Place) (p : Planted) : plug (cs ++ ds) p = plug ds (plug cs p) := by
  induction cs generalizing p with
  | nil => rfl
  | cons c cs ih => exact ih _

/-- A place splits the leaves of the tree. -/
theorem leaves_plug (cs : Place) (p : Planted) :
    (plug cs p).leaves = cs.before ++ p.leaves ++ cs.after := by
  induction cs generalizing p with
  | nil => simp [plug, Place.before, Place.after]
  | cons c cs ih => simp [plug, ih, leaves, leavesOf, Place.before, Place.after]

/-- The leaves beside a place are the last ones that a walk through the tree meets. -/
theorem beside_suffix (cs : Place) (p : Planted) (direction : Direction) :
    cs.beside direction <:+ (plug cs p).leavesToward direction := by
  cases direction with
  | forward => exact ⟨cs.before ++ p.leaves, by simp [Place.beside, leavesToward, leaves_plug]⟩
  | backward =>
      exact ⟨cs.after.reverse ++ p.leaves.reverse, by
        simp [Place.beside, leavesToward, leaves_plug]⟩

/-- The ids of a tree are those at a place and those outside of it. -/
theorem ids_plug_perm (cs : Place) (p : Planted) : (plug cs p).ids.Perm (p.ids ++ cs.ids) := by
  induction cs generalizing p with
  | nil => simp [plug, Place.ids]
  | cons c cs ih =>
      refine (ih _).trans ?_
      simp only [ids, idsOf_append, idsOf, Place.ids]
      rw [← List.append_assoc p.ids]
      refine List.Perm.append_right _ ?_
      refine (List.Perm.cons _ ?_).trans List.perm_middle.symm
      rw [← List.append_assoc, ← List.append_assoc]
      exact List.perm_append_comm.append_right _

/-- What is at a place is part of the tree. -/
theorem ids_subset_plug (cs : Place) (p : Planted) : p.ids ⊆ (plug cs p).ids := fun _ hi =>
  (ids_plug_perm cs p).mem_iff.2 (List.mem_append_left _ hi)

/-- A tree keeps its id at any place. -/
theorem id_mem_plug (cs : Place) (p : Planted) : p.id ∈ (plug cs p).ids :=
  ids_subset_plug cs p p.id_mem_ids

/-- The topmost id of a tree, from a place. -/
theorem getLastD_ids_place (cs : Place) (p : Planted) (d : ElementId) :
    (p.id :: cs.map Crumb.id).getLastD d = (plug cs p).id := by
  induction cs generalizing p with
  | nil => rfl
  | cons c cs ih =>
      rw [plug, ← ih]
      simp [Planted.id]

/-- Every element of a tree is at a place. -/
theorem exists_place {p : Planted} {i : ElementId} (h : i ∈ p.ids) :
    ∃ cs q, p = plug cs q ∧ q.id = i := by
  induction p using induction with
  | leaf id t => exact ⟨[], .leaf id t, rfl, by simpa [ids, Planted.id, eq_comm] using h⟩
  | node id type children ih =>
      rcases List.mem_cons.1 h with rfl | h
      · exact ⟨[], _, rfl, rfl⟩
      · obtain ⟨c, hc, hi⟩ := mem_idsOf.1 h
        obtain ⟨cs, q, rfl, hq⟩ := ih c hc hi
        obtain ⟨l, r, rfl⟩ := List.append_of_mem hc
        exact ⟨cs ++ [⟨id, type, l, r⟩], q, by rw [plug_append]; rfl, hq⟩

/-- A leaf among trees side by side lies in one of them. -/
theorem exists_split_of_leavesOf {ps : List Planted} {pre post : List (ElementId × Token)}
    {x : ElementId × Token} (h : leavesOf ps = pre ++ x :: post) :
    ∃ l c r pre' post', ps = l ++ c :: r ∧ c.leaves = pre' ++ x :: post' ∧
      pre = leavesOf l ++ pre' ∧ post = post' ++ leavesOf r := by
  induction ps generalizing pre with
  | nil => simp [leavesOf] at h
  | cons p ps ih =>
      simp only [leavesOf] at h
      rcases List.append_eq_append_iff.1 h with ⟨m, hpre, hm⟩ | ⟨m, hp, hm⟩
      · obtain ⟨l, c, r, pre', post', rfl, hc, rfl, rfl⟩ := ih hm
        exact ⟨p :: l, c, r, pre', post', rfl, hc, by simp [hpre, leavesOf], rfl⟩
      · cases m with
        | nil =>
            obtain ⟨l, c, r, pre', post', rfl, hc, hl, rfl⟩ := @ih [] hm.symm
            refine ⟨p :: l, c, r, pre', post', rfl, hc, ?_, rfl⟩
            rw [leavesOf, List.append_assoc, ← hl]
            simpa using hp.symm
        | cons y m =>
            simp only [List.cons_append, List.cons.injEq] at hm
            obtain ⟨rfl, rfl⟩ := hm
            exact ⟨[], p, ps, pre, m, rfl, hp, by simp [leavesOf], rfl⟩

/-- Every leaf of a tree is at a place, with the leaves on both sides of it. -/
theorem exists_place_of_leaves {p : Planted} {pre post : List (ElementId × Token)}
    {x : ElementId × Token} (h : p.leaves = pre ++ x :: post) :
    ∃ cs : Place, p = plug cs (.leaf x.1 x.2) ∧ cs.before = pre ∧ cs.after = post := by
  induction p using induction generalizing pre post with
  | leaf id t =>
      simp only [leaves] at h
      obtain ⟨rfl, rfl, rfl⟩ : pre = [] ∧ (id, t) = x ∧ post = [] := by
        cases pre with
        | nil => simpa using h
        | cons y pre => simp at h
      exact ⟨[], rfl, rfl, rfl⟩
  | node id type children ih =>
      simp only [leaves] at h
      obtain ⟨l, c, r, pre', post', rfl, hc, rfl, rfl⟩ := exists_split_of_leavesOf h
      obtain ⟨cs, rfl, rfl, rfl⟩ := ih c (by simp) hc
      refine ⟨cs ++ [⟨id, type, l, r⟩], by rw [plug_append]; rfl, ?_, ?_⟩
      · simp [Place.before_append, Place.before]
      · simp [Place.after_append, Place.after]

/-- The leaf that a walk through a tree meets next is beside the place of a leaf. -/
theorem exists_place_of_leavesToward {p : Planted} {direction : Direction}
    {pre post : List (ElementId × Token)} {x : ElementId × Token}
    (h : p.leavesToward direction = pre ++ x :: post) :
    ∃ cs : Place, p = plug cs (.leaf x.1 x.2) ∧ cs.beside direction = post := by
  cases direction with
  | forward =>
      obtain ⟨cs, hp, -, ha⟩ := exists_place_of_leaves h
      exact ⟨cs, hp, ha⟩
  | backward =>
      have h' : p.leaves = post.reverse ++ x :: pre.reverse := by
        rw [← List.reverse_reverse p.leaves]
        simp only [leavesToward] at h
        rw [h]
        simp
      obtain ⟨cs, hp, hb, -⟩ := exists_place_of_leaves h'
      exact ⟨cs, hp, by simp [Place.beside, hb]⟩

end Planted

open Planted (plug Place)

/-- Where one arrives when leaves lie ahead, the nearest first. -/
def Step.ofHead : List (ElementId × Token) → Step
  | [] => .edge
  | x :: _ => .leaf x.1

namespace Forest

variable {f : Forest}

/-! ### Storing at a place -/

/-- The forest stores everything around a place at which the element `hole` stands. -/
def StoresAround (f : Forest) : Place → ElementId → Prop
  | [], _ => True
  | c :: cs, hole =>
    f.get? c.id =
        some ⟨.node c.type (c.left.map Planted.id ++ hole :: c.right.map Planted.id),
          Place.parent? cs⟩ ∧
      f.StoresAll c.id c.left ∧ f.StoresAll c.id c.right ∧ f.StoresAround cs c.id

/-- Storing a tree is storing a subtree and what is around it. -/
theorem stores_plug {cs : Place} {p : Planted} :
    f.Stores none (plug cs p) ↔ f.StoresAround cs p.id ∧ f.Stores cs.parent? p := by
  induction cs generalizing p with
  | nil => simp [plug, StoresAround, Place.parent?]
  | cons c cs ih =>
      rw [plug, ih]
      simp only [Stores, StoresAround, Planted.id, storesAll_append, StoresAll, List.map_append,
        List.map_cons, Place.parent?, List.head?_cons, Option.map_some]
      tauto

/-- Of a shown tree, the subtree at a place is shown. -/
theorem Shows.of_plug {cs : Place} {p : Planted} (h : f.Shows (plug cs p)) : f.Shows p := by
  induction cs generalizing p with
  | nil => exact h
  | cons c cs ih => exact (ih h).child (by simp)

/-- Another subtree may be shown at a place, if nothing around it is made of anything else. -/
theorem Shows.plug_congr {g : Forest} {cs : Place} {p q : Planted} (h : f.Shows (plug cs p))
    (hid : q.id = p.id) (hg : ∀ i ∈ cs.ids, g.shape? i = f.shape? i) (hq : g.Shows q) :
    g.Shows (plug cs q) := by
  induction cs generalizing p q with
  | nil => exact hq
  | cons c cs ih =>
      simp only [Place.ids, List.cons_append, List.mem_cons, List.mem_append] at hg
      have hplug : f.Shows (plug cs (.node c.id c.type (c.left ++ p :: c.right))) := h
      have hnode := hplug.of_plug
      simp only [Shows, showsAll_iff] at hnode
      have beside : ∀ r ∈ c.left ++ c.right, g.Shows r := by
        intro r hr
        refine (hnode.2 r ?_).congr fun i hi => hg i ?_
        · simp only [List.mem_append, List.mem_cons] at hr ⊢
          tauto
        · have hm : i ∈ Planted.idsOf (c.left ++ c.right) := Planted.mem_idsOf.2 ⟨r, hr, hi⟩
          rw [Planted.idsOf_append, List.mem_append] at hm
          tauto
      refine ih h rfl (fun i hi => hg i (by simp [hi])) ?_
      simp only [Shows, showsAll_iff]
      refine ⟨by rw [hg c.id (by simp), hnode.1]; simp [hid], fun r hr => ?_⟩
      rcases List.mem_append.1 hr with hr | hr
      · exact beside r (by simp [hr])
      · rcases List.mem_cons.1 hr with rfl | hr
        · exact hq
        · exact beside r (by simp [hr])

/-- What is around a place only depends on the elements outside of it. -/
theorem StoresAround.congr {g : Forest} {cs : Place} {hole : ElementId} (h : f.StoresAround cs hole)
    (hg : ∀ i ∈ cs.ids, g.get? i = f.get? i) : g.StoresAround cs hole := by
  induction cs generalizing hole with
  | nil => trivial
  | cons c cs ih =>
      simp only [Place.ids, List.cons_append, List.mem_cons, List.mem_append] at hg
      obtain ⟨hc, hl, hr, h⟩ := h
      refine ⟨by rw [hg c.id (by simp), hc], ?_, ?_, ih h fun i hi => hg i (by simp [hi])⟩
      · exact storesAll_iff.2 fun p hp => (storesAll_iff.1 hl p hp).congr fun i hi =>
          hg i (by simp [Planted.mem_idsOf.2 ⟨p, hp, hi⟩])
      · exact storesAll_iff.2 fun p hp => (storesAll_iff.1 hr p hp).congr fun i hi =>
          hg i (by simp [Planted.mem_idsOf.2 ⟨p, hp, hi⟩])

section

variable {cs : Place} {p : Planted}

/-- A subtree of a held tree is stored below the composite around it. -/
theorem Holds.stores_at (h : f.Holds (plug cs p)) : f.Stores cs.parent? p :=
  (stores_plug.1 h.stores).2

/-- A forest that holds a tree at a place stores what is around the place. -/
theorem Holds.around (h : f.Holds (plug cs p)) : f.StoresAround cs p.id :=
  (stores_plug.1 h.stores).1

/-- No id of a tree that stands at a place occurs outside of the place. -/
theorem Holds.nodup_append (h : f.Holds (plug cs p)) : (p.ids ++ cs.ids).Nodup :=
  (Planted.ids_plug_perm cs p).nodup_iff.1 h.nodup

/-- A tree that stands at a place of a held tree has every id once. -/
theorem Holds.nodup_at (h : f.Holds (plug cs p)) : p.ids.Nodup :=
  h.nodup_append.of_append_left

/-- The topmost element at a place is none of those outside of it. -/
theorem Holds.nodup_hole (h : f.Holds (plug cs p)) : (p.id :: cs.ids).Nodup := by
  have hn := h.nodup_append
  rw [List.nodup_append] at hn
  exact List.nodup_cons.2 ⟨fun hm => hn.2.2 _ p.id_mem_ids _ hm rfl, hn.2.1⟩

/-- The surroundings of a place are no more than the elements of the forest. -/
theorem Holds.length_place_le (h : f.Holds (plug cs p)) : cs.length + 1 ≤ f.size := by
  have hl := h.stores.length_ids_le h.nodup
  have hp := p.length_ids_pos
  have hc := cs.length_le_length_ids
  rw [(Planted.ids_plug_perm cs p).length_eq, List.length_append] at hl
  omega

/-- The parent of what stands at a place is the composite right around the place. -/
theorem Holds.parent?_eq (h : f.Holds (plug cs p)) : f.parent? p.id = cs.parent? :=
  h.stores_at.parent?_eq

/-- The children of the composite right around a place. -/
theorem Holds.children_eq {c : Crumb} (h : f.Holds (plug (c :: cs) p)) :
    f.children c.id = c.left.map Planted.id ++ p.id :: c.right.map Planted.id := by
  simp [children, h.around.1, Shape.children]

/-! ### Upwards -/

/-- The way up from a place, with enough height, is the place itself. -/
theorem ancestorsUpTo_eq {hole : ElementId} (h : f.StoresAround cs hole)
    (hp : f.parent? hole = cs.parent?) {height : Nat} (hh : cs.length ≤ height) :
    f.ancestorsUpTo (height + 1) hole = hole :: cs.map Crumb.id := by
  induction cs generalizing hole height with
  | nil => simp [ancestorsUpTo, hp, Place.parent?]
  | cons c cs ih =>
      obtain ⟨height, rfl⟩ : ∃ k, height = k + 1 := ⟨height - 1, by simp at hh; omega⟩
      obtain ⟨hc, -, -, h⟩ := h
      have hc' : f.parent? c.id = Place.parent? cs := by simp [parent?, hc]
      have hh' : cs.length ≤ height := by simpa using hh
      rw [ancestorsUpTo, hp]
      simp [Place.parent?, ih h hc' hh']

/-- **The elements around an element** are the composites of its place. -/
theorem Holds.ancestors_eq (h : f.Holds (plug cs p)) :
    f.ancestors p.id = p.id :: cs.map Crumb.id :=
  ancestorsUpTo_eq h.around h.parent?_eq (by have := h.length_place_le; omega)

/-- The outermost element around an element is the root. -/
theorem Holds.top_eq (h : f.Holds (plug cs p)) : f.top p.id = (plug cs p).id := by
  rw [top, h.ancestors_eq]
  exact Planted.getLastD_ids_place cs p p.id

/-! ### Leaf by leaf -/

/-- The first leaf below a stored tree is the tree's first leaf, if it has leaves. -/
theorem Stores.firstLeaf?_eq {outer? : Option ElementId} (h : f.Stores outer? p)
    (hn : p.ids.Nodup) : f.firstLeaf? p.id = p.leaves.head?.map Prod.fst := by
  rw [firstLeaf?, h.leaves_eq hn, List.head?_map]

/-- The last leaf below a stored tree is the tree's last leaf, if it has leaves. -/
theorem Stores.lastLeaf?_eq {outer? : Option ElementId} (h : f.Stores outer? p)
    (hn : p.ids.Nodup) : f.lastLeaf? p.id = p.leaves.getLast?.map Prod.fst := by
  rw [lastLeaf?, h.leaves_eq hn, List.getLast?_map]

/-- The first leaf among stored trees side by side. -/
theorem findSome?_firstLeaf? {parent : ElementId} {ps : List Planted} (h : f.StoresAll parent ps)
    (hn : (Planted.idsOf ps).Nodup) :
    (ps.map Planted.id).findSome? f.firstLeaf? = (Planted.leavesOf ps).head?.map Prod.fst := by
  induction ps with
  | nil => rfl
  | cons p ps ih =>
      simp only [Planted.idsOf, List.nodup_append] at hn
      rw [List.map_cons, List.findSome?_cons, h.1.firstLeaf?_eq hn.1, ih h.2 hn.2.1,
        Planted.leavesOf]
      cases p.leaves <;> rfl

/-- The last leaf among stored trees side by side. -/
theorem findSome?_lastLeaf? {parent : ElementId} {ps : List Planted} (h : f.StoresAll parent ps)
    (hn : (Planted.idsOf ps).Nodup) :
    (ps.map Planted.id).reverse.findSome? f.lastLeaf? =
      (Planted.leavesOf ps).getLast?.map Prod.fst := by
  induction ps with
  | nil => rfl
  | cons p ps ih =>
      simp only [Planted.idsOf, List.nodup_append] at hn
      rw [List.map_cons, List.reverse_cons, List.findSome?_append, ih h.2 hn.2.1,
        Planted.leavesOf, List.getLast?_append]
      simp only [List.findSome?_singleton, h.1.lastLeaf?_eq hn.1]
      cases (Planted.leavesOf ps).getLast? <;> rfl

/-- The siblings of a place, from whatever side they are met. -/
theorem siblings_eq (direction : Direction) (c : Crumb) (hole : ElementId) :
    siblings direction (c.left.map Planted.id ++ hole :: c.right.map Planted.id) c.left.length =
      match direction with
      | .forward => c.right.map Planted.id
      | .backward => (c.left.map Planted.id).reverse := by
  cases direction with
  | forward =>
      have hd : (c.left.map Planted.id ++ hole :: c.right.map Planted.id).drop
          (c.left.length + 1) = c.right.map Planted.id := by
        rw [← List.drop_drop, List.drop_left' (by simp)]
        rfl
      simp only [siblings, hd]
  | backward =>
      have ht : (c.left.map Planted.id ++ hole :: c.right.map Planted.id).take c.left.length =
          c.left.map Planted.id := List.take_left' (by simp)
      simp only [siblings, ht]

/-- The nearest leaf among the siblings of a place. -/
theorem findSome?_siblings {c : Crumb} {hole : ElementId} (hl : f.StoresAll c.id c.left)
    (hr : f.StoresAll c.id c.right) (hln : (Planted.idsOf c.left).Nodup)
    (hrn : (Planted.idsOf c.right).Nodup) (direction : Direction) :
    (siblings direction (c.left.map Planted.id ++ hole :: c.right.map Planted.id)
        c.left.length).findSome? (f.nearestLeaf? direction) =
      (Place.beside [c] direction).head?.map Prod.fst := by
  rw [siblings_eq]
  cases direction with
  | forward => simpa [nearestLeaf?, Place.beside, Place.after] using findSome?_firstLeaf? hr hrn
  | backward => simpa [nearestLeaf?, Place.beside, Place.before] using findSome?_lastLeaf? hl hln

/-- The index of an element behind others that differ from it. -/
theorem idxOf?_append_cons {l r : List ElementId} {i : ElementId} (h : i ∉ l) :
    (l ++ i :: r).idxOf? i = some l.length := by
  rw [List.idxOf?_eq_some_iff]
  refine ⟨by simp, by simp, fun j hj => ?_⟩
  rw [List.getElem_append_left hj]
  exact fun he => h (he ▸ List.getElem_mem _)

/-- The index of a place among the children around it. -/
theorem idxOf?_hole {c : Crumb} {hole : ElementId} (h : hole ∉ Planted.idsOf c.left) :
    (c.left.map Planted.id ++ hole :: c.right.map Planted.id).idxOf? hole =
      some c.left.length := by
  refine (idxOf?_append_cons fun hm => ?_).trans (by simp)
  obtain ⟨q, hq, rfl⟩ := List.mem_map.1 hm
  exact h (Planted.mem_idsOf.2 ⟨q, hq, q.id_mem_ids⟩)

/-- With enough height, a step from a place leads to the nearest leaf beside it. -/
theorem stepUpTo_eq {hole : ElementId} (h : f.StoresAround cs hole)
    (hp : f.parent? hole = cs.parent?) (hn : (hole :: cs.ids).Nodup) (direction : Direction)
    {height : Nat} (hh : cs.length ≤ height) :
    f.stepUpTo direction height hole = .ofHead (cs.beside direction) := by
  induction cs generalizing hole height with
  | nil =>
      have hb : Place.beside [] direction = [] := by cases direction <;> rfl
      cases height with
      | zero => simp [stepUpTo, hb, Step.ofHead]
      | succ height => simp [stepUpTo, hp, hb, Step.ofHead, Place.parent?]
  | cons c cs ih =>
      obtain ⟨height, rfl⟩ : ∃ k, height = k + 1 := ⟨height - 1, by simp at hh; omega⟩
      obtain ⟨hc, hl, hr, h⟩ := h
      have hc' : f.parent? c.id = Place.parent? cs := by simp [parent?, hc]
      have hh' : cs.length ≤ height := by simpa using hh
      simp only [Place.ids, List.cons_append, List.nodup_cons, List.nodup_append,
        List.mem_cons, List.mem_append, not_or] at hn
      obtain ⟨⟨-, ⟨hole_left, -⟩, -⟩, ⟨-, c_ids⟩, ⟨hln, hrn, -⟩, hcs, -⟩ := hn
      have hchildren : f.children c.id =
          c.left.map Planted.id ++ hole :: c.right.map Planted.id := by
        simp [children, hc, Shape.children]
      rw [stepUpTo, hp]
      simp only [Place.parent?, List.head?_cons, Option.map_some, hchildren,
        idxOf?_hole hole_left, findSome?_siblings hl hr hln hrn, Place.beside_cons c cs]
      cases hb : Place.beside [c] direction with
      | nil => exact ih h hc' (List.nodup_cons.2 ⟨c_ids, hcs⟩) hh'
      | cons x xs => rfl

/-- **One step leads to the nearest leaf beside the place.** -/
theorem Holds.step_eq (h : f.Holds (plug cs p)) (direction : Direction) :
    f.step direction p.id = .ofHead (cs.beside direction) :=
  stepUpTo_eq h.around h.parent?_eq h.nodup_hole direction (by have := h.length_place_le; omega)

/-- From leaf to leaf, a step leads to the next one. -/
theorem Holds.step_of_leavesToward {q : Planted} (h : f.Holds q) {direction : Direction}
    {pre post : List (ElementId × Token)} {x : ElementId × Token}
    (hq : q.leavesToward direction = pre ++ x :: post) :
    f.step direction x.1 = .ofHead post := by
  obtain ⟨cs, rfl, hb⟩ := Planted.exists_place_of_leavesToward hq
  rw [← hb]
  exact h.step_eq direction

/-- A walk over the last leaves that a direction meets takes those that satisfy the condition. -/
theorem Holds.walkUpTo_eq {q : Planted} (h : f.Holds q) {direction : Direction}
    (c : ElementId → Bool) {xs : List (ElementId × Token)}
    (hx : xs <:+ q.leavesToward direction) {count : Nat} (hc : xs.length < count) :
    f.walkUpTo direction c count (.ofHead xs) =
      ⟨(xs.map Prod.fst).takeWhile c, .ofHead (xs.dropWhile fun x => c x.1)⟩ := by
  induction xs generalizing count with
  | nil => cases count <;> rfl
  | cons x xs ih =>
      obtain ⟨count, rfl⟩ : ∃ k, count = k + 1 := ⟨count - 1, by omega⟩
      obtain ⟨pre, hpre⟩ := hx
      have hs : f.step direction x.1 = .ofHead xs := h.step_of_leavesToward hpre.symm
      have hi := ih ⟨pre ++ [x], by simpa using hpre⟩ (by simpa using hc)
      show f.walkUpTo direction c (count + 1) (.leaf x.1) = _
      rw [walkUpTo, hs, hi, List.map_cons, List.takeWhile_cons, List.dropWhile_cons]
      by_cases hx : c x.1 = true
      · simp [hx]
      · simp [hx, Step.ofHead]

/-- **A walk takes the leaves ahead for as long as they satisfy the condition.** -/
theorem Holds.walkWhile_eq {q : Planted} (h : f.Holds q) {direction : Direction}
    (c : ElementId → Bool) {xs : List (ElementId × Token)}
    (hx : xs <:+ q.leavesToward direction) :
    f.walkWhile direction c (.ofHead xs) =
      ⟨(xs.map Prod.fst).takeWhile c, .ofHead (xs.dropWhile fun x => c x.1)⟩ := by
  refine h.walkUpTo_eq c hx ?_
  have hl := h.stores.length_ids_le h.nodup
  have hs := (Planted.leaves_sublist q).length_le
  have hx := hx.length_le
  have ht : (q.leavesToward direction).length = q.leaves.length := by
    cases direction <;> simp [Planted.leavesToward]
  simp only [List.length_map] at hs
  omega

end

end Forest

end BnfSuppression
