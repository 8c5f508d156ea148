import BnfSuppression.Proofs.Shared

/-!
# Layers of a Forest

A host may insert a comment that is somewhere else already, or take back an edit after another
document changed the same composite. Then children and parents need not agree any more. But only
leaves move: the composites stay where they were planted, each after the one that holds it. So what
is below an element and what is around it does not depend on how far one looks, in any forest that
planting and editing lead to.

## Main definitions

* `Forest.Layered`: composites come before what they hold.
* `Forest.Ascends`, `Forest.Nearest`, `Forest.Outermost`: the way up without a bound.
* `Workspace.Layered`: the forest of a workspace is layered, and its histories move leaves alone.

## Main results

* `Forest.Layered.below_eq_of_grows`: leaves that stand nowhere are below nothing.
* `Forest.Layered.enclosing?_eq_some_iff`, `Forest.Layered.top_eq_iff`: the way up is long enough.
* `Workspace.Layered.attempt`, `Workspace.Layered.apply`: **calls and suppression actions keep the
  layers**, whatever leaves they are given.
-/

namespace BnfSuppression

open Planted (plug Place)

namespace Forest

/-- The element is a composite. -/
def isNode (f : Forest) (id : ElementId) : Bool := (f.type? id).isSome

/-- Composites come after those that hold them; leaves may be anywhere. -/
structure Layered (f : Forest) : Prop where
  child : ∀ x, ∀ y ∈ f.children x, y < f.size ∧ (f.isLeaf y = true ∨ x < y)
  parent : ∀ x y, f.parent? x = some y → f.isNode y = true ∧ (f.isLeaf x = true ∨ y < x)

variable {f g : Forest} {x y k r : ElementId} {kind : NodeKind} {ys : List ElementId}

/-- Composites are stored below the size of the forest. -/
theorem lt_size_of_isNode (h : f.isNode x = true) : x < f.size := by
  by_contra hn
  simp [isNode, type?, get?_eq_none (Nat.le_of_not_lt hn)] at h

/-- Leaves are stored below the size of the forest. -/
theorem lt_size_of_isLeaf (h : f.isLeaf x = true) : x < f.size := by
  obtain ⟨t, ht⟩ := Option.isSome_iff_exists.1 h
  exact lt_size_of_token? ht

/-- Comments are leaves. -/
theorem isLeaf_of_isComment (h : f.isComment x = true) : f.isLeaf x = true := by
  rw [isComment] at h
  cases ht : f.token? x with
  | none => simp [ht] at h
  | some t => simp [isLeaf, ht]

/-- An element is a leaf or a composite, and not both. -/
theorem isNode_eq_not_isLeaf (h : x < f.size) : f.isNode x = !f.isLeaf x := by
  obtain ⟨e, he⟩ : ∃ e, f.get? x = some e := ⟨_, Array.getElem?_eq_getElem h⟩
  obtain ⟨shape, _⟩ := e
  cases shape <;> simp [isNode, isLeaf, type?, token?, he]

/-- Leaves have no children. -/
theorem children_of_isLeaf (h : f.isLeaf x = true) : f.children x = [] := by
  cases he : f.get? x with
  | none => simp [isLeaf, token?, he] at h
  | some e =>
      obtain ⟨shape, _⟩ := e
      cases shape with
      | leaf t => simp [children, he, Shape.children]
      | node type cs => simp [isLeaf, token?, he] at h

/-- What is not stored has no children. -/
theorem children_of_size_le (h : f.size ≤ x) : f.children x = [] := by
  simp [children, get?_eq_none h]

/-! ### What is below -/

/-- The number of layers that may be below an element. -/
def rank (f : Forest) (x : ElementId) : Nat := if f.isLeaf x then 0 else f.size - x

/-- **What is below an element does not depend on the depth** to which one looks. -/
theorem Layered.belowUpTo_eq (h : f.Layered) {n m : Nat} (hn : f.rank x ≤ n) (hm : n ≤ m) :
    f.belowUpTo m x = f.belowUpTo n x := by
  induction n generalizing x m with
  | zero =>
      have hnone : f.children x = [] := by
        by_cases hx : f.isLeaf x = true
        · exact children_of_isLeaf hx
        · rw [rank, if_neg hx] at hn
          exact children_of_size_le (by omega)
      cases m with
      | zero => rfl
      | succ m => simp [belowUpTo, hnone]
  | succ n ih =>
      obtain ⟨m, rfl⟩ : ∃ k, m = k + 1 := ⟨m - 1, by omega⟩
      rw [belowUpTo, belowUpTo]
      refine congrArg _ (List.flatMap_congr fun y hy => ih ?_ (by omega))
      obtain ⟨hs, hl | hlt⟩ := h.child x y hy
      · rw [rank, if_pos hl]
        exact Nat.zero_le n
      · have hx : ¬ f.isLeaf x = true := fun hx => by simp [children_of_isLeaf hx] at hy
        rw [rank, if_neg hx] at hn
        have hy : f.rank y ≤ f.size - y := by
          rw [rank]
          split <;> omega
        have hlt := Nat.sub_le_sub_left (Nat.succ_le_of_lt hlt) f.size
        omega

/-- The elements that a forest had keep their children while leaves are added. -/
theorem Grows.children_eq (h : f.Grows g) (hx : x < f.size) : g.children x = f.children x := by
  rw [children, children, h.old x hx]

/-- **Leaves that stand nowhere are below nothing.** -/
theorem Layered.below_eq_of_grows (h : f.Layered) (hg : f.Grows g) (hx : x < f.size) :
    g.below x = f.below x := by
  have hsame : ∀ n, ∀ x < f.size, g.belowUpTo n x = f.belowUpTo n x := by
    intro n
    induction n with
    | zero => exact fun x _ => rfl
    | succ n ih =>
        intro x hx
        rw [belowUpTo, belowUpTo, hg.children_eq hx]
        exact congrArg _ (List.flatMap_congr fun y hy => ih y (h.child x y hy).1)
  rw [below, below, hsame _ x hx]
  refine h.belowUpTo_eq ?_ hg.size_le
  rw [rank]
  split <;> omega

/-- What is below an element exists. -/
theorem Layered.lt_size_of_mem_below (h : f.Layered) (hx : x < f.size) (hy : y ∈ f.below x) :
    y < f.size := by
  have hall : ∀ n, ∀ x < f.size, ∀ y ∈ f.belowUpTo n x, y < f.size := by
    intro n
    induction n with
    | zero => simp [belowUpTo]
    | succ n ih =>
        intro x hx y hy
        rw [belowUpTo, List.mem_cons, List.mem_flatMap] at hy
        rcases hy with rfl | ⟨c, hc, hy⟩
        · exact hx
        · exact ih c (h.child x c hc).1 y hy
  exact hall _ x hx y hy

/-! ### What is around -/

/-- The elements on the way up from an element, up to one without a parent. -/
inductive Ascends (f : Forest) : ElementId → List ElementId → Prop
  | top {x : ElementId} : f.parent? x = none → Ascends f x [x]
  | up {x y : ElementId} {ys : List ElementId} :
    f.parent? x = some y → Ascends f y ys → Ascends f x (x :: ys)

/-- The nearest element of a kind on the way up, which starts with the element itself. -/
inductive Nearest (f : Forest) (kind : NodeKind) : ElementId → ElementId → Prop
  | here {x : ElementId} : f.kind x = kind → Nearest f kind x x
  | above {x y k : ElementId} :
    f.kind x ≠ kind → f.parent? x = some y → Nearest f kind y k → Nearest f kind x k

/-- The last element on the way up. -/
inductive Outermost (f : Forest) : ElementId → ElementId → Prop
  | here {x : ElementId} : f.parent? x = none → Outermost f x x
  | above {x y r : ElementId} : f.parent? x = some y → Outermost f y r → Outermost f x r

/-- Of elements in layers, no way up is longer than it is looked for. -/
theorem Layered.ascends (h : f.Layered) (x : ElementId) : f.Ascends x (f.ancestors x) := by
  have hnode : ∀ n x, f.isNode x = true → x < n → f.Ascends x (f.ancestorsUpTo n x) := by
    intro n
    induction n with
    | zero => exact fun x _ hx => absurd hx (Nat.not_lt_zero x)
    | succ n ih =>
        intro x hx hn
        rw [ancestorsUpTo]
        cases hp : f.parent? x with
        | none => exact .top hp
        | some y =>
            obtain ⟨hy, hl | hlt⟩ := h.parent x y hp
            · rw [isNode_eq_not_isLeaf (lt_size_of_isNode hx), hl] at hx
              simp at hx
            · exact .up hp (ih y hy (Nat.lt_of_lt_of_le hlt (Nat.le_of_lt_succ hn)))
  rw [ancestors, ancestorsUpTo]
  cases hp : f.parent? x with
  | none => exact .top hp
  | some y =>
      have hy := (h.parent x y hp).1
      exact .up hp (hnode _ y hy (lt_size_of_isNode hy))

/-- The first element of a kind on the way up is the nearest one of this kind. -/
theorem Ascends.find?_eq_some_iff (h : f.Ascends x ys) :
    (ys.find? fun e => f.kind e == kind) = some k ↔ f.Nearest kind x k := by
  induction h with
  | top hp =>
      rw [List.find?_singleton]
      constructor
      · intro hk
        split at hk
        · next hkind =>
          obtain rfl := Option.some.inj hk
          exact .here (beq_iff_eq.1 hkind)
        · simp at hk
      · rintro (hkind | ⟨-, hp', -⟩)
        · simp [hkind]
        · simp [hp] at hp'
  | @up x y ys hp _ ih =>
      by_cases hkind : f.kind x = kind
      · rw [List.find?_cons, beq_iff_eq.2 hkind, Option.some.injEq]
        constructor
        · rintro rfl
          exact .here hkind
        · rintro (- | ⟨hne, -, -⟩)
          · rfl
          · exact absurd hkind hne
      · rw [List.find?_cons, beq_false_of_ne hkind, ih]
        constructor
        · exact .above hkind hp
        · rintro (hk | ⟨-, hp', hn⟩)
          · exact absurd hk hkind
          · obtain rfl := Option.some.inj (hp.symm.trans hp')
            exact hn

/-- The last element on the way up is the outermost one, whatever else would be taken if there were
none. -/
theorem Ascends.getLastD_eq_iff (h : f.Ascends x ys) (d : ElementId) :
    ys.getLastD d = r ↔ f.Outermost x r := by
  induction h generalizing d with
  | top hp =>
      constructor
      · rintro rfl
        exact .here hp
      · rintro (- | ⟨hp', -⟩)
        · rfl
        · simp [hp] at hp'
  | @up x y ys hp _ ih =>
      rw [List.getLastD_cons, ih x]
      constructor
      · exact .above hp
      · rintro (hp' | ⟨hp', ho⟩)
        · simp [hp] at hp'
        · obtain rfl := Option.some.inj (hp.symm.trans hp')
          exact ho

/-- **The search for a container goes all the way up.** -/
theorem Layered.enclosing?_eq_some_iff (h : f.Layered) :
    f.enclosing? kind x = some k ↔ f.Nearest kind x k :=
  (h.ascends x).find?_eq_some_iff

/-- In a forest in layers the top of an element is the outermost one around it. -/
theorem Layered.top_eq_iff (h : f.Layered) : f.top x = r ↔ f.Outermost x r :=
  (h.ascends x).getLastD_eq_iff x

/-! ### Keeping the layers -/

/-- Whether an element is a leaf depends on what is stored at it alone. -/
theorem isLeaf_congr (h : g.get? x = f.get? x) : g.isLeaf x = f.isLeaf x := by
  rw [isLeaf, isLeaf, token?, token?, h]

/-- Whether an element is a composite depends on what is stored at it alone. -/
theorem isNode_congr (h : g.get? x = f.get? x) : g.isNode x = f.isNode x := by
  rw [isNode, isNode, type?, type?, h]

/-- Elements that are added after the others keep the layers if they are in layers. -/
theorem Layered.added (h : f.Layered) (hsize : f.size ≤ g.size)
    (hold : ∀ x < f.size, g.get? x = f.get? x)
    (hnew : ∀ x, f.size ≤ x → x < g.size →
      (∀ y ∈ g.children x, y < g.size ∧ x < y) ∧
        ∀ y, g.parent? x = some y → g.isNode y = true ∧ y < x) : g.Layered where
  child := by
    intro x y hy
    by_cases hx : x < f.size
    · rw [children, hold x hx] at hy
      obtain ⟨hs, hl⟩ := h.child x y hy
      exact ⟨Nat.lt_of_lt_of_le hs hsize, hl.imp_left (isLeaf_congr (hold y hs)).trans⟩
    · by_cases hx' : x < g.size
      · exact ((hnew x (Nat.le_of_not_lt hx) hx').1 y hy).imp_right .inr
      · simp [children_of_size_le (Nat.le_of_not_lt hx')] at hy
  parent := by
    intro x y hp
    by_cases hx : x < f.size
    · rw [parent?, hold x hx] at hp
      obtain ⟨hn, hl⟩ := h.parent x y hp
      exact ⟨(isNode_congr (hold y (lt_size_of_isNode hn))).trans hn,
        hl.imp_left (isLeaf_congr (hold x hx)).trans⟩
    · by_cases hx' : x < g.size
      · exact ((hnew x (Nat.le_of_not_lt hx) hx').2 y hp).imp_right .inr
      · simp [parent?, get?_eq_none (Nat.le_of_not_lt hx')] at hp

/-- Leaves that stand nowhere are in no layer. -/
theorem Layered.grows (h : f.Layered) (hg : f.Grows g) : g.Layered := by
  refine h.added hg.size_le hg.old fun x hx hx' => ?_
  obtain ⟨t, ht⟩ := hg.new x hx hx'
  simp [children, parent?, ht, Shape.children]

/-- An edit makes no leaf out of a composite, nor the other way round. -/
theorem isLeaf_run (e : Edit) (f : Forest) (x : ElementId) :
    (e.run f).isLeaf x = f.isLeaf x := by
  rw [isLeaf, isLeaf, token?_run]

/-- An edit leaves composites composites, and makes no new ones. -/
theorem isNode_run (e : Edit) (f : Forest) (x : ElementId) :
    (e.run f).isNode x = f.isNode x := by
  by_cases hx : x < f.size
  · rw [isNode_eq_not_isLeaf hx, isNode_eq_not_isLeaf (by rwa [Edit.size_run]), isLeaf_run]
  · have hf := get?_eq_none (Nat.le_of_not_lt hx)
    simp [isNode, type?, Edit.get?_run, hf]

end Forest

namespace Edit

variable {e : Edit} {f : Forest}

/-- The edit puts leaves into a composite, and takes leaves out. -/
structure Moves (e : Edit) (f : Forest) : Prop where
  composite : f.isNode e.parent = true
  leaves : ∀ x ∈ e.removed ++ e.inserted, f.isLeaf x = true

/-- If an edit moves leaves, so does the one that takes it back. -/
theorem Moves.inverse (h : e.Moves f) : e.inverse.Moves f where
  composite := h.composite
  leaves := fun x hx => h.leaves x (List.mem_append.2 (List.mem_append.1 hx).symm)

/-- An edit that moves leaves still does so after any other edit was run. -/
theorem Moves.run {e' : Edit} (h : e.Moves f) : e.Moves (e'.run f) where
  composite := (Forest.isNode_run e' f _).trans h.composite
  leaves := fun x hx => (Forest.isLeaf_run e' f x).trans (h.leaves x hx)

/-- An edit that moves leaves still does so in a forest that stores the same elements and more. -/
theorem Moves.congr {g : Forest} (h : e.Moves f) (hg : ∀ x < f.size, g.get? x = f.get? x) :
    e.Moves g where
  composite := (Forest.isNode_congr (hg _ (Forest.lt_size_of_isNode h.composite))).trans h.composite
  leaves := fun x hx => (Forest.isLeaf_congr (hg x (Forest.lt_size_of_isLeaf (h.leaves x hx)))).trans
    (h.leaves x hx)

/-- The children after an edit were children before, or are inserted. -/
theorem mem_children_run {x y : ElementId} (h : y ∈ (e.run f).children x) :
    y ∈ f.children x ∨ y ∈ e.inserted := by
  by_cases hx : e.parent = x
  · subst hx
    by_cases hn : f.isNode e.parent = true
    · rw [run, Forest.children_splice f hn, Forest.replaceAt, List.mem_append, List.mem_append] at h
      rcases h with (h | h) | h
      · exact .inl (List.mem_of_mem_take h)
      · exact .inr h
      · exact .inl (List.mem_of_mem_drop h)
    · have hx : (e.run f).children e.parent = [] := by
        by_cases hs : e.parent < f.size
        · refine Forest.children_of_isLeaf ?_
          rw [Forest.isNode_eq_not_isLeaf hs] at hn
          rw [Forest.isLeaf_run]
          simpa using hn
        · exact Forest.children_of_size_le (by rw [size_run]; exact Nat.le_of_not_lt hs)
      simp [hx] at h
  · rw [run, Forest.children_splice_of_ne f hx] at h
    exact .inl h

/-- **An edit that moves leaves keeps the layers.** -/
theorem Moves.layered (h : e.Moves f) (hf : f.Layered) : (e.run f).Layered where
  child := by
    intro x y hy
    rw [size_run, Forest.isLeaf_run]
    rcases mem_children_run hy with hy | hy
    · exact hf.child x y hy
    · have hl := h.leaves y (List.mem_append_right _ hy)
      exact ⟨Forest.lt_size_of_isLeaf hl, .inl hl⟩
  parent := by
    intro x y hp
    rw [Forest.isNode_run, Forest.isLeaf_run]
    rw [Forest.parent?, get?_run] at hp
    cases hx : f.get? x with
    | none => simp [hx] at hp
    | some d =>
        simp only [hx, Option.map_some, Option.bind_some, Forest.spliced] at hp
        split at hp
        · next hi =>
          obtain rfl := Option.some.inj hp
          exact ⟨h.composite, .inl (h.leaves x (List.mem_append_right _ hi))⟩
        · split at hp
          · simp at hp
          · exact hf.parent x y (by rw [Forest.parent?, hx]; exact hp)

end Edit

/-! ### Planting -/

namespace Planted

/-- The elements at a place stand in a row among those of the tree. -/
theorem ids_sublist_plug (cs : Place) (q : Planted) : q.ids.Sublist (plug cs q).ids := by
  induction cs generalizing q with
  | nil => exact .refl _
  | cons c cs ih =>
      refine .trans ?_ (ih (.node c.id c.type (c.left ++ q :: c.right)))
      rw [ids, idsOf_append, idsOf]
      exact ((List.sublist_append_left _ _).trans (List.sublist_append_right _ _)).cons _

end Planted

namespace Forest

variable {f : Forest} {p : Planted} {x y : ElementId}

/-- The elements of a tree that is stored in order are in layers. -/
theorem Holds.layered_at (h : f.Holds p) (hp : p.ids.Pairwise (· < ·)) (hx : x ∈ p.ids) :
    (∀ y ∈ f.children x, y ∈ p.ids ∧ x < y) ∧
      ∀ y, f.parent? x = some y → f.isNode y = true ∧ y < x := by
  obtain ⟨cs, q, rfl, rfl⟩ := Planted.exists_place hx
  constructor
  · intro y hy
    have hq := hp.sublist (Planted.ids_sublist_plug cs q)
    cases q with
    | leaf id t =>
        rw [Planted.id, h.stores_at.children_leaf] at hy
        simp at hy
    | node id type ps =>
        rw [Planted.id, h.stores_at.children_node] at hy
        have hm : y ∈ Planted.idsOf ps := (Planted.map_id_sublist ps).subset hy
        rw [Planted.ids, List.pairwise_cons] at hq
        exact ⟨Planted.ids_subset_plug cs _ (List.mem_cons_of_mem _ hm), hq.1 y hm⟩
  · intro y hy
    rw [h.parent?_eq] at hy
    cases cs with
    | nil => simp [Place.parent?] at hy
    | cons c cs =>
        obtain rfl : c.id = y := by simpa [Place.parent?] using hy
        have hnode : f.Holds (plug cs (.node c.id c.type (c.left ++ q :: c.right))) := h
        have hq := hp.sublist
          (Planted.ids_sublist_plug cs (.node c.id c.type (c.left ++ q :: c.right)))
        rw [Planted.ids, List.pairwise_cons] at hq
        refine ⟨by rw [isNode, hnode.stores_at.type?_node]; rfl, hq.1 _ ?_⟩
        exact (Planted.map_id_sublist _).subset (by simp)

/-- **Planting keeps the layers.** -/
theorem Layered.plant (h : f.Layered) (t : Tree) : (f.plant t).1.Layered := by
  have hholds := holds_plant f t
  have hsorted : (t.plantedFrom f.size).ids.Pairwise (· < ·) := by
    rw [Tree.ids_plantedFrom]
    exact List.pairwise_lt_range'
  refine h.added (by simp) (fun x hx => get?_plant hx) fun x hx hx' => ?_
  rw [size_plant] at hx'
  obtain ⟨hchild, hparent⟩ := hholds.layered_at hsorted (Tree.mem_ids_plantedFrom.2 ⟨hx, hx'⟩)
  exact ⟨fun y hy => (hchild y hy).imp_left (hholds.stores.lt_size y), hparent⟩

end Forest

/-! ### Workspaces -/

namespace Workspace

/-- The forest is in layers, every document has a root of its own that is a composite, and what the
histories recorded moved leaves alone. -/
structure Layered (w : Workspace) : Prop where
  forest : w.forest.Layered
  root : ∀ (i : DocumentId) (d : Document), w.documents[i]? = some d →
    w.forest.isNode d.root = true
  distinct : ∀ (i j : DocumentId) (d e : Document), w.documents[i]? = some d →
    w.documents[j]? = some e → d.root = e.root → i = j
  history : ∀ (i : DocumentId) (d : Document), w.documents[i]? = some d →
    ∀ e ∈ d.history, e.Moves w.forest

variable {w v : Workspace} {d d' : Document} {id : DocumentId} {e : Edit} {c : Call}

/-- The empty workspace is in layers. -/
theorem layered_empty : empty.Layered where
  forest := ⟨fun x y hy => by simp [empty, Forest.empty, Forest.children, Forest.get?] at hy,
    fun x y hp => by simp [empty, Forest.empty, Forest.parent?, Forest.get?] at hp⟩
  root := fun i d hd => by simp [empty] at hd
  distinct := fun i j d e hd => by simp [empty] at hd
  history := fun i d hd => by simp [empty] at hd

/-- The same documents in a forest that has more elements in layers. -/
theorem Layered.added (h : w.Layered) (hd : v.documents = w.documents) (hv : v.forest.Layered)
    (hold : ∀ x < w.forest.size, v.forest.get? x = w.forest.get? x) : v.Layered where
  forest := hv
  root := fun i d he => (Forest.isNode_congr
    (hold _ (Forest.lt_size_of_isNode (h.root i d (hd ▸ he))))).trans (h.root i d (hd ▸ he))
  distinct := fun i j d e he he' => h.distinct i j d e (hd ▸ he) (hd ▸ he')
  history := fun i d he e hm => (h.history i d (hd ▸ he) e hm).congr hold

/-- A workspace in layers stays so while leaves are created that stand nowhere. -/
theorem Layered.extends (h : w.Layered) (hv : w.Extends v) : v.Layered :=
  h.added hv.documents (h.forest.grows hv.grows) hv.grows.old

/-- Planting a tree behind all other elements keeps a workspace in layers. -/
theorem Layered.planted (h : w.Layered) (t : Tree) :
    Layered ⟨(w.forest.plant t).1, w.documents⟩ :=
  h.added rfl (h.forest.plant t) fun _ hx => Forest.get?_plant hx

/-- A document is opened at a root of its own. -/
theorem Layered.opened (h : w.Layered) (text name : String) (writable : Bool) :
    (w.open text name writable).Layered := by
  have hp := h.planted (Tree.parse text)
  have hroot : ∀ (i : DocumentId) (d : Document), w.documents[i]? = some d →
      d.root ≠ w.forest.size := fun i d hd =>
    Nat.ne_of_lt (Forest.lt_size_of_isNode (h.root i d hd))
  constructor
  · exact hp.forest
  · intro i d hd
    rcases documents_open_cases hd with ⟨-, rfl⟩ | ⟨-, hd⟩
    · obtain ⟨ps, hps⟩ := (tends_open w text name writable).root
      have hstores := (tends_open w text name writable).holds.stores
      rw [hps] at hstores
      rw [Forest.isNode, hstores.type?_node]
      rfl
    · exact hp.root i d hd
  · intro i j d e hd he hde
    rcases documents_open_cases hd with ⟨rfl, rfl⟩ | ⟨-, hd⟩
    · rcases documents_open_cases he with ⟨rfl, -⟩ | ⟨-, he⟩
      · rfl
      · exact absurd hde.symm (hroot j e he)
    · rcases documents_open_cases he with ⟨-, rfl⟩ | ⟨-, he⟩
      · exact absurd hde (hroot i d hd)
      · exact h.distinct i j d e hd he hde
  · intro i d hd
    rcases documents_open_cases hd with ⟨-, rfl⟩ | ⟨-, hd⟩
    · simp
    · exact hp.history i d hd

/-- Documents may have other names and be allowed to be changed or not. -/
theorem Layered.setWritable (h : w.Layered) (id : DocumentId) (writable : Bool) :
    (w.setWritable id writable).Layered := by
  have look : ∀ (i : DocumentId) (e : Document), (w.setWritable id writable).documents[i]? = some e →
      ∃ d, w.documents[i]? = some d ∧ d.root = e.root ∧ d.history = e.history := by
    intro i e he
    simp only [Workspace.setWritable, Array.getElem?_modify] at he
    split at he
    · obtain ⟨d, hd, rfl⟩ := Option.map_eq_some_iff.1 he
      exact ⟨d, hd, rfl, rfl⟩
    · exact ⟨e, he, rfl, rfl⟩
  constructor
  · exact h.forest
  · intro i e he
    obtain ⟨d, hd, hr, -⟩ := look i e he
    exact hr ▸ h.root i d hd
  · intro i j e e' he he' hee
    obtain ⟨d, hd, hr, -⟩ := look i e he
    obtain ⟨d', hd', hr', -⟩ := look j e' he'
    exact h.distinct i j d d' hd hd' (hr.trans (hee.trans hr'.symm))
  · intro i e he
    obtain ⟨d, hd, -, hh⟩ := look i e he
    exact hh ▸ h.history i d hd

/-- **Running an edit that moves leaves keeps the layers**, if the history of the document lists
nothing else than it did, and that edit. -/
theorem Layered.edited (h : w.Layered) (hd : w.documents[id]? = some d) (he : e.Moves w.forest)
    (hroot : d'.root = d.root) (hhistory : ∀ e' ∈ d'.history, e' = e ∨ e' ∈ d.history) :
    Layered ⟨e.run w.forest, w.documents.setIfInBounds id d'⟩ := by
  have look : ∀ (i : DocumentId) (x : Document), (w.documents.setIfInBounds id d')[i]? = some x →
      ∃ y, w.documents[i]? = some y ∧ x.root = y.root ∧
        ∀ e' ∈ x.history, e' = e ∨ e' ∈ y.history := by
    intro i x hx
    rcases getElem?_setIfInBounds_cases hd hx with ⟨rfl, rfl⟩ | ⟨-, hx⟩
    · exact ⟨d, hd, hroot, hhistory⟩
    · exact ⟨x, hx, rfl, fun _ => .inr⟩
  constructor
  · exact he.layered h.forest
  · intro i x hx
    obtain ⟨y, hy, hr, -⟩ := look i x hx
    exact (Forest.isNode_run e w.forest _).trans (hr ▸ h.root i y hy)
  · intro i j x x' hx hx' hxx
    obtain ⟨y, hy, hr, -⟩ := look i x hx
    obtain ⟨y', hy', hr', -⟩ := look j x' hx'
    exact h.distinct i j y y' hy hy' (hr.symm.trans (hxx.trans hr'))
  · intro i x hx e' he'
    obtain ⟨y, hy, -, hh⟩ := look i x hx
    rcases hh e' he' with rfl | hm
    · exact he.run
    · exact (h.history i y hy e' hm).run

/-- An edit that a call records, after it created a leaf. -/
theorem Layered.recorded (h : w.Layered) (hd : w.documents[id]? = some d) {t : Token}
    {r : Forest × Document} (hr : d.edit (w.forest.addLeaf t).1 e = .ok r)
    (hcomposite : w.forest.isNode e.parent = true)
    (hleaves : ∀ x ∈ e.removed ++ e.inserted, x = w.forest.size ∨ w.forest.isLeaf x = true) :
    Layered ⟨r.1, w.documents.setIfInBounds id r.2⟩ := by
  obtain ⟨-, rfl⟩ := Document.edit_eq_ok hr
  have hg := Forest.grows_addLeaf w.forest t
  have hv : w.Extends ⟨(w.forest.addLeaf t).1, w.documents⟩ := ⟨rfl, hg⟩
  refine (h.extends hv).edited hd ⟨?_, ?_⟩ (Document.root_recorded d e) fun e' he' =>
    List.mem_cons.1 he'
  · exact (Forest.isNode_congr (hg.old _ (Forest.lt_size_of_isNode hcomposite))).trans hcomposite
  · intro x hx
    rcases hleaves x hx with rfl | hl
    · simp [Forest.isLeaf, Forest.token?, Forest.get?_addLeaf]
    · exact (Forest.isLeaf_congr (hg.old _ (Forest.lt_size_of_isLeaf hl))).trans hl

/-- **A call keeps the layers** if what it inserts is a leaf, wherever that is. -/
theorem Layered.attempt (h : w.Layered)
    (hc : ∀ x ∈ c.inserted?, w.forest.isLeaf x = true) (hv : w.attempt id c = .ok v) :
    v.Layered := by
  cases c with
  | createComment text =>
      obtain ⟨t, -, rfl⟩ := attempt_createComment_eq_ok hv
      exact h.extends ⟨rfl, Forest.grows_addLeaf _ t⟩
  | insertBefore comment anchor =>
      simp only [Workspace.attempt] at hv
      rcases edit_cases hv with ⟨-, rfl⟩ | ⟨d, r, hd, hr, rfl⟩
      · exact h
      obtain ⟨parent, index, t, hparent, he⟩ := Document.edit_of_insertBefore hr
      refine h.recorded hd he (h.forest.parent anchor parent hparent).1 ?_
      simp only [List.nil_append, List.mem_cons, List.not_mem_nil, or_false, forall_eq_or_imp,
        forall_eq]
      exact ⟨.inr (hc comment rfl), .inl trivial⟩
  | insertAtStart comment =>
      simp only [Workspace.attempt] at hv
      rcases edit_cases hv with ⟨-, rfl⟩ | ⟨d, r, hd, hr, rfl⟩
      · exact h
      refine h.recorded hd (Document.edit_of_insertAtStart hr) (h.root id d hd) ?_
      simp only [List.nil_append, List.mem_cons, List.not_mem_nil, or_false, forall_eq_or_imp,
        forall_eq]
      exact ⟨.inr (hc comment rfl), .inl trivial⟩
  | replaceComment comment text =>
      simp only [Workspace.attempt] at hv
      rcases edit_cases hv with ⟨-, rfl⟩ | ⟨d, r, hd, hr, rfl⟩
      · exact h
      obtain ⟨parent, index, t, hparent, he⟩ := Document.edit_of_replaceComment hr
      refine h.recorded hd he (h.forest.parent comment parent hparent).1 ?_
      simp only [List.cons_append, List.nil_append, List.mem_cons, List.not_mem_nil, or_false,
        forall_eq_or_imp, forall_eq]
      exact ⟨.inr (Forest.isLeaf_of_isComment (Document.asked_of_replaceComment hr).2.2),
        .inl trivial⟩
  | undo =>
      simp only [Workspace.attempt, Except.ok.injEq] at hv
      cases hu : w.undo id with
      | none =>
          rw [hu, Option.getD_none] at hv
          exact hv ▸ h
      | some u =>
          rw [hu, Option.getD_some] at hv
          subst hv
          obtain ⟨d, e, history, hd, hh, rfl⟩ := undo_eq_some hu
          have he := h.history id d hd e (by simp [hh])
          refine h.edited hd he.inverse rfl fun e' he' => .inr ?_
          rw [hh]
          exact List.mem_cons_of_mem _ he'

/-- **A suppression action keeps the layers.** -/
theorem Layered.apply (h : w.Layered) {s : Settings} {a : Action} {element? : Option ElementId}
    (hv : w.apply s a element? = .ok v) : v.Layered := by
  rcases apply_eq_ok hv with rfl | ⟨id, container, -, ⟨comment, text, hr⟩ | ⟨text, u, hu, hr⟩⟩
  · exact h
  · exact h.attempt (by simp [Call.inserted?]) hr
  · have hu' := h.attempt (by simp [Call.inserted?]) hu
    obtain ⟨t, -, rfl⟩ := attempt_createComment_eq_ok hu
    have hnew : (w.forest.addLeaf t).1.isLeaf w.forest.size = true := by
      simp [Forest.isLeaf, Forest.token?, Forest.get?_addLeaf]
    rcases hr with hr | hr
    · exact hu'.attempt (by simp [Call.inserted?, hnew]) hr
    · exact hu'.attempt (by simp [Call.inserted?, hnew]) hr

end Workspace

end BnfSuppression
