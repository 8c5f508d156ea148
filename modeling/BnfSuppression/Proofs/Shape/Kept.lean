import BnfSuppression.Proofs.Session
import BnfSuppression.Proofs.Shape

/-!
# Suppression Keeps the Shape of Trees

In a well-shaped tree, the place of a rule or an attribute is narrowly determined, and what stands
right before it is no part of a composite that starts with it. Actions insert comments before rules
and attributes and at the start of the file, and replace comments by comments; none of this changes
what a composite starts with.

## Main results

* `Planted.parent_of_rule`, `Planted.parent_of_attr`: where rules and attributes stand.
* `Workspace.Takes.wellShaped`: actions keep the shape.
* `Session.wellShaped`: **the tree of a document is well shaped** in every state that actions and
  undo lead to.
-/

namespace BnfSuppression

open BnfSuppression.Tree (mayHold isSolid Fits)
open Planted (plug Place Change leafs)

namespace Planted

variable {cs : Place} {c : Crumb} {q : Planted}

/-! ### Subtrees -/

/-- What is at a place of a well-shaped tree is well shaped. -/
theorem wellShaped_at (h : (plug cs q).tree.WellShaped) : q.tree.WellShaped := by
  induction cs generalizing q with
  | nil => exact h
  | cons c cs ih =>
      have hc := (ih h).2
      rw [treesOf_append, Tree.wellShapedAll_append] at hc
      exact hc.2.1

/-- The composite right around a place of a well-shaped tree is well shaped. -/
theorem wellShaped_around (h : (plug (c :: cs) q).tree.WellShaped) :
    (node c.id c.type (c.left ++ q :: c.right)).tree.WellShaped :=
  @wellShaped_at cs _ h

/-- In a well-shaped tree, the children around a place are such as their composite has. -/
theorem fits_at (h : (plug (c :: cs) q).tree.WellShaped) :
    Fits c.type (treesOf (c.left ++ q :: c.right)) :=
  (wellShaped_around h).1

/-- Composites of a well-shaped tree stand where they may. -/
theorem mayHold_at (h : (plug (c :: cs) q).tree.WellShaped) {inner : ElementType}
    (hq : q.tree.type? = some inner) : mayHold c.type inner = true := by
  refine (fits_at h).held q.tree ?_ inner hq
  simp [treesOf_append, treesOf]

/-- A file is a whole tree. -/
theorem place_of_file (h : (plug cs q).tree.WellShaped) (hq : q.tree.type? = some .file) :
    cs = [] := by
  cases cs with
  | nil => rfl
  | cons c cs =>
      have := mayHold_at h hq
      cases hc : c.type <;> simp [hc, mayHold] at this

/-- **A rule stands right below the file.** -/
theorem parent_of_rule (h : (plug (c :: cs) q).tree.WellShaped) (hq : q.tree.type? = some .rule) :
    c.type = .file ∧ cs = [] := by
  have hm := mayHold_at h hq
  have hc : c.type = .file := by
    cases hc : c.type <;> simp [hc, mayHold] at hm
    rfl
  refine ⟨hc, place_of_file (q := .node c.id c.type (c.left ++ q :: c.right)) h ?_⟩
  simp [tree, Tree.type?, hc]

/-- **An attribute stands in a block, behind its brace.** -/
theorem parent_of_attr (h : (plug (c :: cs) q).tree.WellShaped) (hq : q.tree.type? = some .attr) :
    c.type = .attrs ∧ ∃ id t rest, c.left = .leaf id t :: rest := by
  have hm := mayHold_at h hq
  have hc : c.type = .attrs := by
    cases hc : c.type <;> simp [hc, mayHold] at hm
    rfl
  obtain ⟨t, rest, hb⟩ := (fits_at h).brace hc
  refine ⟨hc, ?_⟩
  cases hl : c.left with
  | nil =>
      rw [hl, List.nil_append, treesOf, List.cons.injEq] at hb
      rw [hb.1] at hq
      simp [Tree.type?] at hq
  | cons p ps =>
      rw [hl, List.cons_append, treesOf, List.cons.injEq] at hb
      cases p with
      | leaf id u => exact ⟨id, u, ps, rfl⟩
      | node id type children => simp [tree] at hb

/-- A composite that starts with a solid token has a first leaf. -/
theorem leaves_of_isSolid (h : q.tree.WellShaped) {type : ElementType}
    (hq : q.tree.type? = some type) (hs : isSolid type = true) :
    ∃ x xs, q.leaves = x :: xs ∧ x.2.isTrivia = false := by
  cases q with
  | leaf id t => simp [tree, Tree.type?] at hq
  | node id type' ps =>
      obtain rfl : type' = type := by simpa [tree, Tree.type?] using hq
      have hf := h.1.solid hs
      rw [Tree.front?, leavesOf_treesOf, ← leaves.eq_2 id type'] at hf
      cases hl : (node id type' ps).leaves with
      | nil => simp [hl] at hf
      | cons x xs => exact ⟨x, xs, rfl, by simpa [hl] using hf⟩

/-- What holds a solid composite is solid itself, or the file. -/
theorem isSolid_of_mayHold {outer inner : ElementType} (h : mayHold outer inner = true)
    (hi : isSolid inner = true) : outer = .file ∨ isSolid outer = true := by
  cases outer <;> cases inner <;> simp_all [mayHold, isSolid]

/-- Between a solid composite and the file there are only solid composites. -/
theorem isSolid_plug {es ds : Place} (h : (plug (es ++ ds) q).tree.WellShaped) (hds : ds ≠ [])
    {type : ElementType} (hq : q.tree.type? = some type) (hs : isSolid type = true) :
    ∃ outer, (plug es q).tree.type? = some outer ∧ isSolid outer = true := by
  induction es generalizing q type with
  | nil => exact ⟨type, hq, hs⟩
  | cons c es ih =>
      refine ih h rfl ?_
      rcases isSolid_of_mayHold (mayHold_at h hq) hs with hc | hc
      · have hfile : (node c.id c.type (c.left ++ q :: c.right)).tree.type? = some .file := by
          rw [← hc]
          rfl
        have hplace : es ++ ds = [] := place_of_file h hfile
        simp [hds] at hplace
      · exact hc

/-- The composites between a rule or an attribute and the file start with a solid leaf. -/
theorem leaves_plug_of_suppressible {es ds : Place} (h : (plug (es ++ ds) q).tree.WellShaped)
    (hds : ds ≠ []) (hq : q.tree.kind.suppressible = true) :
    ∃ x xs, (plug es q).leaves = x :: xs ∧ x.2.isTrivia = false := by
  have hsolid : ∃ type, q.tree.type? = some type ∧ isSolid type = true := by
    rcases Tree.type?_of_suppressible hq with ht | ht | ht
    · exact ⟨_, ht, rfl⟩
    · exact ⟨_, ht, rfl⟩
    · have hplace := place_of_file h ht
      simp [hds] at hplace
  obtain ⟨type, ht, hs⟩ := hsolid
  obtain ⟨outer, ho, hs⟩ := isSolid_plug h hds ht hs
  rw [plug_append] at h
  exact leaves_of_isSolid (wellShaped_at h) ho hs

/-! ### Replacing a subtree -/

/-- Whether a tree starts with white space or a comment, if it has leaves. -/
def front? (q : Planted) : Option Bool := q.leaves.head?.map fun x => x.2.isTrivia

/-- Whether trees start with white space or a comment shows at their first leaf. -/
theorem front?_treesOf (ps : List Planted) :
    Tree.front? (treesOf ps) = (leavesOf ps).head?.map fun x => x.2.isTrivia := by
  rw [Tree.front?, leavesOf_treesOf, List.head?_map, Option.map_map]
  rfl

/-- The children of a composite may be exchanged for others of the same type and front. -/
theorem fits_congr {type : ElementType} {l r : List Planted} {q q' : Planted}
    (h : Fits type (treesOf (l ++ q :: r))) (ht : q'.tree.type? = q.tree.type?)
    (hf : q'.front? = q.front?) : Fits type (treesOf (l ++ q' :: r)) where
  held := by
    intro t hm inner hi
    simp only [treesOf_append, treesOf, List.mem_append, List.mem_cons] at hm
    rcases hm with hm | rfl | hm
    · exact h.held t (by simp [treesOf_append, hm]) inner hi
    · exact h.held q.tree (by simp [treesOf_append, treesOf]) inner (ht ▸ hi)
    · exact h.held t (by simp [treesOf_append, treesOf, hm]) inner hi
  solid := by
    intro hs
    have := h.solid hs
    rw [front?_treesOf] at this ⊢
    rw [← this, leavesOf_append, leavesOf_append, leavesOf, leavesOf]
    cases leavesOf l with
    | cons x xs => rfl
    | nil =>
        simp only [front?] at hf
        cases hq : q.leaves <;> cases hq' : q'.leaves <;> simp_all
  brace := by
    intro ha
    obtain ⟨t, rest, hb⟩ := h.brace ha
    cases l with
    | nil =>
        rw [List.nil_append, treesOf, List.cons.injEq] at hb
        rw [hb.1] at ht
        cases q' with
        | leaf id u => exact ⟨u, _, rfl⟩
        | node id type children => simp [tree, Tree.type?] at ht
    | cons p ps =>
        rw [List.cons_append, treesOf, List.cons.injEq] at hb
        exact ⟨t, _, by rw [List.cons_append, treesOf, hb.1]⟩

/-- **A subtree may be exchanged** for another of the same type and front. -/
theorem wellShaped_plug_congr {q' : Planted} (h : (plug cs q).tree.WellShaped)
    (hq : q'.tree.WellShaped) (ht : q'.tree.type? = q.tree.type?) (hf : q'.front? = q.front?) :
    (plug cs q').tree.WellShaped := by
  induction cs generalizing q q' with
  | nil => exact hq
  | cons c cs ih =>
      refine ih h ⟨fits_congr (fits_at h) ht hf, ?_⟩ rfl ?_
      · have hc := (wellShaped_around h).2
        rw [treesOf_append, Tree.wellShapedAll_append, treesOf, Tree.WellShapedAll] at hc ⊢
        exact ⟨hc.1, hq, hc.2.2⟩
      · simp only [front?, leaves, leavesOf_append, leavesOf] at hf ⊢
        cases leavesOf c.left with
        | cons x xs => rfl
        | nil => cases hl : q.leaves <;> cases hl' : q'.leaves <;> simp_all

/-- Leaves side by side are well shaped. -/
theorem wellShapedAll_leafs (xs : List (ElementId × Token)) :
    Tree.WellShapedAll (treesOf (leafs xs)) := by
  rw [treesOf_eq_map, leafs, List.map_map, Tree.wellShapedAll_iff]
  intro t ht
  obtain ⟨x, -, rfl⟩ := List.mem_map.1 ht
  trivial

/-- Leaves have no composite type. -/
theorem type?_of_mem_leafs {xs : List (ElementId × Token)} {t : Tree}
    (h : t ∈ treesOf (leafs xs)) : t.type? = none := by
  rw [treesOf_eq_map, leafs, List.map_map] at h
  obtain ⟨x, -, rfl⟩ := List.mem_map.1 h
  rfl

/-- **Leaves may be inserted before a rule or an attribute.** -/
theorem wellShaped_insertion (h : (plug (c :: cs) q).tree.WellShaped)
    (hq : q.tree.type? = some .rule ∨ q.tree.type? = some .attr)
    (xs : List (ElementId × Token)) :
    (Change.insertion c cs q xs).target.tree.WellShaped := by
  have hfits := fits_at h
  have hall := (wellShaped_around h).2
  have hall' : Tree.WellShapedAll (treesOf (c.left ++ (leafs xs ++ q :: c.right))) := by
    simp only [treesOf_append, Tree.wellShapedAll_append] at hall ⊢
    exact ⟨hall.1, wellShapedAll_leafs xs, hall.2⟩
  have hheld : ∀ t ∈ treesOf (c.left ++ (leafs xs ++ q :: c.right)), ∀ inner,
      t.type? = some inner → mayHold c.type inner = true := by
    intro t ht inner hi
    simp only [treesOf_append, List.mem_append] at ht
    rcases ht with ht | ht | ht
    · exact hfits.held t (by simp [treesOf_append, ht]) inner hi
    · rw [type?_of_mem_leafs ht] at hi
      simp at hi
    · exact hfits.held t (by simp [treesOf_append, ht]) inner hi
  rw [Change.target_insertion]
  rcases hq with hq | hq
  · obtain ⟨hc, rfl⟩ := parent_of_rule h hq
    exact ⟨⟨hheld, fun hs => by simp [hc, isSolid] at hs, fun hb => by simp [hc] at hb⟩, hall'⟩
  · -- the block still starts with its brace
    obtain ⟨hc, id, t, rest, hl⟩ := parent_of_attr h hq
    have hplug : (plug cs (.node c.id c.type (c.left ++ q :: c.right))).tree.WellShaped := h
    refine wellShaped_plug_congr hplug ⟨⟨hheld, fun hs => ?_, fun _ => ?_⟩, hall'⟩ rfl ?_
    · have := hfits.solid hs
      rw [front?_treesOf] at this ⊢
      simpa [hl, leavesOf, leaves] using this
    · exact ⟨t, _, by rw [hl]; rfl⟩
    · simp [front?, leaves, hl, leavesOf]

/-- Leaves may be inserted at the start of a file. -/
theorem wellShaped_opening {id : ElementId} {ps : List Planted}
    (h : (node id .file ps).tree.WellShaped) (xs : List (ElementId × Token)) :
    (Change.opening id .file ps xs).target.tree.WellShaped := by
  rw [Change.target_opening]
  refine ⟨⟨?_, fun hs => by simp [isSolid] at hs, fun hb => by simp at hb⟩, ?_⟩
  · intro t ht inner hi
    rw [treesOf_append, List.mem_append] at ht
    rcases ht with ht | ht
    · rw [type?_of_mem_leafs ht] at hi
      simp at hi
    · exact h.1.held t ht inner hi
  · rw [treesOf_append, Tree.wellShapedAll_append]
    exact ⟨wellShapedAll_leafs xs, h.2⟩

/-- A comment may be replaced by another. -/
theorem wellShaped_replacement {x y : ElementId × Token}
    (h : (plug (c :: cs) (.leaf x.1 x.2)).tree.WellShaped) (hx : x.2.isComment = true)
    (hy : y.2.isComment = true) : (Change.replacement c cs x y).target.tree.WellShaped := by
  have hxt : x.2.isTrivia = true := Token.isTrivia_of_isComment hx
  have hyt : y.2.isTrivia = true := Token.isTrivia_of_isComment hy
  rw [Change.target_replacement]
  exact wellShaped_plug_congr h trivial rfl (by simp [front?, leaves, hxt, hyt])

end Planted

namespace Workspace

variable {w v : Workspace} {d : Document} {s : Settings} {a : Action} {cs : Place} {q : Planted}

/-- The container of an action that is not for the whole file is a rule or an attribute. -/
theorem type?_of_scope (hq : q.tree.kind = a.scope) (ha : a.scope ≠ .document) :
    q.tree.type? = some .rule ∨ q.tree.type? = some .attr := by
  have hs := a.suppressible
  rw [← hq] at ha hs
  rcases Tree.type?_of_suppressible hs with hr | ht | hf
  · exact .inl hr
  · exact .inr ht
  · exact absurd (Tree.kind_of_type? hf) ha

/-- **Actions keep the shape.** -/
theorem Takes.wellShaped (h : w.Takes d s a cs q v) (hw : w.Standing d (plug cs q))
    (hp : (plug cs q).tree.WellShaped) (hq : q.tree.kind = a.scope) :
    ∃ d' p', v.Standing d' p' ∧ p'.tree.WellShaped := by
  cases h with
  | listed => exact ⟨d, _, hw, hp⟩
  | merged ha hx _ ht hplug hm =>
      have hc := (Leaves.mem_of_mem_trailingComments (Leaves.of_directive?_eq_some hx).1).2
      rw [hplug] at hp
      exact ⟨_, _, hm.standing, Planted.wellShaped_replacement hp hc
        (by simp [Token.isComment, ht.2, TokenType.isComment])⟩
  | inserted ha _ _ hcs hm =>
      subst hcs
      exact ⟨_, _, hm.standing, Planted.wellShaped_insertion hp (type?_of_scope hq ha) _⟩
  | opened _ _ hplug hm =>
      rw [hplug] at hp
      exact ⟨_, _, hm.standing, Planted.wellShaped_opening hp _⟩

end Workspace

/-- **The tree of a document is well shaped** in every state that actions and undo lead to. -/
theorem Session.wellShaped {text name : String} {writable : Bool} {w : Workspace}
    {log : Session.Log}
    (h : Session Workspace.Applies (Workspace.empty.open text name writable) w log) :
    ∃ d p, w.Standing d p ∧ p.tree.WellShaped := by
  refine h.kept (P := fun w => ∃ d p, w.Standing d p ∧ p.tree.WellShaped) records_applies
    ⟨_, _, Workspace.standing_open text name writable, ?_⟩ ?_ ?_
  · rw [Tree.tree_plantedFrom]
    exact Tree.wellShaped_parse text
  · rintro u v - ⟨d, p, hu, hp⟩ ⟨hv, hne⟩
    rcases hu.takes_of_apply hv with ⟨-, rfl⟩ | ⟨cs, q, rfl, -, hq, ht⟩
    · exact absurd rfl hne
    · exact ht.wellShaped hu hp hq
  · rintro u v - ⟨d, p, hu, hp⟩ huv
    exact ⟨d, p, hu.extends huv, hp⟩

/-- The one document of a session has a well-shaped tree. -/
theorem Session.exists_standing {text name : String} {writable : Bool} {w : Workspace}
    {log : Session.Log} {d : Document}
    (h : Session Workspace.Applies (Workspace.empty.open text name writable) w log)
    (hd : w.documents = #[d]) : ∃ p, w.Standing d p ∧ p.tree.WellShaped := by
  obtain ⟨d', p, hw, hp⟩ := h.wellShaped
  obtain rfl : d' = d := by simpa [hd] using hw.documents.symm
  exact ⟨p, hw, hp⟩

end BnfSuppression
