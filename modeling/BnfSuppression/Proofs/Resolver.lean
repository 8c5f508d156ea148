import BnfSuppression.Proofs.Shape.Kept
import BnfSuppression.Suppression.Coverage
import Mathlib.Data.List.DropRight

/-!
# Suppression on the List of Leaves

Whether a check is suppressed for an element is found by walking up from the element and, at every
element on the way, back leaf by leaf. This module gives two readings of the answer. At a place of a
tree it is a recursion over the composites around the place, `Planted.Place.isLed`. And without any
tree, it is a statement about the list of leaves of the document, `Workspace.Suppresses`: directives
count that stand in the first stretch of white space and comments, or in the stretch that ends right
before the first leaf of an element around the one that is asked for.

## Main results

* `Workspace.Standing.isSuppressed_eq`: the answer at a place.
* `Session.isSuppressed_iff_suppresses`: **the answer on the list of leaves**, in every state that
  actions and undo lead to.
-/

namespace BnfSuppression

open Planted (plug Place)

/-! ### The answer at a place -/

namespace Leaves

/-- Whether one of some comments lists an id, or all checks. -/
def lists (s : Settings) (id : String) (xs : List (ElementId × Token)) : Bool :=
  xs.any fun x => s.mentions x.2.text id

end Leaves

namespace Planted

/-- Whether the comments before the element at a place, or before one around it other than the
root, list an id. -/
def Place.isLed (s : Settings) (id : String) : Place → Bool
  | [] => false
  | c :: cs => Leaves.lists s id (Leaves.trailingComments (Place.before (c :: cs))) ||
      Place.isLed s id cs

/-- The elements around a place are at the places that its crumbs end with. -/
theorem Place.isLed_iff {s : Settings} {id : String} {cs : Place} :
    Place.isLed s id cs = true ↔ ∃ ds : Place, ds <:+ cs ∧ ds ≠ [] ∧
      Leaves.lists s id (Leaves.trailingComments ds.before) = true := by
  induction cs with
  | nil => simp [Place.isLed]
  | cons c cs ih =>
      rw [Place.isLed, Bool.or_eq_true, ih]
      constructor
      · rintro (h | ⟨ds, hs, hne, h⟩)
        · exact ⟨c :: cs, List.suffix_refl _, by simp, h⟩
        · exact ⟨ds, hs.trans (List.suffix_cons c cs), hne, h⟩
      · rintro ⟨ds, hs, hne, h⟩
        rcases List.suffix_cons_iff.1 hs with rfl | hs
        · exact .inl h
        · exact .inr ⟨ds, hs, hne, h⟩

end Planted

namespace Workspace.Standing

variable {w : Workspace} {d : Document} {p q : Planted} {cs : Place} (s : Settings)

/-- Comments of stored leaves list an id if their tokens do. -/
theorem any_mentions (h : w.Standing d p) {xs : List (ElementId × Token)} (hx : xs ⊆ p.leaves)
    (id : String) :
    ((xs.map Prod.fst).any fun c => s.mentions (w.forest.ownText c) id) =
      Leaves.lists s id xs := by
  induction xs with
  | nil => rfl
  | cons x xs ih =>
      obtain ⟨hm, hx⟩ := List.cons_subset.1 hx
      simp only [Leaves.lists] at ih ⊢
      simp only [List.map_cons, List.any_cons, h.comprises.stores.ownText_of_mem hm, ih hx]

/-- What the start of the document says. -/
theorem isSuppressedAt_start (h : w.Standing d p) (id : String) :
    w.forest.isSuppressedAt s .documentStart d.root id =
      .ok (Leaves.lists s id (Leaves.openingComments p.leaves)) := by
  obtain ⟨rest, hw⟩ := h.comprises.toHolds.openingComments_eq
  have hs : Leaves.openingComments p.leaves ⊆ p.leaves := fun x hx =>
    (List.takeWhile_sublist _).subset (List.mem_filter.1 hx).1
  rw [Forest.isSuppressedAt, ← h.id_eq, hw]
  simp only [h.any_mentions s hs, Forest.faultOf_ofHead]
  cases Leaves.lists s id (Leaves.openingComments p.leaves) <;> rfl

/-- What stands before an element says. -/
theorem isSuppressedAt_before (h : w.Standing d (plug cs q)) (id : String) :
    w.forest.isSuppressedAt s .beforeNode q.id id =
      .ok (Leaves.lists s id (Leaves.trailingComments cs.before)) := by
  obtain ⟨rest, hw⟩ := h.comprises.toHolds.leadingComments_eq
  have hs : Leaves.trailingComments cs.before ⊆ (plug cs q).leaves := by
    intro x hx
    rw [Planted.leaves_plug]
    simp [(Leaves.mem_of_mem_trailingComments hx).1]
  rw [Forest.isSuppressedAt, hw]
  simp only [h.any_mentions s hs, Forest.faultOf_ofHead]
  cases Leaves.lists s id (Leaves.trailingComments cs.before) <;> rfl

/-- What stands before the elements around a place says. -/
theorem isSuppressedBefore_eq (h : w.Standing d (plug cs q)) (id : String) :
    w.forest.isSuppressedBefore s id
        ((q.id :: cs.map Crumb.id).takeWhile fun e => some d.root != some e) =
      .ok (Place.isLed s id cs) := by
  induction cs generalizing q with
  | nil =>
      have hr : q.id = d.root := h.id_eq
      simp [hr, Forest.isSuppressedBefore, Place.isLed]
  | cons c cs ih =>
      have hr : d.root ≠ q.id := Ne.symm (h.id_ne_root (by simp))
      have htake : (q.id :: (c :: cs).map Crumb.id).takeWhile (fun e => some d.root != some e) =
          q.id :: (c.id :: cs.map Crumb.id).takeWhile fun e => some d.root != some e := by
        rw [List.map_cons, List.takeWhile_cons_of_pos]
        simpa using hr
      have hi := ih (q := .node c.id c.type (c.left ++ q :: c.right)) h
      rw [htake, Forest.isSuppressedBefore, h.isSuppressedAt_before s id, Place.isLed]
      cases Leaves.lists s id (Leaves.trailingComments (Place.before (c :: cs))) with
      | true => rfl
      | false => exact hi

/-- **Whether a check is suppressed for the element at a place.** -/
theorem isSuppressed_eq (h : w.Standing d (plug cs q)) (check : String) :
    w.isSuppressed s q.id check =
      .ok (q.tree.kind.suppressible &&
        (Leaves.lists s (s.fileId check) (Leaves.openingComments (plug cs q).leaves) ||
          Place.isLed s check cs)) := by
  have hq : q.id ∈ (plug cs q).ids := Planted.id_mem_plug cs q
  have hroot : w.rootOf? q.id = some d.root := by
    simp [rootOf?, h.ownerOf?_eq, hq, h.documents]
  have hkind : w.forest.kind q.id = q.tree.kind := h.comprises.stores_at.kind_eq
  rw [isSuppressed, hkind]
  cases hs : q.tree.kind.suppressible with
  | false => rfl
  | true =>
      simp only [hroot, h.isSuppressedAt_start s, h.comprises.toHolds.ancestors_eq,
        h.isSuppressedBefore_eq s]
      cases Leaves.lists s (s.fileId check) (Leaves.openingComments (plug cs q).leaves) <;> rfl

end Workspace.Standing

/-! ### The answer on the list of leaves -/

/-- A leaf is a directive that lists an id, or all checks. -/
def Forest.IsDirectiveFor (f : Forest) (s : Settings) (id : String) (leaf : ElementId) : Prop :=
  f.isComment leaf = true ∧ ∃ dir, Directive.parse? (f.ownText leaf) s.verb = some dir ∧
    (id ∈ dir.ids ∨ s.allChecksId ∈ dir.ids)

namespace Workspace

/-- A directive among the leaves of a document suppresses a check for an element. -/
inductive Suppresses (w : Workspace) (d : Document) (s : Settings) (check : String)
    (n : ElementId) : Prop
  /-- It stands among the white space and comments that the document starts with. -/
  | atStart {leaf : ElementId} :
    leaf ∈ (d.leaves w.forest).takeWhile w.forest.isTrivia →
    w.forest.IsDirectiveFor s (s.fileId check) leaf → Suppresses w d s check n
  /-- It stands among the white space and comments that end right before the first leaf of an
  element other than the root, which is the one that is asked for or around it. -/
  | before {a first leaf : ElementId} {pre post : List ElementId} :
    a ∈ w.forest.below d.root → a ≠ d.root → n ∈ w.forest.below a →
    w.forest.firstLeaf? a = some first → d.leaves w.forest = pre ++ first :: post →
    leaf ∈ pre.rtakeWhile w.forest.isTrivia →
    w.forest.IsDirectiveFor s check leaf → Suppresses w d s check n

end Workspace

namespace Forest

variable {f : Forest} {p q : Planted} {cs : Place} {s : Settings}

/-- Whether an id is listed is asked of the text of a comment. -/
theorem isDirectiveFor_iff {outer? : Option ElementId} (h : f.Stores outer? p)
    {x : ElementId × Token} (hx : x ∈ p.leaves) {id : String} :
    f.IsDirectiveFor s id x.1 ↔ x.2.isComment = true ∧ s.mentions x.2.text id = true := by
  have hc : f.isComment x.1 = x.2.isComment := by simp [isComment, h.token?_of_mem hx]
  have hm : s.mentions x.2.text id = true ↔ ∃ dir, Directive.parse? x.2.text s.verb = some dir ∧
      (id ∈ dir.ids ∨ s.allChecksId ∈ dir.ids) := by
    simp [Settings.mentions, isMentioned, Directive.mentions, Option.any_eq_true]
  rw [IsDirectiveFor, hc, h.ownText_of_mem hx, hm]

/-- The comments among some leaves list an id if one of the leaves is a directive for it. -/
theorem lists_filter_iff {outer? : Option ElementId} (h : f.Stores outer? p)
    {xs : List (ElementId × Token)} (hx : xs ⊆ p.leaves) {id : String} :
    Leaves.lists s id (xs.filter fun x => x.2.isComment) = true ↔
      ∃ leaf ∈ xs.map Prod.fst, f.IsDirectiveFor s id leaf := by
  simp only [Leaves.lists, List.any_eq_true, List.mem_filter]
  constructor
  · rintro ⟨x, ⟨hm, hc⟩, ht⟩
    exact ⟨x.1, List.mem_map_of_mem hm, (isDirectiveFor_iff h (hx hm)).2 ⟨hc, ht⟩⟩
  · rintro ⟨leaf, hl, hd⟩
    obtain ⟨x, hm, rfl⟩ := List.mem_map.1 hl
    obtain ⟨hc, ht⟩ := (isDirectiveFor_iff h (hx hm)).1 hd
    exact ⟨x, ⟨hm, hc⟩, ht⟩

/-- The directives at the start of a stored tree. -/
theorem lists_openingComments_iff {outer? : Option ElementId} (h : f.Stores outer? p)
    {id : String} :
    Leaves.lists s id (Leaves.openingComments p.leaves) = true ↔
      ∃ leaf ∈ (p.leaves.map Prod.fst).takeWhile f.isTrivia, f.IsDirectiveFor s id leaf := by
  have ht : (p.leaves.map Prod.fst).takeWhile f.isTrivia =
      (p.leaves.takeWhile fun x => x.2.isTrivia).map Prod.fst :=
    h.map_takeWhile (List.Subset.refl _) Token.isTrivia
  rw [ht, Leaves.openingComments]
  exact lists_filter_iff h (List.takeWhile_sublist _).subset

/-- The directives at the end of some leaves of a stored tree. -/
theorem lists_trailingComments_iff {outer? : Option ElementId} (h : f.Stores outer? p)
    {xs : List (ElementId × Token)} (hx : xs ⊆ p.leaves) {id : String} :
    Leaves.lists s id (Leaves.trailingComments xs) = true ↔
      ∃ leaf ∈ (xs.map Prod.fst).rtakeWhile f.isTrivia, f.IsDirectiveFor s id leaf := by
  have hr : xs.reverse ⊆ p.leaves := fun x hm => hx (List.mem_reverse.1 hm)
  have ht : (xs.map Prod.fst).reverse.takeWhile f.isTrivia =
      (xs.reverse.takeWhile fun x => x.2.isTrivia).map Prod.fst := by
    rw [← List.map_reverse]
    exact h.map_takeWhile hr Token.isTrivia
  have hm : ∀ leaf, leaf ∈ (xs.map Prod.fst).rtakeWhile f.isTrivia ↔
      leaf ∈ (xs.reverse.takeWhile fun x => x.2.isTrivia).map Prod.fst := by
    intro leaf
    rw [List.rtakeWhile, List.mem_reverse, ht]
  simp only [hm, Leaves.trailingComments]
  exact lists_filter_iff h (List.Subset.trans (List.takeWhile_sublist _).subset hr)

end Forest

/-- A list without repetitions has one front before each member. -/
theorem eq_of_append_cons_eq {α : Type _} [DecidableEq α] {l l' r r' : List α} {a : α}
    (hn : (l ++ a :: r).Nodup) (h : l ++ a :: r = l' ++ a :: r') : l = l' := by
  have front : ∀ {l r : List α}, (l ++ a :: r).Nodup →
      (l ++ a :: r).takeWhile (fun b => decide (b ≠ a)) = l := by
    intro l r hn
    have hl : ∀ b ∈ l, decide (b ≠ a) = true := by
      intro b hb
      have := (List.nodup_append.1 hn).2.2 b hb a (by simp)
      simpa using this
    rw [List.takeWhile_append_of_pos hl]
    simp
  rw [← front hn, h, front (h ▸ hn)]

namespace Workspace.Standing

variable {w : Workspace} {d : Document} {p q : Planted} {cs ds : Place} {s : Settings}
  {check : String}

/-- A directive before an element around another one suppresses the check for the latter. -/
theorem suppresses_of_lists (h : w.Standing d (plug (cs ++ ds) q)) (hne : ds ≠ [])
    (hq : ∃ x xs, (plug cs q).leaves = x :: xs)
    (hl : Leaves.lists s check (Leaves.trailingComments ds.before) = true) :
    w.Suppresses d s check q.id := by
  have hsplit : plug (cs ++ ds) q = plug ds (plug cs q) := Planted.plug_append cs ds q
  rw [hsplit] at h
  have hleaves := Planted.leaves_plug ds (plug cs q)
  obtain ⟨first, rest, hfirst⟩ := hq
  have hsub : ds.before ⊆ (plug ds (plug cs q)).leaves := fun x hx => by simp [hleaves, hx]
  obtain ⟨leaf, hm, hd⟩ := (Forest.lists_trailingComments_iff h.comprises.stores hsub).1 hl
  have hstored := h.comprises.toHolds.stores_at
  have hnodup := h.comprises.toHolds.nodup_at
  have hlist : d.leaves w.forest =
      ds.before.map Prod.fst ++ first.1 :: (rest ++ ds.after).map Prod.fst := by
    rw [h.leaves_eq, hleaves, hfirst]
    simp
  refine .before (a := (plug cs q).id) ?_ ?_ ?_ ?_ hlist hm hd
  · rw [h.below_eq]
    exact Planted.id_mem_plug ds _
  · exact h.id_ne_root hne
  · rw [hstored.below_eq hnodup]
    exact Planted.id_mem_plug cs q
  · rw [hstored.firstLeaf?_eq hnodup, hfirst]
    rfl

/-- Every way in which a directive suppresses a check for an element comes from its place. -/
theorem exists_place_of_suppresses (h : w.Standing d p) {n : ElementId}
    (hn : w.Suppresses d s check n) :
    Leaves.lists s (s.fileId check) (Leaves.openingComments p.leaves) = true ∨
      ∃ cs q, p = plug cs q ∧ q.id = n ∧ Place.isLed s check cs = true := by
  cases hn with
  | atStart hm hd =>
      rw [h.leaves_eq] at hm
      exact .inl ((Forest.lists_openingComments_iff h.comprises.stores).2 ⟨_, hm, hd⟩)
  | @before a first leaf pre post ha hroot hna hfirst hleaves hm hd =>
      rw [h.below_eq] at ha
      obtain ⟨ds, r, rfl, rfl⟩ := Planted.exists_place ha
      have hstored := h.comprises.toHolds.stores_at
      have hnodup := h.comprises.toHolds.nodup_at
      rw [hstored.below_eq hnodup] at hna
      obtain ⟨es, q, rfl, rfl⟩ := Planted.exists_place hna
      refine .inr ⟨es ++ ds, q, (Planted.plug_append es ds q).symm, rfl, ?_⟩
      have hne : ds ≠ [] := by
        rintro rfl
        exact hroot h.id_eq
      refine Place.isLed_iff.2 ⟨ds, List.suffix_append es ds, hne, ?_⟩
      have hsub : ds.before ⊆ (plug ds (plug es q)).leaves := fun x hx => by
        simp [Planted.leaves_plug ds, hx]
      -- the leaves before the first one of the element are those before its place
      have hpre : pre = ds.before.map Prod.fst := by
        rw [hstored.firstLeaf?_eq hnodup] at hfirst
        obtain ⟨x, hx, rfl⟩ := Option.map_eq_some_iff.1 hfirst
        obtain ⟨xs, hxs⟩ := List.head?_eq_some_iff.1 hx
        rw [h.leaves_eq] at hleaves
        have hids : (pre ++ x.1 :: post).Nodup := by
          rw [← hleaves]
          exact (Planted.leaves_sublist _).nodup h.comprises.nodup
        have hsplit : pre ++ x.1 :: post =
            ds.before.map Prod.fst ++ x.1 :: (xs ++ ds.after).map Prod.fst := by
          rw [← hleaves, Planted.leaves_plug ds, hxs]
          simp
        exact eq_of_append_cons_eq hids hsplit
      rw [hpre] at hm
      exact (Forest.lists_trailingComments_iff h.comprises.stores hsub).2 ⟨_, hm, hd⟩

/-- **The answer on the list of leaves**, for a well-shaped tree. -/
theorem isSuppressed_iff (h : w.Standing d p) (hp : p.tree.WellShaped) (s : Settings)
    (n : ElementId) (check : String) :
    ∃ b, w.isSuppressed s n check = .ok b ∧
      (b = true ↔ (w.forest.kind n).suppressible = true ∧ w.Suppresses d s check n) := by
  by_cases hn : n ∈ p.ids
  · obtain ⟨cs, q, rfl, rfl⟩ := Planted.exists_place hn
    have hkind : w.forest.kind q.id = q.tree.kind := h.comprises.stores_at.kind_eq
    have hanswer := h.isSuppressed_eq s check
    refine ⟨_, hanswer, ?_⟩
    rw [hkind, Bool.and_eq_true, Bool.or_eq_true]
    refine and_congr_right fun hs => ⟨?_, fun hsup => ?_⟩
    · rintro (hl | hl)
      · obtain ⟨leaf, hm, hd⟩ := (Forest.lists_openingComments_iff h.comprises.stores).1 hl
        rw [← h.leaves_eq] at hm
        exact .atStart hm hd
      · obtain ⟨ds, ⟨es, rfl⟩, hne, hl⟩ := Place.isLed_iff.1 hl
        obtain ⟨x, xs, hx, -⟩ := Planted.leaves_plug_of_suppressible hp hne hs
        exact h.suppresses_of_lists hne ⟨x, xs, hx⟩ hl
    · rcases h.exists_place_of_suppresses hsup with hl | ⟨es, r, hr, hid, hl⟩
      · exact .inl hl
      · -- the element has one answer, however its place is given
        have hother := (hr ▸ h).isSuppressed_eq s check
        rw [hid, hanswer] at hother
        have hk : r.tree.kind = q.tree.kind := by
          rw [← hkind, ← hid]
          exact (Forest.Stores.kind_eq (hr ▸ h).comprises.toHolds.stores_at).symm
        have := Except.ok.inj hother
        rw [hk, hs, hl, ← hr] at this
        simpa using this
  · have hkind := h.kind_of_notMem hn
    refine ⟨false, by simp [isSuppressed, hkind, NodeKind.suppressible, pure, Except.pure], ?_⟩
    simp [hkind, NodeKind.suppressible]

end Workspace.Standing

/-- **The answer on the list of leaves**, in every state that actions and undo lead to: a check is
suppressed for a rule, an attribute or a document exactly by the directives among the leaves that
suppress it. -/
theorem Session.isSuppressed_iff_suppresses {text name : String} {writable : Bool} {w : Workspace}
    {log : Session.Log}
    (h : Session Workspace.Applies (Workspace.empty.open text name writable) w log) {d : Document}
    (hd : w.documents = #[d]) (s : Settings) (n : ElementId) (check : String) :
    ∃ b, w.isSuppressed s n check = .ok b ∧
      (b = true ↔ (w.forest.kind n = .rule ∨ w.forest.kind n = .attr ∨
        w.forest.kind n = .document) ∧ w.Suppresses d s check n) := by
  obtain ⟨d', p, hw, hp⟩ := h.wellShaped
  obtain rfl : d' = d := by simpa [hd] using hw.documents.symm
  obtain ⟨b, hb, hiff⟩ := hw.isSuppressed_iff hp s n check
  refine ⟨b, hb, hiff.trans (and_congr_left fun _ => ?_)⟩
  cases w.forest.kind n <;> simp [NodeKind.suppressible]

/-- The attribute of a rule before which a directive was inserted. -/
theorem Session.isSuppressed_iff_suppresses_attr : ∃ w d log,
    Session Workspace.Applies (Workspace.empty.open "a ::= b { pin=1 }\n" "g" true) w log ∧
      w.documents = #[d] ∧ ∃ b, w.isSuppressed .standard 12 "X" = .ok b ∧
        (b = true ↔ (w.forest.kind 12 = .rule ∨ w.forest.kind 12 = .attr ∨
          w.forest.kind 12 = .document) ∧ w.Suppresses d .standard "X" 12) := by
  let start := Workspace.empty.open "a ::= b { pin=1 }\n" "g" true
  let applied := result (start.apply .standard ⟨"X", .rule, rfl⟩ (some 12)) (by decide +kernel)
  have h : Session Workspace.Applies start applied [(start, applied)] :=
    of_result _ (by decide +kernel)
  obtain ⟨history, p, hw⟩ := h.opened records_applies
  exact ⟨applied, _, _, h, hw.documents, h.isSuppressed_iff_suppresses hw.documents _ _ _⟩

end BnfSuppression
