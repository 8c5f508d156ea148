import BnfSuppression.Proofs.Standing
import BnfSuppression.Suppression.Action

/-!
# What Suppressing a Check Does

Taking an action looks for a container around an element, walks back over the comments before it,
and then leaves the document alone or makes one edit. On a document that stands, the walks are
readings of the list of leaves: `Leaves.trailingComments` are the comments that end such a list,
`Leaves.openingComments` those that start it.

## Main results

* `Forest.Holds.leadingComments_eq`, `Forest.Holds.openingComments_eq`: **leading comments are
  found among the leaves before an element, or at the start**.
* `Workspace.Takes`: the four outcomes of an action.
* `Workspace.Standing.takes_of_apply`: an action that succeeds has one of these outcomes.
* `Workspace.Standing.takes_opened`, `Workspace.Standing.takes_inserted`,
  `Workspace.Standing.takes_merged`: an action whose comment can be written succeeds.
-/

namespace BnfSuppression

open Planted (plug Place Change leafs)

/-! ### Leading comments in a list of leaves -/

namespace Leaves

/-- The comments of the white space and comments that end a list of leaves, the nearest to the end
first. -/
def trailingComments (xs : List (ElementId × Token)) : List (ElementId × Token) :=
  (xs.reverse.takeWhile fun x => x.2.isTrivia).filter fun x => x.2.isComment

/-- The comments of the white space and comments that start a list of leaves. -/
def openingComments (xs : List (ElementId × Token)) : List (ElementId × Token) :=
  (xs.takeWhile fun x => x.2.isTrivia).filter fun x => x.2.isComment

/-- The first of some comments that is a directive, with what it says. -/
def directive? (verb : String) (xs : List (ElementId × Token)) :
    Option ((ElementId × Token) × Directive) :=
  xs.findSome? fun x => (Directive.parse? x.2.text verb).map fun d => (x, d)

/-- What is found among the comments at the end of some leaves is one of the leaves, and a
comment. -/
theorem mem_of_mem_trailingComments {xs : List (ElementId × Token)} {x : ElementId × Token}
    (h : x ∈ trailingComments xs) : x ∈ xs ∧ x.2.isComment = true := by
  obtain ⟨hm, hc⟩ := List.mem_filter.1 h
  exact ⟨List.mem_reverse.1 ((List.takeWhile_sublist _).subset hm), hc⟩

/-- A directive that is found comes from one of the leaves searched, and is read from its text. -/
theorem of_directive?_eq_some {verb : String} {xs : List (ElementId × Token)}
    {x : ElementId × Token} {dir : Directive} (h : directive? verb xs = some (x, dir)) :
    x ∈ xs ∧ Directive.parse? x.2.text verb = some dir := by
  obtain ⟨y, hy, he⟩ := List.exists_of_findSome?_eq_some h
  obtain ⟨d, hd, he⟩ := Option.map_eq_some_iff.1 he
  obtain ⟨rfl, rfl⟩ := Prod.mk.inj he
  exact ⟨hy, hd⟩

end Leaves

namespace Forest

variable {f : Forest} {p : Planted} {cs : Place} {q : Planted}

/-- On stored leaves, a condition on tokens may be asked of the ids. -/
theorem Stores.map_takeWhile {outer? : Option ElementId} (h : f.Stores outer? p)
    {xs : List (ElementId × Token)} (hx : xs ⊆ p.leaves) (c : Token → Bool) :
    (xs.map Prod.fst).takeWhile (fun i => (f.token? i).any c) =
      (xs.takeWhile fun x => c x.2).map Prod.fst := by
  induction xs with
  | nil => rfl
  | cons x xs ih =>
      obtain ⟨hm, hx⟩ := List.cons_subset.1 hx
      simp only [List.map_cons, List.takeWhile_cons, h.token?_of_mem hm, Option.any_some, ih hx]
      split <;> rfl

/-- In a forest that stores a node, filtering its elements by their tokens is filtering its
leaves. -/
theorem Stores.map_filter {outer? : Option ElementId} (h : f.Stores outer? p)
    {xs : List (ElementId × Token)} (hx : xs ⊆ p.leaves) (c : Token → Bool) :
    (xs.map Prod.fst).filter (fun i => (f.token? i).any c) =
      (xs.filter fun x => c x.2).map Prod.fst := by
  induction xs with
  | nil => rfl
  | cons x xs ih =>
      obtain ⟨hm, hx⟩ := List.cons_subset.1 hx
      simp only [List.map_cons, List.filter_cons, h.token?_of_mem hm, Option.any_some, ih hx]
      split <;> rfl

/-- The step back that starts from known leaves is never a fault. -/
theorem faultOf_ofHead (xs : List (ElementId × Token)) : f.faultOf (.ofHead xs) = .ok () := by
  cases xs <;> rfl

/-- A leading run that starts with the given leaves of the tree ends without a fault. -/
theorem Holds.walkWhile_isTrivia (h : f.Holds p) {direction : Direction}
    {xs : List (ElementId × Token)} (hx : xs <:+ p.leavesToward direction) :
    ∃ rest, f.walkWhile direction f.isTrivia (.ofHead xs) =
      ⟨(xs.takeWhile fun x => x.2.isTrivia).map Prod.fst, .ofHead rest⟩ := by
  refine ⟨xs.dropWhile fun x => f.isTrivia x.1, ?_⟩
  have hs : xs ⊆ p.leaves := fun x hm => by
    have := hx.subset hm
    cases direction with
    | forward => exact this
    | backward => exact List.mem_reverse.1 this
  rw [h.walkWhile_eq f.isTrivia hx]
  congr 1
  exact h.stores.map_takeWhile hs Token.isTrivia

/-- **The comments that lead an element** are those that end the leaves before it. -/
theorem Holds.leadingComments_eq (h : f.Holds (plug cs q)) :
    ∃ rest, f.leadingComments .beforeNode q.id =
      ⟨(Leaves.trailingComments cs.before).map Prod.fst, .ofHead rest⟩ := by
  obtain ⟨rest, hw⟩ := h.walkWhile_isTrivia (Planted.beside_suffix cs q .backward)
  refine ⟨rest, ?_⟩
  have hs : (cs.before.reverse.takeWhile fun x => x.2.isTrivia) ⊆ (plug cs q).leaves := by
    intro x hx
    rw [Planted.leaves_plug]
    simp [List.mem_reverse.1 ((List.takeWhile_sublist _).subset hx)]
  simp only [leadingComments, leadingRun, h.step_eq, hw]
  congr 1
  exact h.stores.map_filter hs Token.isComment

/-- **The comments at the start of a document** are those that start its leaves. -/
theorem Holds.openingComments_eq (h : f.Holds p) :
    ∃ rest, f.leadingComments .documentStart p.id =
      ⟨(Leaves.openingComments p.leaves).map Prod.fst, .ofHead rest⟩ := by
  obtain ⟨rest, hw⟩ := h.walkWhile_isTrivia (List.suffix_refl (p.leavesToward .forward))
  refine ⟨rest, ?_⟩
  have hstart : ((f.firstLeaf? p.id).map Step.leaf).getD .edge = .ofHead p.leaves := by
    rw [h.stores.firstLeaf?_eq h.nodup]
    cases p.leaves <;> rfl
  simp only [Planted.leavesToward] at hw
  simp only [leadingComments, leadingRun, hstart, hw, Leaves.openingComments]
  congr 1
  exact h.stores.map_filter (List.takeWhile_sublist _).subset Token.isComment

/-- The nearest directive among stored comments. -/
theorem Stores.nearestDirective?_eq {outer? : Option ElementId} (h : f.Stores outer? p)
    {xs : List (ElementId × Token)} (hx : xs ⊆ p.leaves) (verb : String) :
    f.nearestDirective? verb (xs.map Prod.fst) =
      (Leaves.directive? verb xs).map fun r => (r.1.1, r.2) := by
  induction xs with
  | nil => rfl
  | cons x xs ih =>
      obtain ⟨hm, hx⟩ := List.cons_subset.1 hx
      have ih := ih hx
      simp only [nearestDirective?, Leaves.directive?] at ih ⊢
      simp only [List.map_cons, List.findSome?_cons, h.ownText_of_mem hm]
      cases hd : Directive.parse? x.2.text verb with
      | none => simpa using ih
      | some d => rfl

end Forest

/-! ### Containers -/

/-- A container is around the element, or is the element. -/
theorem Action.mem_ancestors_of_container? {a : Action} {f : Forest} {n k : ElementId}
    (h : a.container? f (some n) = some k) : k ∈ f.ancestors n := by
  have hfind : f.enclosing? a.scope n = some k := h
  exact List.mem_of_find?_eq_some hfind

namespace Workspace.Standing

variable {w v : Workspace} {d : Document} {p q : Planted} {cs : Place} {s : Settings} {a : Action}
  {element? : Option ElementId} {k : ElementId}

/-- The elements around an element of the tree are elements of the tree. -/
theorem ancestors_subset (h : w.Standing d p) {i : ElementId} (hi : i ∈ p.ids) :
    w.forest.ancestors i ⊆ p.ids := by
  obtain ⟨cs, q, rfl, rfl⟩ := Planted.exists_place hi
  rw [h.comprises.toHolds.ancestors_eq]
  intro j hj
  rw [(Planted.ids_plug_perm cs q).mem_iff, List.mem_append]
  rcases List.mem_cons.1 hj with rfl | hj
  · exact .inl q.id_mem_ids
  · exact .inr (cs.map_id_sublist_ids.subset hj)

/-- An element outside the tree is of no suppressible kind. -/
theorem kind_of_notMem (h : w.Standing d p) {i : ElementId} (hi : i ∉ p.ids) :
    w.forest.kind i = .other := by
  have ht : w.forest.type? i = none := by
    by_cases hs : i < w.forest.size
    · obtain ⟨t, ht⟩ := h.comprises.rest i hs hi
      simp [Forest.type?, ht]
    · simp [Forest.type?, Forest.get?_eq_none (Nat.le_of_not_lt hs)]
  simp [Forest.kind, ht]

/-- **A container is an element of the tree.** -/
theorem exists_container (h : w.Standing d p)
    (hk : a.container? w.forest element? = some k) :
    ∃ cs q, p = plug cs q ∧ q.id = k ∧ q.tree.kind = a.scope := by
  obtain ⟨e, -, hfind⟩ := Option.bind_eq_some_iff.1 hk
  have hkind : w.forest.kind k = a.scope := by simpa using List.find?_some hfind
  have hkp : k ∈ p.ids := by
    by_contra hn
    have hs := a.suppressible
    rw [← hkind, h.kind_of_notMem hn] at hs
    simp [NodeKind.suppressible] at hs
  obtain ⟨cs, q, rfl, rfl⟩ := Planted.exists_place hkp
  exact ⟨cs, q, rfl, rfl, h.comprises.stores_at.kind_eq ▸ hkind⟩

/-! ### Outcomes -/

end Workspace.Standing

namespace Workspace

/-- A text that is read as one line comment. -/
def IsLineComment (text : String) (t : Token) : Prop :=
  tokenize text = [t] ∧ t.type = .lineComment

/-- A line comment is the text that it was read from. -/
theorem IsLineComment.eq {text : String} {t : Token} (h : IsLineComment text t) :
    t = ⟨.lineComment, text⟩ := by
  have hflat := flatMap_tokenize text
  rw [h.1, List.flatMap_singleton] at hflat
  obtain rfl : t.text = text := String.toList_inj.1 hflat
  rw [← h.2]

/-- A token that is the line comment of a text has this text. -/
theorem IsLineComment.text_eq {text : String} {t : Token} (h : IsLineComment text t) :
    t.text = text := by
  rw [h.eq]

/-- What an action with a container at a place of the tree makes of a workspace. -/
inductive Takes (w : Workspace) (d : Document) (s : Settings) (a : Action) (cs : Place)
    (q : Planted) : Workspace → Prop
  /-- The id is listed already. -/
  | listed {x : ElementId × Token} {dir : Directive} :
    a.scope ≠ .document →
    Leaves.directive? s.verb (Leaves.trailingComments cs.before) = some (x, dir) →
    a.id s ∈ dir.ids → Takes w d s a cs q w
  /-- The id is added to the nearest directive. -/
  | merged {x : ElementId × Token} {dir : Directive} {b : Crumb} {bs : Place} {t : Token}
    {v : Workspace} :
    a.scope ≠ .document →
    Leaves.directive? s.verb (Leaves.trailingComments cs.before) = some (x, dir) →
    a.id s ∉ dir.ids → IsLineComment ((dir.withId (a.id s)).render s.marker) t →
    plug cs q = plug (b :: bs) (.leaf x.1 x.2) →
    w.Makes d (.replacement b bs x (w.forest.size, t)) v → Takes w d s a cs q v
  /-- A directive is inserted before the container. -/
  | inserted {b : Crumb} {bs : Place} {t : Token} {v : Workspace} :
    a.scope ≠ .document →
    Leaves.directive? s.verb (Leaves.trailingComments cs.before) = none →
    IsLineComment (s.comment (a.id s)) t → cs = b :: bs →
    w.Makes d (.insertion b bs q
      [(w.forest.size, t), (w.forest.size + 1, Document.lineBreak (b :: bs))]) v →
    Takes w d s a cs q v
  /-- A directive is inserted at the start of the document. -/
  | opened {ps : List Planted} {t : Token} {v : Workspace} :
    a.scope = .document → IsLineComment (s.comment (a.id s)) t →
    plug cs q = .node d.root .file ps →
    w.Makes d (.opening d.root .file ps
      [(w.forest.size, t), (w.forest.size + 1, ⟨.whitespace, "\n"⟩)]) v →
    Takes w d s a cs q v

/-- An action changes nothing or makes one edit. -/
theorem Takes.eq_or_makes {w v : Workspace} {d : Document} {s : Settings} {a : Action} {cs : Place}
    {q : Planted} (h : w.Takes d s a cs q v) : v = w ∨ ∃ c, w.Makes d c v := by
  cases h with
  | listed => exact .inl rfl
  | merged _ _ _ _ _ hm => exact .inr ⟨_, hm⟩
  | inserted _ _ _ _ hm => exact .inr ⟨_, hm⟩
  | opened _ _ _ hm => exact .inr ⟨_, hm⟩

namespace Standing

variable {w v : Workspace} {d : Document} {p q : Planted} {cs : Place} {s : Settings} {a : Action}
  {element? : Option ElementId}

/-- What taking an action does, once its container is found. -/
theorem apply_eq (h : w.Standing d (plug cs q)) (hd : d.writable = true)
    (hk : a.container? w.forest element? = some q.id) :
    w.apply s a element? =
      (if a.scope = .document then d.suppressInFile w.forest s (a.id s)
        else d.suppressBefore w.forest s (a.id s) q.id).map fun r => ⟨r.1, #[r.2]⟩ := by
  have hq : q.id ∈ (plug cs q).ids := Planted.id_mem_plug cs q
  rw [apply, hk]
  simp only [h.ownerOf?_eq, hq, if_true, edit_eq h.documents, hd, Bool.not_true,
    Bool.false_eq_true, if_false]

/-- Creating a comment from a text that is one. -/
theorem get?_addLeaf_size (f : Forest) (t : Token) :
    (f.addLeaf t).1.get? f.size = some ⟨.leaf t, none⟩ := by
  simp [Forest.get?_addLeaf]

/-- An action for the whole file inserts its directive at the start. -/
theorem takes_opened (h : w.Standing d (plug cs q)) (hd : d.writable = true)
    (hk : a.container? w.forest element? = some q.id) (ha : a.scope = .document) {t : Token}
    (ht : IsLineComment (s.comment (a.id s)) t) :
    ∃ v, w.apply s a element? = .ok v ∧ w.Takes d s a cs q v := by
  obtain ⟨ps, hps⟩ := h.root
  obtain ⟨r, hr, hm⟩ := (hps ▸ h).makes_insertAtStart hd (Forest.grows_addLeaf _ t)
    (w.forest.size, t) (get?_addLeaf_size w.forest t)
  rw [Forest.size_addLeaf] at hm
  refine ⟨_, ?_, .opened ha ht hps hm⟩
  rw [h.apply_eq hd hk, if_pos ha, Document.suppressInFile, Forest.addComment_ok ht.1 ht.2]
  exact congrArg (Except.map _) hr

/-- For a container other than the whole file, the nearest directive decides. -/
theorem suppressBefore_eq (h : w.Standing d (plug cs q)) (id : String) :
    d.suppressBefore w.forest s id q.id =
      match Leaves.directive? s.verb (Leaves.trailingComments cs.before) with
      | some (x, dir) =>
        if dir.ids.contains id then .ok (w.forest, d)
        else d.replaceComment w.forest x.1 ((dir.withId id).render s.marker)
      | none =>
        w.forest.addComment (s.comment id) >>= fun r => d.insertBefore r.1 r.2 q.id := by
  obtain ⟨rest, hw⟩ := h.comprises.toHolds.leadingComments_eq
  have hs : Leaves.trailingComments cs.before ⊆ (plug cs q).leaves := by
    intro x hx
    rw [Planted.leaves_plug]
    simp [(Leaves.mem_of_mem_trailingComments hx).1]
  rw [Document.suppressBefore]
  simp only [hw, h.comprises.stores.nearestDirective?_eq hs, Forest.faultOf_ofHead]
  cases Leaves.directive? s.verb (Leaves.trailingComments cs.before) with
  | none => rfl
  | some r => rfl

/-- An id that the nearest directive lists is not added again. -/
theorem apply_eq_self (h : w.Standing d (plug cs q)) (hd : d.writable = true)
    (hk : a.container? w.forest element? = some q.id) (ha : a.scope ≠ .document)
    {x : ElementId × Token} {dir : Directive}
    (hx : Leaves.directive? s.verb (Leaves.trailingComments cs.before) = some (x, dir))
    (hi : a.id s ∈ dir.ids) : w.apply s a element? = .ok w := by
  rw [h.apply_eq hd hk, if_neg ha, h.suppressBefore_eq, hx]
  simp only [List.contains_iff_mem.2 hi, if_true, Except.map]
  rw [← h.documents]

/-- If the comment in front already lists the id, the action succeeds and the document takes the
outcome that leaves it alone. -/
theorem takes_listed (h : w.Standing d (plug cs q)) (hd : d.writable = true)
    (hk : a.container? w.forest element? = some q.id) (ha : a.scope ≠ .document)
    {x : ElementId × Token} {dir : Directive}
    (hx : Leaves.directive? s.verb (Leaves.trailingComments cs.before) = some (x, dir))
    (hi : a.id s ∈ dir.ids) :
    ∃ v, w.apply s a element? = .ok v ∧ w.Takes d s a cs q v :=
  ⟨w, h.apply_eq_self hd hk ha hx hi, .listed ha hx hi⟩

/-- An id is added to the nearest directive. -/
theorem takes_merged (h : w.Standing d (plug cs q)) (hd : d.writable = true)
    (hk : a.container? w.forest element? = some q.id) (ha : a.scope ≠ .document)
    {x : ElementId × Token} {dir : Directive}
    (hx : Leaves.directive? s.verb (Leaves.trailingComments cs.before) = some (x, dir))
    (hi : a.id s ∉ dir.ids) {t : Token}
    (ht : IsLineComment ((dir.withId (a.id s)).render s.marker) t) :
    ∃ v, w.apply s a element? = .ok v ∧ w.Takes d s a cs q v := by
  obtain ⟨hxb, hxc⟩ := Leaves.mem_of_mem_trailingComments (Leaves.of_directive?_eq_some hx).1
  obtain ⟨pre, post, hb⟩ := List.append_of_mem hxb
  have hleaves : (plug cs q).leaves = pre ++ x :: (post ++ q.leaves ++ cs.after) := by
    rw [Planted.leaves_plug, hb]
    simp
  obtain ⟨b, bs, hp, -, -⟩ := h.exists_crumb_of_leaves hleaves
  obtain ⟨r, hr, hm⟩ := (hp ▸ h).makes_replaceComment hd hxc ht.1 ht.2
  refine ⟨_, ?_, .merged ha hx hi ht hp hm⟩
  have hc : dir.ids.contains (a.id s) = false := by simpa using hi
  rw [h.apply_eq hd hk, if_neg ha, h.suppressBefore_eq, hx]
  simp only [hc, Bool.false_eq_true, if_false]
  exact congrArg (Except.map _) hr

/-- Without a directive before the container one is inserted. -/
theorem takes_inserted (h : w.Standing d (plug cs q)) (hd : d.writable = true)
    (hk : a.container? w.forest element? = some q.id) (ha : a.scope ≠ .document)
    (hscope : q.tree.kind = a.scope)
    (hx : Leaves.directive? s.verb (Leaves.trailingComments cs.before) = none) {t : Token}
    (ht : IsLineComment (s.comment (a.id s)) t) :
    ∃ v, w.apply s a element? = .ok v ∧ w.Takes d s a cs q v := by
  cases cs with
  | nil =>
      -- the root is a whole file
      obtain ⟨ps, rfl⟩ : ∃ ps, q = .node d.root .file ps := h.root
      exact absurd hscope.symm ha
  | cons b bs =>
      obtain ⟨r, hr, hm⟩ := h.makes_insertBefore hd (Forest.grows_addLeaf _ t)
        (w.forest.size, t) (get?_addLeaf_size w.forest t)
      rw [Forest.size_addLeaf] at hm
      refine ⟨_, ?_, .inserted ha hx ht rfl hm⟩
      rw [h.apply_eq hd hk, if_neg ha, h.suppressBefore_eq, hx, Forest.addComment_ok ht.1 ht.2]
      exact congrArg (Except.map _) hr

/-- Only writable documents are changed, or found to need no change. -/
theorem writable_of_apply (h : w.Standing d (plug cs q))
    (hk : a.container? w.forest element? = some q.id) (hv : w.apply s a element? = .ok v) :
    d.writable = true := by
  by_contra hd
  have hq : q.id ∈ (plug cs q).ids := Planted.id_mem_plug cs q
  rw [apply, hk] at hv
  simp [h.ownerOf?_eq, hq, edit_eq h.documents, hd, Except.map] at hv

/-- A result that was mapped was a result. -/
theorem of_map_eq_ok {α β : Type _} {g : α → β} {r : Except Fault α} {b : β}
    (h : r.map g = .ok b) : ∃ a, r = .ok a := by
  cases r with
  | error e => simp [Except.map] at h
  | ok a => exact ⟨a, rfl⟩

/-- Where a comment was created, its text was one. -/
theorem isLineComment_of_addComment {α : Type _} {f : Forest} {text : String}
    {next : Forest × ElementId → Except Fault α}
    (h : ∃ r, (f.addComment text >>= next) = .ok r) : ∃ t, IsLineComment text t := by
  obtain ⟨r, hr⟩ := h
  cases hadd : f.addComment text with
  | error e => simp [hadd, bind, Except.bind] at hr
  | ok r' =>
      obtain ⟨t, ht, hl, -⟩ := Forest.addComment_eq_ok hadd
      exact ⟨t, ht, hl⟩

/-- **An action that succeeds has one of the outcomes**, unless it has no container. -/
theorem takes_of_apply (h : w.Standing d p) (hv : w.apply s a element? = .ok v) :
    a.container? w.forest element? = none ∧ v = w ∨
      ∃ cs q, p = plug cs q ∧ a.container? w.forest element? = some q.id ∧
        q.tree.kind = a.scope ∧ w.Takes d s a cs q v := by
  cases hk : a.container? w.forest element? with
  | none =>
      rw [apply, hk] at hv
      exact .inl ⟨rfl, (Except.ok.inj hv).symm⟩
  | some k =>
      obtain ⟨cs, q, rfl, rfl, hscope⟩ := h.exists_container hk
      refine .inr ⟨cs, q, rfl, rfl, hscope, ?_⟩
      have hd : d.writable = true := h.writable_of_apply hk hv
      -- the action did what it does once its comment can be written
      have hsame : (∃ u, w.apply s a element? = .ok u ∧ w.Takes d s a cs q u) →
          w.Takes d s a cs q v := by
        rintro ⟨u, hu, ht⟩
        rw [hv] at hu
        exact Except.ok.inj hu ▸ ht
      apply hsame
      rw [h.apply_eq hd hk] at hv
      by_cases ha : a.scope = .document
      · rw [if_pos ha] at hv
        obtain ⟨t, ht⟩ := isLineComment_of_addComment (of_map_eq_ok hv)
        exact h.takes_opened hd hk ha ht
      · rw [if_neg ha, h.suppressBefore_eq] at hv
        cases hx : Leaves.directive? s.verb (Leaves.trailingComments cs.before) with
        | none =>
            rw [hx] at hv
            obtain ⟨t, ht⟩ := isLineComment_of_addComment (of_map_eq_ok hv)
            exact h.takes_inserted hd hk ha hscope hx ht
        | some r =>
            obtain ⟨x, dir⟩ := r
            by_cases hi : a.id s ∈ dir.ids
            · exact h.takes_listed hd hk ha hx hi
            · have hc : dir.ids.contains (a.id s) = false := by simpa using hi
              rw [hx] at hv
              simp only [hc, Bool.false_eq_true, if_false] at hv
              obtain ⟨r, hr⟩ := of_map_eq_ok hv
              obtain ⟨t, ht⟩ := Document.replaceComment_eq_ok hr
              exact h.takes_merged hd hk ha hx hi ht

end Standing

end Workspace

end BnfSuppression
