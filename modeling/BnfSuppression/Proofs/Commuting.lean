import BnfSuppression.Proofs.Entered
import BnfSuppression.Proofs.Lossless
import BnfSuppression.Proofs.Writing

/-!
# Actions on Containers, Taken Twice and in Either Order

Seen in the tokens of a document, an action for a rule or an attribute enters an id among the tokens
before its container and leaves all others alone. For every container, the tokens before it are then
what they were, if it starts before the container of the action, and else the tokens that were
entered with what followed them before. This is all it takes to compare runs of actions.

## Main definitions

* `Forest.tokensBefore`: the tokens before an element.
* `Workspace.Enters`: what an action does to the tokens before all containers.

## Main results

* `Workspace.Makes.enters`, `Workspace.Takes.enters`: the step.
* `Session.apply_idempotent`: **an action for a container, taken again, changes nothing**.
* `Session.apply_comm`: **actions for different containers commute**.
-/

namespace BnfSuppression

open Planted (plug Place Change)
open Directive (IsId)

namespace Forest

/-- The tokens of the leaves below an element, in the order of the text. -/
def tokens (f : Forest) (root : ElementId) : List Token := (f.spelled root).map Prod.snd

/-- Those of them in front of the leaves of another element. -/
def tokensBefore (f : Forest) (root k : ElementId) : List Token :=
  (f.leavesBefore k (f.spelled root)).map Prod.snd

/-- What stands before an element is a start of the tokens of the whole text. -/
theorem tokensBefore_prefix (f : Forest) (root k : ElementId) :
    f.tokensBefore root k <+: f.tokens root :=
  (List.takeWhile_prefix _).map Prod.snd

end Forest

namespace Workspace

variable {w v : Workspace} {d d' : Document} {c : Change} {s : Settings} {a b : Action}
  {p p' q : Planted} {cs : Place} {id : String} {k l root : ElementId} {element? : Option ElementId}
  {original : List Token}

/-- The element is a rule or an attribute. -/
def IsContainer (w : Workspace) (k : ElementId) : Prop :=
  w.forest.kind k = .rule ∨ w.forest.kind k = .attr

/-- **What an action does to the tokens before containers**: the id is entered among those before
the container of the action. What stands before containers that start earlier is as it was, and
before those that start later it only changes in front of the action's container. -/
structure Enters (w : Workspace) (root : ElementId) (s : Settings) (id : String) (k : ElementId)
    (v : Workspace) : Prop where
  tokens : ∀ rest, w.forest.tokens root = w.forest.tokensBefore root k ++ rest →
    v.forest.tokens root = s.entered id (w.forest.tokensBefore root k) ++ rest
  kind : ∀ n, v.forest.kind n = w.forest.kind n
  before : ∀ l, w.IsContainer l →
    (w.forest.tokensBefore root l).length < (w.forest.tokensBefore root k).length ∧
        v.forest.tokensBefore root l = w.forest.tokensBefore root l ∨
      ∃ ts, w.forest.tokensBefore root l = w.forest.tokensBefore root k ++ ts ∧
        v.forest.tokensBefore root l = s.entered id (w.forest.tokensBefore root k) ++ ts

/-- Containers are among the elements for which checks can be suppressed. -/
theorem IsContainer.suppressible (h : w.IsContainer k) :
    (w.forest.kind k).suppressible = true := by
  rcases h with h | h <;> rw [h] <;> rfl

/-- The root of the document is a file, so it is no container. -/
theorem IsContainer.ne_root (h : w.IsContainer k) (hw : w.Standing d p) : k ≠ d.root := by
  rintro rfl
  obtain ⟨ps, rfl⟩ := hw.root
  have hkind : w.forest.kind d.root = .document := hw.comprises.stores.kind_eq
  rcases h with h | h <;> simp [h] at hkind

/-- A container starts with a solid leaf. -/
theorem Standing.startsSolid_container (h : w.Standing d p) (hp : p.tree.WellShaped)
    (hk : w.IsContainer k) : StartsSolid p k := by
  have hm := h.mem_of_suppressible hk.suppressible
  have hself : k ∈ w.forest.ancestors k := by
    obtain ⟨cs, q, rfl, rfl⟩ := Planted.exists_place hm
    simp [h.comprises.toHolds.ancestors_eq]
  exact h.startsSolid hp hm hk.suppressible hself (hk.ne_root h)

/-- The tokens before a rule or an attribute at a place. -/
theorem Standing.tokensBefore_eq (h : w.Standing d (plug cs q))
    (hp : (plug cs q).tree.WellShaped)
    (hq : q.tree.type? = some .rule ∨ q.tree.type? = some .attr) :
    w.forest.tokensBefore d.root q.id = cs.before.map Prod.snd := by
  obtain ⟨x, xs, hx, -⟩ := leaves_of_rule_or_attr hp hq
  rw [Forest.tokensBefore, h.spelled_eq, (h.comprises.toHolds.leavesBefore_eq hx).1]

/-! ### The step -/

/-- Where an action leaves the document alone, every container is before or behind its own. -/
theorem enters_self (h : s.entered id (w.forest.tokensBefore root k) =
    w.forest.tokensBefore root k) : w.Enters root s id k w where
  tokens := fun rest hrest => by rw [h, hrest]
  kind := fun _ => rfl
  before := fun l _ => by
    rw [h]
    rcases Nat.lt_or_ge (w.forest.tokensBefore root l).length
      (w.forest.tokensBefore root k).length with hlt | hge
    · exact .inl ⟨hlt, rfl⟩
    · obtain ⟨ts, hts⟩ := List.prefix_of_prefix_length_le
        (w.forest.tokensBefore_prefix root k) (w.forest.tokensBefore_prefix root l) hge
      exact .inr ⟨ts, hts.symm, hts.symm⟩

/-- **A change right before a container** enters an id if the tokens before the container are then
those with the id. -/
theorem Makes.enters (h : w.Makes d c v) (hw : w.Standing d (plug cs q))
    (hp : (plug cs q).tree.WellShaped)
    (hq : q.tree.type? = some .rule ∨ q.tree.type? = some .attr) (hc : c.source = plug cs q)
    (hin : w.IsInside d c) (hremoved : ∀ x ∈ c.removed, x.2.isTrivia = true)
    {gap : List (ElementId × Token)} (hbefore : cs.before = c.front ++ c.removed ++ gap)
    (hgap : ∀ x ∈ gap, x.2.isTrivia = true)
    (hentered : (c.front ++ c.inserted ++ gap).map Prod.snd =
      s.entered id (cs.before.map Prod.snd)) : w.Enters d.root s id q.id v := by
  have hspelled : v.forest.spelled d.root = c.target.leaves := h.standing.spelled_eq
  have hback : c.back = gap ++ (q.leaves ++ cs.after) := by
    have hleaves := Planted.leaves_plug cs q
    rw [← hc, c.leaves_source, hbefore, List.append_assoc _ gap, List.append_assoc _ (gap ++ _)]
      at hleaves
    simpa using List.append_cancel_left hleaves
  have hkbefore := hw.tokensBefore_eq hp hq
  refine ⟨fun rest hrest => ?_, h.kind_eq, fun l hl => ?_⟩
  · have hrest' : (q.leaves ++ cs.after).map Prod.snd = rest := by
      rw [hkbefore, Forest.tokens, hw.spelled_eq, Planted.leaves_plug, List.append_assoc,
        List.map_append] at hrest
      exact List.append_cancel_left hrest
    rw [hkbefore, ← hentered, ← hrest', Forest.tokens, hspelled, c.leaves_target, hback]
    simp
  · have hsolid := hw.startsSolid_container hp hl
    have hlbefore : w.forest.tokensBefore d.root l =
        (w.forest.leavesBefore l c.source.leaves).map Prod.snd := by
      rw [Forest.tokensBefore, hw.spelled_eq, hc]
    have hlafter : v.forest.tokensBefore d.root l =
        (v.forest.leavesBefore l c.target.leaves).map Prod.snd := by
      rw [Forest.tokensBefore, hspelled]
    rcases h.leavesBefore_cases (hc ▸ hw) (hc ▸ hsolid) hremoved hin with
      ⟨hfront, hsame⟩ | ⟨hno, hsource, htarget⟩
    · -- the container starts before the change
      refine .inl ⟨?_, by rw [hlafter, hsame, hlbefore]⟩
      rw [hlbefore, hkbefore, c.leaves_source, List.append_assoc,
        (Forest.leavesBefore_append_of_mem hfront _).1, hbefore, List.length_map, List.length_map]
      have hlt := Forest.length_leavesBefore_lt hfront
      simp only [List.length_append]
      omega
    · have hgapn := (hc ▸ hw).notMem_ancestors_of_isTrivia (hc ▸ hsolid)
        (by rw [c.leaves_source, hback]) hno hgap
      rw [hback, (Forest.leavesBefore_append_of_notMem hgapn _).1] at hsource htarget
      refine .inr ⟨(w.forest.leavesBefore l (q.leaves ++ cs.after)).map Prod.snd, ?_, ?_⟩
      · rw [hlbefore, hkbefore, hsource, hbefore]
        simp
      · rw [hlafter, hkbefore, htarget, ← hentered]
        simp

/-- An action keeps the root of the document and whether it may be changed. -/
theorem Takes.exists_document (h : w.Takes d s a cs q v) (hw : w.documents = #[d]) :
    ∃ d', v.documents = #[d'] ∧ d'.root = d.root ∧ d'.writable = d.writable := by
  rcases h.eq_or_makes with rfl | ⟨c, hc⟩
  · exact ⟨d, hw, rfl, rfl⟩
  · obtain ⟨g, -, -, rfl⟩ := hc.prepared
    exact ⟨d.recorded c.edit, rfl, rfl, rfl⟩

/-- **An action for a container enters its id** among the tokens before the container. -/
theorem Takes.enters (h : w.Takes d s a cs q v) (hw : w.Standing d (plug cs q))
    (hp : (plug cs q).tree.WellShaped) (hq : q.tree.kind = a.scope) (ha : a.scope ≠ .document) :
    w.Enters d.root s a.check q.id v := by
  have htype := type?_of_scope hq ha
  have hkbefore := hw.tokensBefore_eq hp htype
  cases h with
  | listed _ hx hi =>
      rw [id_of_scope ha] at hi
      obtain ⟨_, _, _, _, hentered⟩ := Leaves.entered_of_directive? hx a.check
      rw [if_pos hi] at hentered
      exact enters_self (by rw [hkbefore, hentered])
  | @merged x dir b bs t _ _ hx hi ht hplug hm =>
      rw [id_of_scope ha] at hi ht
      obtain ⟨pre, gap, hbefore, hgap, hentered⟩ := Leaves.entered_of_directive? hx a.check
      obtain rfl := hw.eq_before hbefore hplug
      have hxc := (Leaves.mem_of_mem_trailingComments (Leaves.of_directive?_eq_some hx).1).2
      obtain rfl := ht.eq
      rw [if_neg hi] at hentered
      have hsplit : cs.before = (Change.replacement b bs x (w.forest.size,
          ⟨.lineComment, (dir.withId a.check).render s.marker⟩)).front ++ [x] ++ gap := by
        simpa using hbefore
      refine hm.enters hw hp htype (by simp [hplug]) ((hplug ▸ hw).isInside_replacement _)
        (by simpa [Change.replacement] using Token.isTrivia_of_isComment hxc) hsplit hgap ?_
      rw [hentered, Change.front_replacement]
      simp [Change.replacement]
  | @inserted b bs t _ _ hx ht hcs hm =>
      subst hcs
      rw [id_of_scope ha] at ht
      have hentered := Leaves.entered_of_none hx a.check
      obtain rfl := ht.eq
      have hsplit : Place.before (b :: bs) = (Change.insertion b bs q
          [(w.forest.size, ⟨.lineComment, s.comment a.check⟩),
            (w.forest.size + 1, Document.lineBreak (b :: bs))]).front ++ [] ++ [] := by simp
      refine hm.enters hw hp htype (by simp) (hw.isInside_insertion hp htype _)
        (by simp [Change.insertion]) hsplit (by simp) ?_
      rw [hentered, Change.front_insertion]
      simp [Change.insertion, Settings.line, Document.lineBreak, Forest.charsOf_eq_spell]
  | opened hd => exact absurd hd ha

/-! ### Different containers -/

/-- A container is a rule or an attribute at a place. -/
theorem Standing.exists_place_of_container (h : w.Standing d p) (hk : w.IsContainer k) :
    ∃ cs q, p = plug cs q ∧ q.id = k ∧
      (q.tree.type? = some .rule ∨ q.tree.type? = some .attr) := by
  obtain ⟨cs, q, rfl, rfl⟩ := Planted.exists_place (h.mem_of_suppressible hk.suppressible)
  refine ⟨cs, q, rfl, rfl, ?_⟩
  have hs := hk.suppressible
  rw [IsContainer, h.comprises.stores_at.kind_eq] at hk
  rw [h.comprises.stores_at.kind_eq] at hs
  rcases Tree.type?_of_suppressible hs with ht | ht | ht
  · exact .inl ht
  · exact .inr ht
  · simp [Tree.kind_of_type? ht, ElementType.kind] at hk

/-- A rule or attribute of the tree is a container of the workspace that stores the tree. -/
theorem Standing.isContainer (h : w.Standing d (plug cs q))
    (hq : q.tree.type? = some .rule ∨ q.tree.type? = some .attr) : w.IsContainer q.id := by
  rw [IsContainer, h.comprises.stores_at.kind_eq]
  exact hq.imp Tree.kind_of_type? Tree.kind_of_type?

/-- A container in another one starts later. -/
theorem Standing.leavesBefore_ne (h : w.Standing d p) (hp : p.tree.WellShaped)
    (hk : w.IsContainer k) (hl : w.IsContainer l) (hne : k ≠ l) (hm : k ∈ w.forest.ancestors l) :
    w.forest.leavesBefore l p.leaves ≠ w.forest.leavesBefore k p.leaves := by
  obtain ⟨cs, q, rfl, rfl, hq⟩ := h.exists_place_of_container hl
  rw [h.comprises.toHolds.ancestors_eq, List.mem_cons] at hm
  obtain ⟨x, hx, hxk⟩ := h.exists_before hp hq (hm.resolve_left hne) (hk.ne_root h)
  obtain ⟨y, ys, hy, -⟩ := leaves_of_rule_or_attr hp hq
  rw [(h.comprises.toHolds.leavesBefore_eq hy).1]
  intro he
  rw [he] at hx
  have hnot := List.mem_takeWhile_imp hx
  simp [hxk] at hnot

/-- **Different containers start at different leaves.** -/
theorem Standing.leavesBefore_inj (h : w.Standing d p) (hp : p.tree.WellShaped)
    (hk : w.IsContainer k) (hl : w.IsContainer l)
    (he : w.forest.leavesBefore k p.leaves = w.forest.leavesBefore l p.leaves) : k = l := by
  by_contra hne
  have hholds := h.comprises.toHolds
  -- the first leaf of both is the same
  have hfrom : w.forest.leavesFrom k p.leaves = w.forest.leavesFrom l p.leaves := by
    have hsplit : ∀ a, w.forest.leavesBefore a p.leaves ++ w.forest.leavesFrom a p.leaves =
        p.leaves := fun a => List.takeWhile_append_dropWhile
    have hboth := (hsplit k).trans (hsplit l).symm
    rw [he] at hboth
    exact List.append_cancel_left hboth
  obtain ⟨ds, r, hplug, rfl, hr⟩ := h.exists_place_of_container hl
  obtain ⟨y, ys, hy, -⟩ := leaves_of_rule_or_attr (hplug ▸ hp) hr
  have hlfrom := ((hplug ▸ hholds).leavesBefore_eq hy).2
  have hly : r.id ∈ w.forest.ancestors y.1 :=
    (hplug ▸ hholds).mem_ancestors_of_leaves (by simp [hy])
  rw [← hplug, ← hfrom] at hlfrom
  obtain ⟨cs, q, rfl, rfl, hq⟩ := h.exists_place_of_container hk
  obtain ⟨x, xs, hx, -⟩ := leaves_of_rule_or_attr hp hq
  rw [(hholds.leavesBefore_eq hx).2] at hlfrom
  obtain ⟨rfl, -⟩ := List.cons.inj hlfrom
  have hxi : x.1 ∈ q.ids := Forest.fst_mem_ids_of_mem_leaves (by simp [hx])
  -- so one of them holds the other
  rcases hholds.mem_ancestors_cases hxi hly with hin | hout
  · have hm := (hholds.mem_ancestors_at_iff (Planted.ids_subset_plug cs q hin)).2 hin
    exact h.leavesBefore_ne hp hk hl hne hm he.symm
  · have hm : r.id ∈ w.forest.ancestors q.id := by
      rw [hholds.ancestors_eq]
      exact List.mem_cons_of_mem _ hout
    exact h.leavesBefore_ne hp hl hk (Ne.symm hne) hm he

/-- Two different containers start at different tokens: each has a solid leaf of its own at its
start. -/
theorem Standing.length_tokensBefore_ne (h : w.Standing d p) (hp : p.tree.WellShaped)
    (hk : w.IsContainer k) (hl : w.IsContainer l) (hne : k ≠ l) :
    (w.forest.tokensBefore d.root k).length ≠ (w.forest.tokensBefore d.root l).length := by
  intro he
  rw [Forest.tokensBefore, Forest.tokensBefore, h.spelled_eq, List.length_map, List.length_map]
    at he
  have hpre : w.forest.leavesBefore k p.leaves <+: w.forest.leavesBefore l p.leaves :=
    List.prefix_of_prefix_length_le (List.takeWhile_prefix _) (List.takeWhile_prefix _) he.le
  exact hne (h.leavesBefore_inj hp hk hl (hpre.eq_of_length he))

/-! ### Runs of two actions -/

/-- The only document may be changed, and its tree is one that reading makes of a text, with
comments written into it since. -/
structure Editable (w : Workspace) (original : List Token) (d : Document) (p : Planted) : Prop
    extends w.Standing d p where
  writable : d.writable = true
  faithful : p.Faithful original

/-- **An action for a container succeeds** and enters its id. -/
theorem Editable.exists_enters (h : w.Editable original d p) (hs : s.Legible) (hid : IsId a.check)
    (ha : a.scope ≠ .document) (hk : a.container? w.forest element? = some k) :
    ∃ v d' p', w.apply s a element? = .ok v ∧ w.Enters d.root s a.check k v ∧
      v.Editable original d' p' ∧ d'.root = d.root := by
  obtain ⟨cs, q, rfl, rfl, hq⟩ := h.exists_container hk
  obtain ⟨v, hv, ht⟩ := h.exists_takes h.writable hk hq hs.marker hs.verb.2.isOneLine
    ((id_of_scope ha s).symm ▸ hid.2.isOneLine)
  obtain ⟨d', p', hstanding, hfaithful⟩ := ht.faithful h.toStanding h.faithful hq
  obtain ⟨d'', hd'', hroot, hwritable⟩ := ht.exists_document h.documents
  obtain rfl : d' = d'' := by simpa using hstanding.documents.symm.trans hd''
  exact ⟨v, d', p', hv, ht.enters h.toStanding h.faithful.shaped hq ha,
    ⟨hstanding, hwritable.trans h.writable, hfaithful⟩, hroot⟩

/-- **Where an id was entered, the nearest directive before the container lists it.** -/
theorem Enters.exists_directive? (h : w.Enters d.root s id q.id v) (hv : v.Standing d' (plug cs q))
    (hp : (plug cs q).tree.WellShaped) (hroot : d'.root = d.root)
    (hq : q.tree.type? = some .rule ∨ q.tree.type? = some .attr) (hs : s.Legible)
    (hid : IsId id) :
    ∃ x dir, Leaves.directive? s.verb (Leaves.trailingComments cs.before) = some (x, dir) ∧
      id ∈ dir.ids := by
  have hk : w.IsContainer q.id := by
    rw [IsContainer, ← h.kind]
    exact hv.isContainer hq
  have hbefore : cs.before.map Prod.snd = s.entered id (w.forest.tokensBefore d.root q.id) := by
    rw [← hv.tokensBefore_eq hp hq, hroot]
    rcases h.before q.id hk with ⟨hlt, -⟩ | ⟨ts, hts, hsame⟩
    · omega
    · rw [hsame, List.self_eq_append_right.1 hts, List.append_nil]
  exact Leaves.exists_directive?_of_entered hs hid hbefore

/-- A container starts with a solid token that is not blank. -/
theorem Editable.exists_first {text : String} (h : w.Editable (tokenize text) d p)
    (hk : w.IsContainer k) :
    ∃ t rest, w.forest.tokens d.root = w.forest.tokensBefore d.root k ++ t :: rest ∧
      t.isTrivia = false ∧ ∃ c ∈ t.text.toList, Text.isBlank c = false := by
  obtain ⟨cs, q, rfl, rfl, hq⟩ := h.exists_place_of_container hk
  obtain ⟨c, cs, rfl⟩ := List.exists_cons_of_ne_nil (h.place_ne_nil hq)
  obtain ⟨x, xs, hx, hi⟩ := Planted.exists_name h.faithful.shaped h.faithful.read hq
  have hsolid := Tree.isTrivia_of_isIdentifier hi
  refine ⟨x.2, (xs ++ Place.after (c :: cs)).map Prod.snd, ?_, hsolid, ?_⟩
  · rw [h.tokensBefore_eq h.faithful.shaped hq, Forest.tokens, h.spelled_eq, Planted.leaves_plug,
      hx]
    simp
  · -- it is one of the tokens of the text
    have hmem : x.2 ∈ ((plug (c :: cs) q).leaves.map Prod.snd).filter fun t => !t.isTrivia := by
      rw [List.mem_filter, Planted.leaves_plug, hx]
      simp [hsolid]
    rw [h.faithful.written.solid, List.mem_filter] at hmem
    have hspelled : Token.Spelled (tokenize text) := Token.spelled_tokens _
    obtain ⟨_, hends⟩ := hspelled.endsBefore_of_mem hmem.1
    obtain ⟨e, es, htext, hblank⟩ := hends.of_not_whitespace (Token.isWhitespace_of_solid hsolid)
    exact ⟨e, by simp [htext], hblank⟩

/-- **Two actions on containers of which one starts first** leave the same tokens in either
order. -/
theorem Enters.tokens_comm {w₁ w₂ u : Workspace} {x y : String} {t : Token} {rest : List Token}
    (hk : w.IsContainer k) (hl : w.IsContainer l) (h₁ : w.Enters root s x k w₁)
    (hv : w₁.Enters root s y l v) (h₂ : w.Enters root s y l w₂) (hu : w₂.Enters root s x k u)
    (hlt : (w.forest.tokensBefore root k).length < (w.forest.tokensBefore root l).length)
    (hfirst : w.forest.tokens root = w.forest.tokensBefore root k ++ t :: rest)
    (ht : t.isTrivia = false) (hb : ∃ c ∈ t.text.toList, Text.isBlank c = false) :
    v.forest.tokens root = u.forest.tokens root := by
  -- the tokens before the second container are those before the first and more
  obtain ⟨ys, hys, hys₁⟩ := (h₁.before l hl).resolve_left fun h => absurd h.1 (by omega)
  have hk₂ : w₂.forest.tokensBefore root k = w.forest.tokensBefore root k := by
    rcases h₂.before k hk with ⟨-, hsame⟩ | ⟨zs, hzs, -⟩
    · exact hsame
    · have := congrArg List.length hzs
      simp only [List.length_append] at this
      omega
  obtain ⟨zs, hzs⟩ := w.forest.tokensBefore_prefix root l
  generalize hA : w.forest.tokensBefore root k = A at *
  rw [hys] at hlt hzs
  have hsplit : ys ++ zs = t :: rest :=
    List.append_cancel_left (by rw [← List.append_assoc, hzs, hfirst])
  cases ys with
  | nil => simp at hlt
  | cons t' ys =>
      obtain ⟨rfl, rfl⟩ := List.cons.inj hsplit
      obtain ⟨us, hus⟩ := Settings.exists_entered_cons ht s y ys
      have htokens₁ := h₁.tokens (t' :: ys ++ zs) (by rw [hA, hfirst]; rfl)
      have htokens₂ := h₂.tokens zs (by rw [hys, ← hzs])
      have htokensv := hv.tokens zs (by rw [hys₁, htokens₁, hA]; simp)
      rw [hys, Settings.entered_append ht hb, hus] at htokens₂
      have htokensu := hu.tokens (t' :: us ++ zs) (by rw [hk₂, htokens₂]; simp)
      rw [htokensv, htokensu, hys₁, hk₂, Settings.entered_append ht hb, hus]
      simp

/-- The documents of two workspaces of one document have the same text and the same leaves, by their
types and texts. -/
def Agrees (v u : Workspace) : Prop :=
  ∃ d d', v.documents = #[d] ∧ u.documents = #[d'] ∧ d.text v.forest = d'.text u.forest ∧
    (d.leaves v.forest).map v.forest.token? = (d'.leaves u.forest).map u.forest.token?

/-- Whether two workspaces agree does not depend on which is named first. -/
theorem Agrees.symm {u : Workspace} (h : v.Agrees u) : u.Agrees v := by
  obtain ⟨d, d', hd, hd', htext, hleaves⟩ := h
  exact ⟨d', d, hd', hd, htext.symm, hleaves.symm⟩

/-- Documents with the same tokens agree. -/
theorem Standing.agrees {u : Workspace} (hv : v.Standing d p) (hu : u.Standing d' p')
    (hroot : d'.root = d.root) (h : v.forest.tokens d.root = u.forest.tokens d.root) :
    v.Agrees u := by
  have hleaves : p.tree.leaves = p'.tree.leaves := by
    rw [Forest.tokens, Forest.tokens, hv.spelled_eq, ← hroot, hu.spelled_eq] at h
    rw [Planted.leaves_tree, Planted.leaves_tree, h]
  refine ⟨d, d', hv.documents, hu.documents, ?_, ?_⟩
  · rw [hv.text_eq, hu.text_eq, Tree.text, Tree.text, hleaves]
  · rw [hv.map_token?_leaves, hu.map_token?_leaves, hleaves]

/-- An element of the kind that an action is for is its own container. -/
theorem container?_self (hk : w.forest.kind k = a.scope) :
    a.container? w.forest (some k) = some k := by
  simp [Action.container?, Forest.enclosing?, Forest.ancestors, Forest.ancestorsUpTo, hk]

/-- An element of the kind that an action asks for is a container, unless the action is for the
file. -/
theorem IsContainer.of_scope (hk : w.forest.kind k = a.scope) (ha : a.scope ≠ .document) :
    w.IsContainer k := by
  have hs := a.suppressible
  rw [IsContainer, hk]
  cases hscope : a.scope <;> simp_all [NodeKind.suppressible]

/-- Two actions on different containers, the first of which starts first. -/
theorem Editable.apply_comm_of_lt {text : String} (h : w.Editable (tokenize text) d p)
    (hs : s.Legible) (ha : a.scope ≠ .document) (hb : b.scope ≠ .document) (hx : IsId a.check)
    (hy : IsId b.check) (hk : w.forest.kind k = a.scope) (hl : w.forest.kind l = b.scope)
    (hlt : (w.forest.tokensBefore d.root k).length < (w.forest.tokensBefore d.root l).length) :
    ∃ w₁ w₂ v u, w.apply s a (some k) = .ok w₁ ∧ w₁.apply s b (some l) = .ok v ∧
      w.apply s b (some l) = .ok w₂ ∧ w₂.apply s a (some k) = .ok u ∧ v.Agrees u := by
  obtain ⟨w₁, d₁, p₁, happly₁, h₁, he₁, hr₁⟩ := h.exists_enters hs hx ha (container?_self hk)
  obtain ⟨w₂, d₂, p₂, happly₂, h₂, he₂, hr₂⟩ := h.exists_enters hs hy hb (container?_self hl)
  have hl₁ : w₁.forest.kind l = b.scope := (h₁.kind l).trans hl
  have hk₂ : w₂.forest.kind k = a.scope := (h₂.kind k).trans hk
  obtain ⟨v, dv, pv, happlyv, hv, hev, hrv⟩ := he₁.exists_enters hs hy hb (container?_self hl₁)
  obtain ⟨u, du, pu, happlyu, hu, heu, hru⟩ := he₂.exists_enters hs hx ha (container?_self hk₂)
  rw [hr₁] at hv hrv
  rw [hr₂] at hu hru
  have hkc := IsContainer.of_scope hk ha
  have hlc := IsContainer.of_scope hl hb
  obtain ⟨t, rest, hfirst, ht, hblank⟩ := h.exists_first hkc
  have htokens := Enters.tokens_comm hkc hlc h₁ hv h₂ hu hlt hfirst ht hblank
  refine ⟨w₁, w₂, v, u, happly₁, happlyv, happly₂, happlyu, ?_⟩
  exact hev.toStanding.agrees heu.toStanding (hru.trans hrv.symm) (hrv.symm ▸ htokens)

end Workspace

namespace Session

variable {text name : String} {w : Workspace} {log : Log} {s : Settings} {a b : Action}
  {element? : Option ElementId} {k l : ElementId}

/-- The document of a session stays one that may be changed. -/
theorem editable (h : Session Workspace.Applies (Workspace.empty.open text name true) w log) :
    ∃ d p, w.Editable (tokenize text) d p := by
  obtain ⟨d, p, hw, hp⟩ := h.faithful
  exact ⟨d, p, hw, h.writable_eq records_applies hw, hp⟩

/-- **Actions for rules and attributes are idempotent**, in every state that actions and undo lead
to. The action succeeds, and taken again for any element with the same container it leaves the
workspace as it is, with its tree and its history. -/
theorem apply_idempotent
    (h : Session Workspace.Applies (Workspace.empty.open text name true) w log)
    (hverb : IsId s.verb) (hmarker : s.marker = "//") (hid : IsId a.check)
    (ha : a.scope ≠ .document) (hk : a.container? w.forest element? = some k) :
    ∃ v, w.apply s a element? = .ok v ∧
      ∀ other?, a.container? v.forest other? = some k → v.apply s a other? = .ok v := by
  have hs : s.Legible := ⟨hverb, hmarker⟩
  obtain ⟨d, p, hw⟩ := h.editable
  obtain ⟨v, d', p', hv, henters, hv', hroot⟩ := hw.exists_enters hs hid ha hk
  refine ⟨v, hv, fun other? hk' => ?_⟩
  obtain ⟨cs, q, rfl, rfl, hq⟩ := hv'.exists_container hk'
  obtain ⟨x, dir, hx, hi⟩ := henters.exists_directive? hv'.toStanding hv'.faithful.shaped hroot
    (Workspace.type?_of_scope hq ha) hs hid
  exact hv'.apply_eq_self hv'.writable hk' ha hx ((Workspace.id_of_scope ha s).symm ▸ hi)

/-- Before a rule, an id was added to a directive with a block comment behind it; then another id
is, and once more for the name of the rule. -/
theorem apply_idempotent_after_merge :
    let start := Workspace.empty.open "// noinspection A\n/* b */\nfoo ::= bar\n" "g" true
    ∃ w log v, Session Workspace.Applies start w log ∧ w ≠ start ∧
      w.apply .standard ⟨"Y", .rule, rfl⟩ (some 5) = .ok v ∧ v ≠ w ∧
        v.apply .standard ⟨"Y", .rule, rfl⟩ (some 6) = .ok v := by
  intro start
  let merged := result (start.apply .standard ⟨"X", .rule, rfl⟩ (some 5)) (by decide +kernel)
  let again := result (merged.apply .standard ⟨"Y", .rule, rfl⟩ (some 5)) (by decide +kernel)
  have hne : merged ≠ start := fun he =>
    absurd (congrArg (fun w => w.forest.size) he) (by decide +kernel)
  have hne' : again ≠ merged := fun he =>
    absurd (congrArg (fun w => w.forest.size) he) (by decide +kernel)
  have h : Session Workspace.Applies start merged [(start, merged)] :=
    of_result _ (by decide +kernel)
  have hk : Action.container? ⟨"Y", .rule, rfl⟩ merged.forest (some 5) = some 5 := by
    decide +kernel
  obtain ⟨v, hv, hagain⟩ := h.apply_idempotent (s := .standard) ⟨by decide, by decide⟩ rfl
    ⟨by decide, by decide⟩ (by decide) hk
  obtain rfl : v = again := Except.ok.inj (hv.symm.trans (eq_ok_result _ _))
  exact ⟨merged, _, again, h, hne, hv, hne', hagain (some 6) (by decide +kernel)⟩

/-- **Actions for different containers commute**, in every state that actions and undo lead to:
taken in either order, they succeed and leave the same text and the same leaves. -/
theorem apply_comm
    (h : Session Workspace.Applies (Workspace.empty.open text name true) w log)
    (hverb : IsId s.verb) (hmarker : s.marker = "//") (hx : IsId a.check) (hy : IsId b.check)
    (ha : a.scope ≠ .document) (hb : b.scope ≠ .document) (hk : w.forest.kind k = a.scope)
    (hl : w.forest.kind l = b.scope) (hne : k ≠ l) :
    ∃ w₁ w₂ v u, w.apply s a (some k) = .ok w₁ ∧ w₁.apply s b (some l) = .ok v ∧
      w.apply s b (some l) = .ok w₂ ∧ w₂.apply s a (some k) = .ok u ∧ v.Agrees u := by
  have hs : s.Legible := ⟨hverb, hmarker⟩
  obtain ⟨d, p, hw⟩ := h.editable
  have hlength := hw.length_tokensBefore_ne hw.faithful.shaped (.of_scope hk ha) (.of_scope hl hb)
    hne
  rcases Nat.lt_or_gt_of_ne hlength with hlt | hlt
  · exact hw.apply_comm_of_lt hs ha hb hx hy hk hl hlt
  · obtain ⟨w₂, w₁, u, v, h₂, hu, h₁, hv, hagrees⟩ := hw.apply_comm_of_lt hs hb ha hy hx hl hk hlt
    exact ⟨w₁, w₂, v, u, h₁, hv, h₂, hu, hagrees.symm⟩

/-- A rule that an id was written before, and an attribute on its line. -/
theorem apply_comm_of_nested :
    let start := Workspace.empty.open "a ::= b \x7b pin=1 \x7d\n" "g" true
    ∃ w log, Session Workspace.Applies start w log ∧ w ≠ start ∧
      ∃ w₁ w₂ v u, w.apply .standard ⟨"Y", .rule, rfl⟩ (some 1) = .ok w₁ ∧
        w₁.apply .standard ⟨"Z", .attr, rfl⟩ (some 12) = .ok v ∧
        w.apply .standard ⟨"Z", .attr, rfl⟩ (some 12) = .ok w₂ ∧
        w₂.apply .standard ⟨"Y", .rule, rfl⟩ (some 1) = .ok u ∧ v.Agrees u := by
  intro start
  let applied := result (start.apply .standard ⟨"X", .rule, rfl⟩ (some 1)) (by decide +kernel)
  have hne : applied ≠ start := fun he =>
    absurd (congrArg (fun w => w.forest.size) he) (by decide +kernel)
  have h : Session Workspace.Applies start applied [(start, applied)] :=
    of_result _ (by decide +kernel)
  exact ⟨applied, _, h, hne, h.apply_comm ⟨by decide, by decide⟩ rfl ⟨by decide, by decide⟩
    ⟨by decide, by decide⟩ (by decide) (by decide) (by decide +kernel) (by decide +kernel)
    (by decide)⟩

end Session

end BnfSuppression
