import BnfSuppression.Proofs.Directive
import BnfSuppression.Proofs.Leads

/-!
# The Effect of Suppressing a Check

An action writes one id into the comments of a document, and this is all that changes for queries.
Where the id is written decides for which elements: among the comments before a container, for the
container and what is in it; at the start, for every element, and only if the id is one for files.

## Main results

* `Workspace.Makes.isSuppressed_iff`: what one more listed id changes, and for which elements.
* `Workspace.Standing.exists_isReached_iff`: comments before a container are read for it and for
  what is in it, and for nothing else.
* `Session.apply_actsExactly`: **the exact effect of an action**, in every state that actions and
  undo lead to.
-/

namespace BnfSuppression

open Planted (plug Place Change leafs)

/-! ### Changes that list one more id -/

namespace Planted.Change

variable {c : Change} {s : Settings} {id check : String}

/-- The change is one of white space and comments, and lists the id besides what was listed. -/
structure Adds (c : Change) (s : Settings) (id : String) : Prop where
  removed : ∀ x ∈ c.removed, x.2.isTrivia = true
  inserted : ∀ x ∈ c.inserted, x.2.isTrivia = true
  lists : ∀ check, Leaves.lists s check (Leaves.comments c.inserted) = true ↔
    Leaves.lists s check (Leaves.comments c.removed) = true ∨ check = id

/-- A stretch with a solid leaf is not one of white space and comments. -/
theorem exists_solid_of_not {xs : List (ElementId × Token)}
    (h : ¬ ∀ x ∈ xs, x.2.isTrivia = true) : ∃ x ∈ xs, x.2.isTrivia = false := by
  simpa using h

/-- **What an edit changes in the first stretch** of a document: the id is found there if the edit
is part of that stretch. -/
theorem Adds.lists_opening_iff (h : c.Adds s id) (check : String) :
    Leaves.lists s check (Leaves.openingComments c.target.leaves) = true ↔
      Leaves.lists s check (Leaves.openingComments c.source.leaves) = true ∨
        check = id ∧ ∀ x ∈ c.front, x.2.isTrivia = true := by
  rw [c.leaves_source, c.leaves_target, List.append_assoc, List.append_assoc]
  by_cases hf : ∀ x ∈ c.front, x.2.isTrivia = true
  · rw [Leaves.lists_opening_append s check hf, Leaves.lists_opening_append s check h.inserted,
      Leaves.lists_opening_append s check hf, Leaves.lists_opening_append s check h.removed]
    simp only [Bool.or_eq_true, h.lists]
    tauto
  · have hs := exists_solid_of_not hf
    rw [Leaves.opening_append_of_solid hs, Leaves.opening_append_of_solid hs]
    tauto

/-- **What an edit changes in the stretch before an element**, which ends with the given leaves. -/
theorem Adds.lists_trailing_iff (h : c.Adds s id) (check : String)
    (ys : List (ElementId × Token)) :
    Leaves.lists s check (Leaves.trailingComments (c.front ++ c.inserted ++ ys)) = true ↔
      Leaves.lists s check (Leaves.trailingComments (c.front ++ c.removed ++ ys)) = true ∨
        check = id ∧ ∀ y ∈ ys, y.2.isTrivia = true := by
  by_cases hy : ∀ y ∈ ys, y.2.isTrivia = true
  · rw [Leaves.lists_trailing_append s check hy, Leaves.lists_trailing_append s check h.inserted,
      Leaves.lists_trailing_append s check hy, Leaves.lists_trailing_append s check h.removed]
    simp only [Bool.or_eq_true, h.lists]
    tauto
  · have hs := exists_solid_of_not hy
    rw [Leaves.trailing_append_of_solid hs, Leaves.trailing_append_of_solid hs]
    tauto

end Planted.Change

namespace Workspace

variable {w v : Workspace} {d : Document} {c : Change} {s : Settings} {p q : Planted} {cs : Place}
  {a n : ElementId} {id check : String}

/-! ### Elements that an edit is read for -/

/-- The element starts behind the edit, with only white space and comments between. -/
structure IsReached (w : Workspace) (c : Change) (a : ElementId) : Prop where
  behind : ∀ x ∈ c.front ++ c.removed, a ∉ w.forest.ancestors x.1
  gap : ∀ x ∈ w.forest.leavesBefore a c.back, x.2.isTrivia = true

/-- The composites around an edit, other than the root, start before its end. -/
def IsInside (w : Workspace) (d : Document) (c : Change) : Prop :=
  ∀ b ∈ c.id :: c.place.map Crumb.id, b ≠ d.root →
    ∃ x ∈ c.front ++ c.removed, b ∈ w.forest.ancestors x.1

/-- **What an edit changes before an element** that starts with a solid leaf. -/
theorem Makes.lists_before_iff (h : w.Makes d c v) (hw : w.Standing d c.source)
    (hc : c.Adds s id) (hin : w.IsInside d c) (ha : StartsSolid c.source a) (check : String) :
    Leaves.lists s check
        (Leaves.trailingComments (v.forest.leavesBefore a c.target.leaves)) = true ↔
      Leaves.lists s check
          (Leaves.trailingComments (w.forest.leavesBefore a c.source.leaves)) = true ∨
        check = id ∧ w.IsReached c a := by
  rcases h.leavesBefore_cases hw ha hc.removed hin with ⟨⟨x, hx, hxa⟩, hsame⟩ | ⟨hno, hs, ht⟩
  · have hnot : ¬ w.IsReached c a := fun hr => hr.behind x (List.mem_append_left _ hx) hxa
    rw [hsame]
    tauto
  · have hreach : w.IsReached c a ↔
        ∀ x ∈ w.forest.leavesBefore a c.back, x.2.isTrivia = true :=
      ⟨IsReached.gap, fun hg => ⟨hno, hg⟩⟩
    rw [hs, ht, hreach]
    exact hc.lists_trailing_iff check _

/-- What is around an element of a suppressible kind, other than the root, starts with a solid
leaf. -/
theorem Standing.startsSolid (h : w.Standing d p) (hp : p.tree.WellShaped) (hn : n ∈ p.ids)
    (hk : (w.forest.kind n).suppressible = true) (ha : a ∈ w.forest.ancestors n)
    (hr : a ≠ d.root) : StartsSolid p a := by
  obtain ⟨cs, q, rfl, rfl⟩ := Planted.exists_place hn
  rw [h.comprises.stores_at.kind_eq] at hk
  obtain ⟨es, ds, rfl, rfl⟩ := h.comprises.toHolds.mem_ancestors_place_iff.1 ha
  have hds : ds ≠ [] := by
    rintro rfl
    rw [List.append_nil] at h
    exact hr h.id_eq
  obtain ⟨x, xs, hx, hs⟩ := Planted.leaves_plug_of_suppressible hp hds hk
  exact ⟨ds, plug es q, x, xs, Planted.plug_append es ds q, rfl, hds, hx, hs⟩

/-- An edit makes leaves of leaves, and keeps the kinds of composites. -/
theorem Makes.kind_eq (h : w.Makes d c v) (n : ElementId) : v.forest.kind n = w.forest.kind n := by
  obtain ⟨g, hg, -, rfl⟩ := h.prepared
  have htype : (c.edit.run g).type? n = w.forest.type? n := by
    have hrun : (c.edit.run g).type? n = g.type? n := by
      simp only [Forest.type?, Edit.get?_run]
      cases g.get? n with
      | none => rfl
      | some e =>
          obtain ⟨shape, parent?⟩ := e
          by_cases hparent : n = c.edit.parent
          · cases shape <;> simp [Forest.spliced, hparent, Shape.mapChildren]
          · simp [Forest.spliced, hparent]
    rw [hrun]
    rcases Nat.lt_or_ge n w.forest.size with hn | hn
    · simp [Forest.type?, hg.old n hn]
    · rcases Nat.lt_or_ge n g.size with hng | hng
      · obtain ⟨t, ht⟩ := hg.new n hn hng
        simp [Forest.type?, ht, Forest.get?_eq_none hn]
      · simp [Forest.type?, Forest.get?_eq_none hn, Forest.get?_eq_none hng]
  simp [Forest.kind, htype]

/-- Suppressible elements are elements of the tree, and no leaves that an edit removes. -/
theorem Standing.mem_of_suppressible (h : w.Standing d p)
    (hk : (w.forest.kind n).suppressible = true) : n ∈ p.ids := by
  by_contra hn
  rw [h.kind_of_notMem hn] at hk
  simp [NodeKind.suppressible] at hk

/-- A change removes leaves only, so none of what it removes is suppressible. -/
theorem Standing.notMem_removed (h : w.Standing d c.source)
    (hk : (w.forest.kind n).suppressible = true) : n ∉ c.removed.map Prod.fst := by
  intro hr
  obtain ⟨x, hx, rfl⟩ := List.mem_map.1 hr
  obtain ⟨cs, hcs⟩ := exists_place_of_removed hx
  rw [hcs] at h
  have hkind : w.forest.kind x.1 = (Planted.leaf x.1 x.2).tree.kind :=
    h.comprises.stores_at.kind_eq
  rw [hkind] at hk
  simp [Planted.tree, Tree.kind, NodeKind.suppressible] at hk

/-- **What one more listed id changes**: a check of this name is suppressed for the elements that
the edit is read for, and one whose file id it is for all elements if the edit is part of the first
stretch. -/
theorem Makes.isSuppressed_iff (h : w.Makes d c v) (hw : w.Standing d c.source)
    (hp : c.source.tree.WellShaped) (hp' : c.target.tree.WellShaped) (hc : c.Adds s id)
    (hin : w.IsInside d c) (hk : (w.forest.kind n).suppressible = true) (check : String) :
    ∃ b b', w.isSuppressed s n check = .ok b ∧ v.isSuppressed s n check = .ok b' ∧
      (b' = true ↔ b = true ∨
        s.fileId check = id ∧ (∀ x ∈ c.front, x.2.isTrivia = true) ∨
        check = id ∧ ∃ a ∈ w.forest.ancestors n, a ≠ d.root ∧ w.IsReached c a) := by
  have hn := hw.mem_of_suppressible hk
  have hr := hw.notMem_removed hk
  have hkv : (v.forest.kind n).suppressible = true := (h.kind_eq n).symm ▸ hk
  have hv := h.standing
  obtain ⟨b, hb, hiff⟩ := hw.isSuppressed_iff_leads hp hn hk s check
  obtain ⟨b', hb', hiff'⟩ :=
    hv.isSuppressed_iff_leads hp' (hv.mem_of_suppressible hkv) hkv s check
  refine ⟨b, b', hb, hb', ?_⟩
  rw [hiff, hiff', h.ancestors_eq hw hn hr, hc.lists_opening_iff, Document.root_recorded]
  have hled : (∃ a ∈ w.forest.ancestors n, a ≠ d.root ∧ Leaves.lists s check
      (Leaves.trailingComments (v.forest.leavesBefore a c.target.leaves)) = true) ↔
      (∃ a ∈ w.forest.ancestors n, a ≠ d.root ∧ Leaves.lists s check
        (Leaves.trailingComments (w.forest.leavesBefore a c.source.leaves)) = true) ∨
      check = id ∧ ∃ a ∈ w.forest.ancestors n, a ≠ d.root ∧ w.IsReached c a := by
    constructor
    · rintro ⟨a, ha, hroot, hl⟩
      have hs := hw.startsSolid hp hn hk ha hroot
      rcases (h.lists_before_iff hw hc hin hs check).1 hl with hl | ⟨rfl, hreach⟩
      · exact .inl ⟨a, ha, hroot, hl⟩
      · exact .inr ⟨rfl, a, ha, hroot, hreach⟩
    · rintro (⟨a, ha, hroot, hl⟩ | ⟨hid, a, ha, hroot, hreach⟩)
      · have hs := hw.startsSolid hp hn hk ha hroot
        exact ⟨a, ha, hroot, (h.lists_before_iff hw hc hin hs check).2 (.inl hl)⟩
      · have hs := hw.startsSolid hp hn hk ha hroot
        exact ⟨a, ha, hroot, (h.lists_before_iff hw hc hin hs check).2 (.inr ⟨hid, hreach⟩)⟩
  rw [hled]
  exact or_or_or_comm

/-! ### Changes before a container -/

/-- The composites around a rule or an attribute, other than the root, start before it. -/
theorem Standing.exists_before (h : w.Standing d (plug cs q)) (hp : (plug cs q).tree.WellShaped)
    (hq : q.tree.type? = some .rule ∨ q.tree.type? = some .attr) {b : ElementId}
    (hb : b ∈ cs.map Crumb.id) (hr : b ≠ d.root) :
    ∃ x ∈ cs.before, b ∈ w.forest.ancestors x.1 := by
  cases cs with
  | nil => simp at hb
  | cons c cs =>
      rcases hq with hq | hq
      · -- a rule stands right below the root
        obtain ⟨-, rfl⟩ := Planted.parent_of_rule hp hq
        obtain rfl : b = c.id := by simpa using hb
        exact absurd h.id_eq hr
      · -- the block of an attribute starts with its brace
        obtain ⟨-, id, t, rest, hl⟩ := Planted.parent_of_attr hp hq
        have hbrace : Planted.leaf id t ∈ c.left ++ q :: c.right := by simp [hl]
        refine ⟨(id, t), ?_, ?_⟩
        · simp [Place.before, hl, Planted.leavesOf, Planted.leaves]
        · have hplug : w.forest.Holds (plug cs (.node c.id c.type (c.left ++ q :: c.right))) :=
            h.comprises.toHolds
          have hup := hplug.ancestors_child hbrace
          simp only [Planted.id] at hup
          rw [hup]
          exact List.mem_cons_of_mem _ hb

/-- A rule or an attribute is not a whole tree. -/
theorem Standing.place_ne_nil (h : w.Standing d (plug cs q))
    (hq : q.tree.type? = some .rule ∨ q.tree.type? = some .attr) : cs ≠ [] := by
  rintro rfl
  obtain ⟨ps, rfl⟩ : ∃ ps, q = .node d.root .file ps := h.root
  simp [Planted.tree, Tree.type?] at hq

/-- A rule or an attribute starts with a solid leaf. -/
theorem leaves_of_rule_or_attr (hp : (plug cs q).tree.WellShaped)
    (hq : q.tree.type? = some .rule ∨ q.tree.type? = some .attr) :
    ∃ x xs, q.leaves = x :: xs ∧ x.2.isTrivia = false := by
  have hat := Planted.wellShaped_at hp
  rcases hq with hq | hq
  · exact Planted.leaves_of_isSolid hat hq rfl
  · exact Planted.leaves_of_isSolid hat hq rfl

/-- What is suppressed, in terms of leaves and ways up. -/
theorem Standing.isSuppressed_eq_true_iff (h : w.Standing d p) (hp : p.tree.WellShaped)
    (hn : (w.forest.kind n).suppressible = true) (s : Settings) (check : String) :
    w.isSuppressed s n check = .ok true ↔
      Leaves.lists s (s.fileId check) (Leaves.openingComments p.leaves) = true ∨
      ∃ a ∈ w.forest.ancestors n, a ≠ d.root ∧ Leaves.lists s check
        (Leaves.trailingComments (w.forest.leavesBefore a p.leaves)) = true := by
  obtain ⟨b, hb, hiff⟩ := h.isSuppressed_iff_leads hp (h.mem_of_suppressible hn) hn s check
  rw [hb, ← hiff, Except.ok.injEq]

/-- An id that a directive before the container lists is suppressed in the container. -/
theorem Standing.isSuppressed_of_directive? (h : w.Standing d (plug cs q))
    (hp : (plug cs q).tree.WellShaped)
    (hq : q.tree.type? = some .rule ∨ q.tree.type? = some .attr) {x : ElementId × Token}
    {dir : Directive}
    (hx : Leaves.directive? s.verb (Leaves.trailingComments cs.before) = some (x, dir))
    (hi : check ∈ dir.ids) (hn : (w.forest.kind n).suppressible = true)
    (hqn : q.id ∈ w.forest.ancestors n) : w.isSuppressed s n check = .ok true := by
  obtain ⟨y, ys, hy, -⟩ := leaves_of_rule_or_attr hp hq
  obtain ⟨hmem, hdir⟩ := Leaves.of_directive?_eq_some hx
  refine (h.isSuppressed_eq_true_iff hp hn s check).2
    (.inr ⟨q.id, hqn, h.id_ne_root (h.place_ne_nil hq), ?_⟩)
  rw [(h.comprises.toHolds.leavesBefore_eq hy).1]
  exact List.any_eq_true.2 ⟨x, hmem, (Settings.mentions_iff hdir).2 (.inl hi)⟩

/-- **Comments before a container are read for it and for what is in it**, and for nothing else. -/
theorem Standing.exists_isReached_iff (h : w.Standing d (plug cs q))
    (hp : (plug cs q).tree.WellShaped)
    (hq : q.tree.type? = some .rule ∨ q.tree.type? = some .attr) (hc : c.source = plug cs q)
    {mid : List (ElementId × Token)} (hmid : cs.before = c.front ++ c.removed ++ mid)
    (ht : ∀ x ∈ mid, x.2.isTrivia = true) (hk : (w.forest.kind n).suppressible = true) :
    (∃ a ∈ w.forest.ancestors n, a ≠ d.root ∧ w.IsReached c a) ↔
      q.id ∈ w.forest.ancestors n := by
  have hn := h.mem_of_suppressible hk
  have hholds := h.comprises.toHolds
  obtain ⟨x, xs, hx, hsolid⟩ := leaves_of_rule_or_attr hp hq
  -- the container's leaves follow the edit
  have hsource : c.source.leaves = c.front ++ c.removed ++ (mid ++ x :: (xs ++ cs.after)) := by
    rw [hc, Planted.leaves_plug, hmid, hx]
    simp
  have hback : c.back = mid ++ x :: (xs ++ cs.after) := by
    rw [c.leaves_source] at hsource
    exact List.append_cancel_left hsource
  constructor
  · rintro ⟨a, ha, hr, hreach⟩
    have hstarts := h.startsSolid hp hn hk ha hr
    have hgap := hreach.gap
    rw [hback] at hgap
    -- the element starts with a solid leaf, so behind the gap
    have hmidn := h.notMem_ancestors_of_isTrivia hstarts (hc ▸ hsource) hreach.behind ht
    obtain ⟨ds, r, y, ys, hplug, rfl, hds, hy, hys⟩ := hstarts
    -- and not behind the first leaf of the container
    have hxa : r.id ∈ w.forest.ancestors x.1 := by
      by_contra hxa
      have hx1 : ∀ z ∈ [x], r.id ∉ w.forest.ancestors z.1 := by simpa using hxa
      have hstep := (Forest.leavesBefore_append_of_notMem hx1 (xs ++ cs.after)).1
      rw [(Forest.leavesBefore_append_of_notMem hmidn _).1, ← List.singleton_append, hstep] at hgap
      rw [hgap x (by simp)] at hsolid
      simp at hsolid
    have hxi : x.1 ∈ q.ids := Forest.fst_mem_ids_of_mem_leaves (by simp [hx])
    rcases hholds.mem_ancestors_cases hxi hxa with hin | hout
    · have hri : r.id ∈ (plug cs q).ids := Planted.ids_subset_plug cs q hin
      exact hholds.ancestors_trans hn ha ((hholds.mem_ancestors_at_iff hri).2 hin)
    · -- a composite around the container starts before it
      obtain ⟨z, hz, hza⟩ := h.exists_before hp hq hout hr
      rw [hmid, List.mem_append] at hz
      exact absurd hza (hz.elim (hreach.behind z) (hmidn z))
  · intro ha
    have hno : ∀ z ∈ c.front ++ c.removed, q.id ∉ w.forest.ancestors z.1 := by
      intro z hz
      refine hholds.notMem_ancestors_of_before ?_
      rw [hmid]
      exact List.mem_append_left _ hz
    refine ⟨q.id, ha, h.id_ne_root (h.place_ne_nil hq), hno, ?_⟩
    have hbefore := (hholds.leavesBefore_eq hx).1
    rw [← hc, c.leaves_source, (Forest.leavesBefore_append_of_notMem hno _).1, hmid] at hbefore
    rw [List.append_cancel_left hbefore]
    exact ht

/-! ### What actions write -/

end Workspace

namespace Settings

open Directive (IsWord IsId)

/-- The id names a check: it is a word, not the id for all checks, and not one for files. -/
structure IsCheck (s : Settings) (check : String) : Prop where
  word : IsWord check
  ne_all : check ≠ s.allChecksId
  ne_fileId : ∀ base, check ≠ s.fileId base

/-- The ids for files of different checks are different. -/
theorem fileId_inj {s : Settings} {check check' : String} :
    s.fileId check = s.fileId check' ↔ check = check' := by
  refine ⟨fun h => ?_, fun h => by rw [h]⟩
  have hl := congrArg String.toList h
  simp only [fileId, String.toList_append] at hl
  exact String.toList_inj.1 (List.append_cancel_right hl)

end Settings

namespace Action

open Directive (IsWord IsId)

variable {a : Action} {s : Settings}

/-- An action writes an id, unless it is for no check at all. -/
theorem isId_id (a : Action) (hsuffix : a.scope = .document → IsId s.fileSuffix)
    (ha : IsWord a.check) (hne : a.check ≠ "" ∨ a.scope = .document) : IsId (a.id s) := by
  by_cases hd : a.scope = .document
  · have hid : a.id s = a.check ++ s.fileSuffix := by simp [id, hd, Settings.fileId]
    refine ⟨fun he => (hsuffix hd).toList_ne_nil ?_, hid ▸ ha.append (hsuffix hd).2⟩
    have := congrArg String.toList (hid.symm.trans he)
    simp only [String.toList_append, String.toList_empty, List.append_eq_nil_iff] at this
    exact this.2
  · have hid : a.id s = a.check := by simp [id, hd]
    rw [hid]
    exact ⟨hne.resolve_right hd, ha⟩

end Action

namespace Workspace

open Directive (IsId IsOneLine)

variable {w v : Workspace} {d : Document} {c : Change} {s : Settings} {p q : Planted} {cs : Place}
  {a : Action} {n : ElementId} {element? : Option ElementId} {id check : String}

/-- An action writes what can be written: what stays on one line. -/
theorem Standing.exists_takes (h : w.Standing d (plug cs q)) (hd : d.writable = true)
    (hk : a.container? w.forest element? = some q.id) (hq : q.tree.kind = a.scope)
    (hmarker : s.marker = "//") (hverb : IsOneLine s.verb) (hid : IsOneLine (a.id s)) :
    ∃ v, w.apply s a element? = .ok v ∧ w.Takes d s a cs q v := by
  have hcomment : IsLineComment (s.comment (a.id s)) ⟨.lineComment, s.comment (a.id s)⟩ :=
    ⟨s.tokenize_comment hmarker hverb hid, rfl⟩
  by_cases ha : a.scope = .document
  · exact h.takes_opened hd hk ha hcomment
  · cases hx : Leaves.directive? s.verb (Leaves.trailingComments cs.before) with
    | none => exact h.takes_inserted hd hk ha hq hx hcomment
    | some r =>
        obtain ⟨x, dir⟩ := r
        have hdir := (Leaves.of_directive?_eq_some hx).2
        by_cases hi : a.id s ∈ dir.ids
        · exact h.takes_listed hd hk ha hx hi
        · exact h.takes_merged hd hk ha hx hi ⟨s.tokenize_withId hmarker hverb hid hdir, rfl⟩

/-- An inserted directive lists its id. -/
theorem adds_of_inserted (hs : s.Plain) (hid : IsId id) (hne : id ≠ s.allChecksId) {t b : Token}
    (ht : IsLineComment (s.comment id) t) (hb : b.type = .whitespace) {i j : ElementId}
    (hr : c.removed = []) (hi : c.inserted = [(i, t), (j, b)]) : c.Adds s id := by
  obtain rfl := ht.eq
  have hcomments : Leaves.comments c.inserted = [(i, ⟨.lineComment, s.comment id⟩)] := by
    simp [hi, Leaves.comments, Token.isComment, TokenType.isComment, hb]
  refine ⟨by simp [hr], ?_, fun check => ?_⟩
  · simp [hi, Token.isTrivia, TokenType.isTrivia, hb]
  · rw [hcomments, hr]
    simp [Leaves.lists, Leaves.comments, s.mentions_comment hs hid hne]

/-- A directive with one more id in place of another one lists that id. -/
theorem adds_of_replaced (hs : s.Plain) (hid : IsId id) (hne : id ≠ s.allChecksId)
    {x : ElementId × Token} {dir : Directive} (hx : x.2.isComment = true)
    (hdir : Directive.parse? x.2.text s.verb = some dir) {t : Token}
    (ht : IsLineComment ((dir.withId id).render s.marker) t) (b : Crumb) (bs : Place)
    (i : ElementId) : (Change.replacement b bs x (i, t)).Adds s id := by
  obtain rfl := ht.eq
  refine ⟨?_, ?_, fun check => ?_⟩
  · simp [Change.replacement, Token.isTrivia_of_isComment hx]
  · simp [Change.replacement, Token.isTrivia, TokenType.isTrivia]
  · have hremoved : Leaves.comments [x] = [x] := by simp [Leaves.comments, hx]
    have hinserted :
        Leaves.comments [(i, (⟨.lineComment, (dir.withId id).render s.marker⟩ : Token))] =
          [(i, ⟨.lineComment, (dir.withId id).render s.marker⟩)] := rfl
    rw [Change.replacement, hremoved, hinserted]
    simp [Leaves.lists, s.mentions_withId hs hid hne hdir]

/-- A comment of the last stretch is followed by white space and comments only. -/
theorem exists_split_of_mem_trailingComments {xs : List (ElementId × Token)}
    {x : ElementId × Token} (h : x ∈ Leaves.trailingComments xs) :
    ∃ pre mid, xs = pre ++ x :: mid ∧ ∀ y ∈ mid, y.2.isTrivia = true := by
  obtain ⟨ys, zs, hsplit⟩ := List.append_of_mem (List.mem_filter.1 h).1
  have hall : ∀ y ∈ ys ++ x :: zs, y.2.isTrivia = true := by
    rw [← hsplit]
    intro y hy
    exact List.mem_takeWhile_imp (p := fun y : ElementId × Token => y.2.isTrivia) hy
  have hprefix :=
    List.takeWhile_prefix (fun y : ElementId × Token => y.2.isTrivia) (l := xs.reverse)
  rw [hsplit] at hprefix
  obtain ⟨rest, hrest⟩ := hprefix
  refine ⟨rest.reverse ++ zs.reverse, ys.reverse, ?_, fun y hy => hall y (by simp_all)⟩
  have := congrArg List.reverse hrest
  simpa using this.symm

/-- A leaf has one place: where it splits the leaves before an element. -/
theorem Standing.eq_before {b : Crumb} {bs : Place} {x : ElementId × Token}
    {pre mid : List (ElementId × Token)} (h : w.Standing d (plug cs q))
    (hbefore : cs.before = pre ++ x :: mid)
    (hplug : plug cs q = plug (b :: bs) (.leaf x.1 x.2)) : pre = Place.before (b :: bs) := by
  have hleaves : (plug cs q).leaves = pre ++ x :: (mid ++ (q.leaves ++ cs.after)) := by
    rw [Planted.leaves_plug, hbefore]
    simp
  have hnodup : (plug cs q).leaves.Nodup :=
    List.Nodup.of_map _ ((Planted.leaves_sublist _).nodup h.comprises.nodup)
  have hat : (plug cs q).leaves = Place.before (b :: bs) ++ x :: Place.after (b :: bs) := by
    rw [hplug, Planted.leaves_plug]
    simp [Planted.leaves]
  exact eq_of_append_cons_eq (hleaves ▸ hnodup) (hleaves.symm.trans hat)

/-- The replaced comment stands right before the container, but for white space and comments. -/
theorem Standing.exists_gap {b : Crumb} {bs : Place} {x : ElementId × Token}
    (h : w.Standing d (plug cs q)) (hx : x ∈ Leaves.trailingComments cs.before)
    (hplug : plug cs q = plug (b :: bs) (.leaf x.1 x.2)) :
    ∃ mid, cs.before = Place.before (b :: bs) ++ [x] ++ mid ∧ ∀ y ∈ mid, y.2.isTrivia = true := by
  obtain ⟨pre, mid, hbefore, hmid⟩ := exists_split_of_mem_trailingComments hx
  refine ⟨mid, ?_, hmid⟩
  rw [hbefore, h.eq_before hbefore hplug]
  simp

/-- The composites around a comment hold it. -/
theorem Standing.isInside_replacement {b : Crumb} {bs : Place} {x : ElementId × Token}
    (h : w.Standing d (plug (b :: bs) (.leaf x.1 x.2))) (y : ElementId × Token) :
    w.IsInside d (.replacement b bs x y) := by
  intro e he _
  have hup := h.comprises.toHolds.ancestors_eq
  refine ⟨x, by simp [Change.replacement], ?_⟩
  simp only [Planted.id] at hup
  rw [hup]
  exact List.mem_cons_of_mem _ he

/-- The composites around a rule or an attribute start before it. -/
theorem Standing.isInside_insertion {b : Crumb} {bs : Place} (h : w.Standing d (plug (b :: bs) q))
    (hp : (plug (b :: bs) q).tree.WellShaped)
    (hq : q.tree.type? = some .rule ∨ q.tree.type? = some .attr) (xs : List (ElementId × Token)) :
    w.IsInside d (.insertion b bs q xs) := by
  intro e he hr
  obtain ⟨x, hx, hxe⟩ := h.exists_before hp hq he hr
  exact ⟨x, List.mem_append_left _ hx, hxe⟩

/-- The effect of an edit right before a container that lists an id for no file. -/
theorem Makes.isSuppressed_iff_before (h : w.Makes d c v) (hw : w.Standing d (plug cs q))
    (hp : (plug cs q).tree.WellShaped)
    (hq : q.tree.type? = some .rule ∨ q.tree.type? = some .attr) (hc : c.source = plug cs q)
    (hp' : c.target.tree.WellShaped) (ha : c.Adds s id) (hin : w.IsInside d c)
    (hgap : ∃ mid, cs.before = c.front ++ c.removed ++ mid ∧ ∀ y ∈ mid, y.2.isTrivia = true)
    (hid : ∀ base, id ≠ s.fileId base) (hk : (w.forest.kind n).suppressible = true)
    (check : String) :
    ∃ b b', w.isSuppressed s n check = .ok b ∧ v.isSuppressed s n check = .ok b' ∧
      (b' = true ↔ b = true ∨ check = id ∧ q.id ∈ w.forest.ancestors n) := by
  obtain ⟨mid, hbefore, hmid⟩ := hgap
  obtain ⟨b, b', hb, hb', hiff⟩ := h.isSuppressed_iff (hc ▸ hw) (hc ▸ hp) hp' ha hin hk check
  refine ⟨b, b', hb, hb', ?_⟩
  rw [hiff, hw.exists_isReached_iff hp hq hc hbefore hmid hk]
  simp [Ne.symm (hid check)]

/-- **The effect of an action**, whatever its outcome. -/
theorem Takes.isSuppressed_iff (h : w.Takes d s a cs q v) (hw : w.Standing d (plug cs q))
    (hp : (plug cs q).tree.WellShaped) (hq : q.tree.kind = a.scope) (hs : s.Plain)
    (ha : s.IsCheck a.check) (hid : IsId (a.id s)) (hfile : s.fileId a.check ≠ s.allChecksId)
    (hcheck : s.IsCheck check) (hk : (w.forest.kind n).suppressible = true) :
    ∃ b b', w.isSuppressed s n check = .ok b ∧ v.isSuppressed s n check = .ok b' ∧
      (b' = true ↔ b = true ∨
        check = a.check ∧ (a.scope = .document ∨ q.id ∈ w.forest.ancestors n)) := by
  have hat : a.scope ≠ .document → a.id s = a.check := fun hd => by simp [Action.id, hd]
  cases h with
  | @listed x dir hd hx hi =>
      obtain ⟨b, hb, -⟩ := hw.isSuppressed_iff_leads hp (hw.mem_of_suppressible hk) hk s check
      refine ⟨b, b, hb, hb, .inl, ?_⟩
      rintro (hb' | ⟨rfl, hdoc | hqn⟩)
      · exact hb'
      · exact absurd hdoc hd
      · -- the container is led by the directive that lists the id
        have hlisted := hw.isSuppressed_of_directive? hp (type?_of_scope hq hd) hx (hat hd ▸ hi) hk
          hqn
        exact Except.ok.inj (hb.symm.trans hlisted)
  | @merged x dir b bs t _ hd hx hi ht hplug hm =>
      have htype := type?_of_scope hq hd
      obtain ⟨hxm, hdir⟩ := Leaves.of_directive?_eq_some hx
      have hxc := (Leaves.mem_of_mem_trailingComments hxm).2
      have hp' := Planted.wellShaped_replacement (y := (w.forest.size, t)) (hplug ▸ hp) hxc
        (by simp [Token.isComment, ht.2, TokenType.isComment])
      have hin := (hplug ▸ hw).isInside_replacement (w.forest.size, t)
      rw [hat hd] at hid hi ht
      have hadds := adds_of_replaced hs hid ha.ne_all hxc hdir ht b bs w.forest.size
      obtain ⟨y, y', hb, hb', hiff⟩ := hm.isSuppressed_iff_before hw hp htype (by simp [hplug]) hp'
        hadds hin (hw.exists_gap hxm hplug) ha.ne_fileId hk check
      exact ⟨y, y', hb, hb', by rw [hiff]; simp [hd]⟩
  | @inserted b bs t _ hd hx ht hcs hm =>
      subst hcs
      have htype := type?_of_scope hq hd
      have hin := hw.isInside_insertion hp htype
        [(w.forest.size, t), (w.forest.size + 1, Document.lineBreak (b :: bs))]
      rw [hat hd] at hid ht
      have hadds : (Change.insertion b bs q [(w.forest.size, t),
          (w.forest.size + 1, Document.lineBreak (b :: bs))]).Adds s a.check :=
        adds_of_inserted hs hid ha.ne_all ht rfl rfl rfl
      have hgap : ∃ mid, Place.before (b :: bs) = Place.before (b :: bs) ++ [] ++ mid ∧
          ∀ y ∈ mid, y.2.isTrivia = true := ⟨[], by simp, by simp⟩
      obtain ⟨y, y', hb, hb', hiff⟩ := hm.isSuppressed_iff_before hw hp htype (by simp)
        (Planted.wellShaped_insertion hp htype _) hadds hin hgap ha.ne_fileId hk check
      exact ⟨y, y', hb, hb', by rw [hiff]; simp [hd]⟩
  | @opened ps t _ hd ht hplug hm =>
      have hfid : a.id s = s.fileId a.check := by simp [Action.id, hd]
      have hin : w.IsInside d (.opening d.root .file ps
          [(w.forest.size, t), (w.forest.size + 1, ⟨.whitespace, "\n"⟩)]) := by
        intro e he hr
        exact absurd (by simpa [Change.opening] using he) hr
      rw [hfid] at hid ht
      have hadds : (Change.opening d.root .file ps [(w.forest.size, t),
          (w.forest.size + 1, ⟨.whitespace, "\n"⟩)]).Adds s (s.fileId a.check) :=
        adds_of_inserted hs hid hfile ht rfl rfl rfl
      rw [hplug] at hw hp
      obtain ⟨y, y', hb, hb', hiff⟩ := hm.isSuppressed_iff (by simpa using hw) (by simpa using hp)
        (Planted.wellShaped_opening hp _) hadds hin hk check
      refine ⟨y, y', hb, hb', ?_⟩
      rw [hiff, Settings.fileId_inj]
      simp [hd, hcheck.ne_fileId a.check, Change.opening, Change.front, Place.before,
        Planted.leavesOf]

/-- **The exact effect of an action with a container**: it succeeds, and afterwards a check is
suppressed for an element if it was before, or if it is the action's check and the element is the
container or stands in it; an action for the file has its effect on every element. -/
def ActsExactly (w : Workspace) (s : Settings) (a : Action) (element? : Option ElementId)
    (container : ElementId) (check : String) : Prop :=
  ∃ v, w.apply s a element? = .ok v ∧ ∀ n, (v.forest.kind n).suppressible = true →
    ∃ b b', w.isSuppressed s n check = .ok b ∧ v.isSuppressed s n check = .ok b' ∧
      (b' = true ↔ b = true ∨
        check = a.check ∧ (a.scope = .document ∨ n ∈ w.forest.below container))

/-- An action keeps the kinds of elements. -/
theorem Takes.kind_eq (h : w.Takes d s a cs q v) (n : ElementId) :
    v.forest.kind n = w.forest.kind n := by
  rcases h.eq_or_makes with rfl | ⟨c, hc⟩
  · rfl
  · exact hc.kind_eq n

end Workspace

namespace Session

open Settings (IsCheck)

variable {text name : String} {w : Workspace} {log : Log} {s : Settings} {a : Action}
  {element? : Option ElementId} {container : ElementId} {check : String}

/-- **Actions act exactly**, in every state that actions and undo lead to. An action for no check,
with the empty id, is only covered for the whole file. -/
theorem apply_actsExactly
    (h : Session Workspace.Applies (Workspace.empty.open text name true) w log) (hs : s.Plain)
    (hk : a.container? w.forest element? = some container) (ha : s.IsCheck a.check)
    (hcheck : s.IsCheck check) (hfile : s.fileId a.check ≠ s.allChecksId)
    (hne : a.check ≠ "" ∨ a.scope = .document) :
    w.ActsExactly s a element? container check := by
  obtain ⟨d, p, hw, hp⟩ := h.wellShaped
  have hwritable := h.writable_eq records_applies hw
  obtain ⟨cs, q, rfl, rfl, hq⟩ := hw.exists_container hk
  have hid := a.isId_id (fun _ => hs.fileSuffix) ha.word hne
  obtain ⟨v, hv, ht⟩ := hw.exists_takes hwritable hk hq hs.marker hs.verb.2.isOneLine
    hid.2.isOneLine
  refine ⟨v, hv, fun n hn => ?_⟩
  rw [ht.kind_eq] at hn
  obtain ⟨b, b', hb, hb', hiff⟩ := ht.isSuppressed_iff hw hp hq hs ha hid hfile hcheck hn
  refine ⟨b, b', hb, hb', ?_⟩
  have hin : q.id ∈ w.forest.ancestors n ↔ n ∈ w.forest.below q.id := by
    rw [hw.comprises.toHolds.mem_ancestors_iff (hw.mem_of_suppressible hn)]
    exact and_iff_right (Planted.id_mem_plug cs q)
  rw [hiff, hin]

end Session

namespace Settings

/-- Words that are too short to end in the suffix name checks. -/
theorem isCheck_standard {check : String} (h : check.length < 3) (hw : Directive.IsWord check) :
    standard.IsCheck check where
  word := hw
  ne_all := by
    rintro rfl
    exact absurd h (by decide)
  ne_fileId := by
    rintro base rfl
    rw [fileId, String.length_append] at h
    have : standard.fileSuffix.length = 7 := by decide
    omega

end Settings

namespace Session

/-- The attribute of a rule that a directive was inserted before. -/
theorem apply_actsExactly_attr : ∃ w log,
    Session Workspace.Applies (Workspace.empty.open "a ::= b { pin=1 }\n" "g" true) w log ∧
      w ≠ Workspace.empty.open "a ::= b { pin=1 }\n" "g" true ∧
      w.ActsExactly .standard ⟨"Y", .attr, rfl⟩ (some 14) 12 "X" := by
  let start := Workspace.empty.open "a ::= b { pin=1 }\n" "g" true
  let applied := result (start.apply .standard ⟨"X", .rule, rfl⟩ (some 12)) (by decide +kernel)
  have hne : applied ≠ start := fun he =>
    absurd (congrArg (fun w => w.forest.size) he) (by decide +kernel)
  have h : Session Workspace.Applies start applied [(start, applied)] :=
    of_result _ (by decide +kernel)
  exact ⟨applied, _, h, hne, h.apply_actsExactly Settings.plain_standard (by decide +kernel)
    (Settings.isCheck_standard (by decide) (by decide))
    (Settings.isCheck_standard (by decide) (by decide)) (by decide) (.inl (by decide))⟩

/-- An action for no check adds an empty id to the directive before a rule, which is then not read
as a directive any more: the check that it listed is no longer suppressed. -/
theorem not_actsExactly_of_empty :
    let start := Workspace.empty.open "// noinspection A\nfoo ::= bar\n" "g" true
    Settings.standard.Plain ∧ Settings.standard.IsCheck "" ∧ Settings.standard.IsCheck "A" ∧
      Settings.standard.fileId "" ≠ Settings.standard.allChecksId ∧
      Action.container? ⟨"", .rule, rfl⟩ start.forest (some 3) = some 3 ∧
      ¬ start.ActsExactly .standard ⟨"", .rule, rfl⟩ (some 3) 3 "A" := by
  intro start
  refine ⟨Settings.plain_standard, Settings.isCheck_standard (by decide) (by decide),
    Settings.isCheck_standard (by decide) (by decide), by decide, by decide +kernel, ?_⟩
  rintro ⟨v, hv, h⟩
  let after := result (start.apply .standard ⟨"", .rule, rfl⟩ (some 3)) (by decide +kernel)
  obtain rfl : v = after := Except.ok.inj (hv.symm.trans (eq_ok_result _ _))
  obtain ⟨b, b', hb, hb', hiff⟩ := h 3 (by decide +kernel)
  have hbefore : (start.isSuppressed .standard 3 "A").toOption = some true := by decide +kernel
  have hafter : (after.isSuppressed .standard 3 "A").toOption = some false := by decide +kernel
  rw [hb] at hbefore
  rw [hb'] at hafter
  obtain rfl : b = true := Option.some.inj hbefore
  obtain rfl : b' = false := Option.some.inj hafter
  simp at hiff

end Session

end BnfSuppression
