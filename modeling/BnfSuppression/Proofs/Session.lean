import BnfSuppression.Proofs.Applying

/-!
# Sessions

A session edits one document over and over and takes edits back in between. Its log lists the edits
that were not undone, the latest first, each with the workspaces right before and right after it.
What ties the log to the recorded history is `Workspace.Backed`: each entry was one recorded change,
and what undoing all later edits leaves is the workspace after it, with more leaves that stand
nowhere.

The run relation has a parameter for the edits that may be made. `Workspace.Edits` admits all edits
of a document, `Workspace.Applies` only those of suppression actions.

## Main results

* `Session.backed`: **the history of a session is backed by its log**.
* `Session.kept`: what the edits and detached leaves keep, holds throughout a session.
* `Session.undo_restores`: **undo is an exact inverse over whole sessions**.
-/

namespace BnfSuppression

open Planted (plug Place Change)

namespace Workspace

/-! ### Edits -/

/-- A successful edit of the document of a workspace: a detached comment is inserted before an
element of the document or at its start, one of its comments is replaced, or an action changes
it. -/
inductive Edits (w : Workspace) : Workspace → Prop
  | insertBefore {comment anchor : ElementId} {v : Workspace} :
    w.forest.Detached comment → w.ownerOf? anchor = some 0 →
    (w.edit 0 fun d f => d.insertBefore f comment anchor) = .ok v → Edits w v
  | insertAtStart {comment : ElementId} {v : Workspace} :
    w.forest.Detached comment →
    (w.edit 0 fun d f => d.insertAtStart f comment) = .ok v → Edits w v
  | replaceComment {comment : ElementId} {text : String} {v : Workspace} :
    (w.edit 0 fun d f => d.replaceComment f comment text) = .ok v → Edits w v
  | apply {s : Settings} {a : Action} {element? : Option ElementId} {v : Workspace} :
    w.apply s a element? = .ok v → v ≠ w → Edits w v

/-- An action changes the document of a workspace. -/
inductive Applies (w : Workspace) : Workspace → Prop
  | apply {s : Settings} {a : Action} {element? : Option ElementId} {v : Workspace} :
    w.apply s a element? = .ok v → v ≠ w → Applies w v

/-- An action that changes the document is an edit of it. -/
theorem Applies.edits {w v : Workspace} (h : w.Applies v) : w.Edits v := by
  cases h with
  | apply hv hne => exact .apply hv hne

/-- An edit of the only document. -/
theorem of_edit_eq_ok {w v : Workspace} {d : Document} (h : w.documents = #[d])
    {change : Document → Forest → Except Fault (Forest × Document)}
    (hv : w.edit 0 change = .ok v) : ∃ r, change d w.forest = .ok r ∧ v = ⟨r.1, #[r.2]⟩ := by
  rw [edit_eq h] at hv
  obtain ⟨r, hr⟩ := Standing.of_map_eq_ok hv
  rw [hr] at hv
  exact ⟨r, hr, (Except.ok.inj hv).symm⟩

/-- **Every edit makes one recorded change.** -/
theorem Edits.makes {w v : Workspace} {d : Document} {p : Planted} (h : w.Edits v)
    (hw : w.Standing d p) : ∃ c, w.Makes d c v := by
  cases h with
  | @insertBefore comment anchor _ hc ha hv =>
      obtain ⟨t, ht⟩ := hc.get?_eq
      obtain ⟨r, hr, rfl⟩ := of_edit_eq_ok hw.documents hv
      rw [hw.ownerOf?_eq] at ha
      have hm : anchor ∈ p.ids := by
        by_contra hn
        simp [hn] at ha
      obtain ⟨cs, q, rfl, rfl⟩ := Planted.exists_place hm
      cases cs with
      | nil =>
          -- nothing is inserted before the root
          have hp := hw.comprises.toHolds.parent?_eq
          simp [Document.insertBefore, hp, Place.parent?] at hr
      | cons b bs =>
          have hd := Document.writable_of_insertBefore hr
          obtain ⟨r', hr', hmakes⟩ := hw.makes_insertBefore hd (.refl _) (comment, t) ht
          rw [hr] at hr'
          exact ⟨_, Except.ok.inj hr' ▸ hmakes⟩
  | @insertAtStart comment _ hc hv =>
      obtain ⟨t, ht⟩ := hc.get?_eq
      obtain ⟨r, hr, rfl⟩ := of_edit_eq_ok hw.documents hv
      obtain ⟨ps, rfl⟩ := hw.root
      have hd := Document.writable_of_insertAtStart hr
      obtain ⟨r', hr', hmakes⟩ := hw.makes_insertAtStart hd (.refl _) (comment, t) ht
      rw [hr] at hr'
      exact ⟨_, Except.ok.inj hr' ▸ hmakes⟩
  | @replaceComment comment text _ hv =>
      obtain ⟨r, hr, rfl⟩ := of_edit_eq_ok hw.documents hv
      obtain ⟨t, ht, hl⟩ := Document.replaceComment_eq_ok hr
      obtain ⟨b, bs, x, rfl, rfl, hx⟩ := hw.exists_comment_of_replaceComment hr
      have hd := Document.writable_of_replaceComment hr
      obtain ⟨r', hr', hmakes⟩ := hw.makes_replaceComment hd hx ht hl
      rw [hr] at hr'
      exact ⟨_, Except.ok.inj hr' ▸ hmakes⟩
  | apply hv hne =>
      rcases hw.takes_of_apply hv with ⟨-, rfl⟩ | ⟨cs, q, rfl, -, -, ht⟩
      · exact absurd rfl hne
      · exact ht.eq_or_makes.resolve_left hne

end Workspace

/-! ### Runs -/

/-- The edits of a session that were not undone, the latest first, each with the workspaces before
and after it. -/
abbrev Session.Log := List (Workspace × Workspace)

/-- A session leads from a start to a workspace, with a log. Comments may be created at any time,
and undo be asked for at any time. -/
inductive Session (Step : Workspace → Workspace → Prop) (start : Workspace) :
    Workspace → Session.Log → Prop
  | start : Session Step start start []
  | created {w : Workspace} {log : Session.Log} {text : String} {r : Forest × ElementId} :
    Session Step start w log → w.forest.addComment text = .ok r →
    Session Step start ⟨r.1, w.documents⟩ log
  | edited {w v : Workspace} {log : Session.Log} :
    Session Step start w log → Step w v → Session Step start v ((w, v) :: log)
  | undone {w v : Workspace} {log : Session.Log} :
    Session Step start w log → w.undo 0 = some v → Session Step start v log.tail

namespace Workspace

/-- The history of a workspace, as a log of the edits not undone: what undoing all edits after one
leaves is the workspace right after it, with more leaves that stand nowhere. -/
inductive Backed (Step : Workspace → Workspace → Prop) (start : Workspace) :
    Workspace → Session.Log → Prop
  | start {w : Workspace} : start.Extends w → Backed Step start w []
  | edit {u v w : Workspace} {log : Session.Log} {d : Document} {c : Change} :
    Backed Step start u log → Step u v → u.Makes d c v → v.Extends w →
    Backed Step start w ((u, v) :: log)

variable {Step : Workspace → Workspace → Prop} {start w v : Workspace} {log : Session.Log}

/-- A history is not touched when leaves are created that stand nowhere. -/
theorem Backed.extends (h : Backed Step start w log) (hv : w.Extends v) :
    Backed Step start v log := by
  cases h with
  | start hs => exact .start (hs.trans hv)
  | edit hu hstep hm he => exact .edit hu hstep hm (he.trans hv)

/-- Undo takes back the head of the log, and fails only without one. -/
theorem Backed.undo (h : Backed Step start w log) {d : Document} (hd : start.documents = #[d])
    (hh : d.history = []) :
    (log = [] ∧ w.undo 0 = none) ∨
      ∃ u v rest w', log = (u, v) :: rest ∧ w.undo 0 = some w' ∧ u.Extends w' ∧
        Backed Step start u rest ∧ Step u v := by
  cases h with
  | start hs => exact .inl ⟨rfl, undo_eq_none (hs.documents.trans hd) hh⟩
  | edit hu hstep hm he =>
      obtain ⟨w', hw', hx⟩ := hm.undo he
      exact .inr ⟨_, _, _, w', rfl, hw', hx, hu, hstep⟩

/-- What edits and detached leaves keep, holds in a backed workspace. -/
theorem Backed.kept {P : Workspace → Prop} (h : Backed Step start w log) (hstart : P start)
    (hstep : ∀ u v, P u → Step u v → P v) (hextends : ∀ u v, P u → u.Extends v → P v) : P w := by
  induction h with
  | start hs => exact hextends _ _ hstart hs
  | edit _ hs _ he ih => exact hextends _ _ (hstep _ _ ih hs) he

/-- The document is the one that was opened, but for its tree and its history. -/
def Opened (text name : String) (writable : Bool) (w : Workspace) : Prop :=
  ∃ history p, w.Standing ⟨name, writable, text, 0, history⟩ p

variable {text name : String} {writable : Bool}

/-- A document that was just opened is as it was opened. -/
theorem opened_open (text name : String) (writable : Bool) :
    Opened text name writable (empty.open text name writable) :=
  ⟨[], _, standing_open text name writable⟩

/-- Creating leaves that stand nowhere does not touch how the document was opened. -/
theorem Opened.extends (h : Opened text name writable w) (hv : w.Extends v) :
    Opened text name writable v := by
  obtain ⟨history, p, hw⟩ := h
  exact ⟨history, p, hw.extends hv⟩

/-- An edit changes the tree and the history of a document, and nothing else that it was opened
with. -/
theorem Opened.makes (h : Opened text name writable w) {d : Document} {c : Change}
    (hv : w.Makes d c v) : Opened text name writable v := by
  obtain ⟨history, p, hw⟩ := h
  obtain rfl : d = ⟨name, writable, text, 0, history⟩ := by
    simpa using hv.documents.symm.trans hw.documents
  exact ⟨_, _, hv.standing⟩

end Workspace

namespace Session

open Workspace (Backed Standing Extends Opened Edits)

variable {Step : Workspace → Workspace → Prop} {text name : String} {writable : Bool}
  {w : Workspace} {log : Log}

/-- Every edit of the session makes one recorded change. -/
def Records (Step : Workspace → Workspace → Prop) : Prop :=
  ∀ u v d p, u.Standing d p → Step u v → ∃ c, u.Makes d c v

/-- Edits of all kinds are recorded. -/
theorem records_edits : Records Workspace.Edits := fun _ _ _ _ hu hv => hv.makes hu

/-- Actions that change the document are recorded. -/
theorem records_applies : Records Workspace.Applies := fun _ _ _ _ hu hv => hv.edits.makes hu

/-- The document of a backed workspace is still the one that was opened. -/
theorem opened_of_backed (hs : Records Step)
    (h : Backed Step (Workspace.empty.open text name writable) w log) :
    Opened text name writable w := by
  refine h.kept (Workspace.opened_open text name writable) ?_ fun u v hu hv => hu.extends hv
  intro u v hu huv
  obtain ⟨history, p, hp⟩ := id hu
  obtain ⟨c, hc⟩ := hs u v _ p hp huv
  exact hu.makes hc

/-- **The history of a session is backed by its log.** -/
theorem backed (hs : Records Step)
    (h : Session Step (Workspace.empty.open text name writable) w log) :
    Backed Step (Workspace.empty.open text name writable) w log := by
  induction h with
  | start => exact .start (.refl _)
  | created _ hr ih =>
      obtain ⟨t, -, -, rfl⟩ := Forest.addComment_eq_ok hr
      exact ih.extends ⟨rfl, Forest.grows_addLeaf _ t⟩
  | edited _ hv ih =>
      obtain ⟨history, p, hp⟩ := opened_of_backed hs ih
      obtain ⟨c, hc⟩ := hs _ _ _ p hp hv
      exact .edit ih hv hc (.refl _)
  | undone _ hv ih =>
      rcases ih.undo rfl rfl with ⟨-, hn⟩ | ⟨u, v, rest, w', rfl, hw', hx, hu, -⟩
      · rw [hn] at hv
        simp at hv
      · rw [hv] at hw'
        exact Option.some.inj hw' ▸ hu.extends hx

/-- Wherever a session leads, the document is the one that was opened, but for tree and history. -/
theorem opened (hs : Records Step)
    (h : Session Step (Workspace.empty.open text name writable) w log) :
    Opened text name writable w :=
  opened_of_backed hs (h.backed hs)

/-- Whether the document may be changed stays as it was. -/
theorem writable_eq (hs : Records Step)
    (h : Session Step (Workspace.empty.open text name writable) w log) {d : Document} {p : Planted}
    (hw : w.Standing d p) : d.writable = writable := by
  obtain ⟨history, _, hopened⟩ := h.opened hs
  obtain rfl : d = ⟨name, writable, text, 0, history⟩ := by
    simpa using hw.documents.symm.trans hopened.documents
  rfl

/-- **What the edits and detached leaves keep, holds throughout a session.** -/
theorem kept {P : Workspace → Prop} (hs : Records Step)
    (h : Session Step (Workspace.empty.open text name writable) w log)
    (hstart : P (Workspace.empty.open text name writable))
    (hstep : ∀ u v, Opened text name writable u → P u → Step u v → P v)
    (hextends : ∀ u v, Opened text name writable u → P u → u.Extends v → P v) : P w := by
  have hall : Opened text name writable w ∧ P w := by
    refine (h.backed hs).kept (P := fun w => Opened text name writable w ∧ P w)
      ⟨Workspace.opened_open text name writable, hstart⟩ ?_ ?_
    · rintro u v ⟨hu, hp⟩ huv
      obtain ⟨history, p, hst⟩ := id hu
      obtain ⟨c, hc⟩ := hs u v _ p hst huv
      exact ⟨hu.makes hc, hstep u v hu hp huv⟩
    · rintro u v ⟨hu, hp⟩ huv
      exact ⟨hu.extends huv, hextends u v hu hp huv⟩
  exact hall.2

/-! ### Undo -/

/-- A workspace has the tree that it had before an edit. -/
structure Restores (before after w : Workspace) (d : Document) : Prop where
  documents : before.documents = #[d] ∧ w.documents = #[d]
  /-- Every element that there was is as it was, with its children and its parent. -/
  elements : ∀ i < before.forest.size, w.forest.get? i = before.forest.get? i
  /-- The tree has the same elements. -/
  below : w.forest.below d.root = before.forest.below d.root
  text : w.text 0 = before.text 0
  /-- What the edit inserted has no parent. -/
  inserted : ∀ i ∈ after.forest.below d.root, i ∉ before.forest.below d.root →
    w.forest.parent? i = none
  /-- What the edit removed is a child again. -/
  removed : ∀ i ∈ before.forest.below d.root, i ∉ after.forest.below d.root →
    ∃ parent, w.forest.parent? i = some parent ∧ i ∈ w.forest.children parent

/-- A workspace that only has more detached leaves has the same tree. -/
theorem restores_of_extends {before after : Workspace} {d : Document} {p : Planted} {c : Change}
    (hb : before.Standing d p) (hm : before.Makes d c after) (hw : before.Extends w) :
    Restores before after w d := by
  have hrestored := hb.extends hw
  have hafter := hm.standing
  refine ⟨⟨hb.documents, hrestored.documents⟩, hw.grows.old,
    hrestored.below_eq.trans hb.below_eq.symm, ?_, ?_, ?_⟩
  · simp [Workspace.text, hb.documents, hrestored.documents, hb.text_eq, hrestored.text_eq]
  · intro i _ hi
    rw [hb.below_eq] at hi
    exact hrestored.comprises.parent?_of_notMem hi
  · intro i hi ha
    rw [hb.below_eq] at hi
    have hroot : i ≠ d.root := by
      rintro rfl
      refine ha ?_
      rw [← Document.root_recorded d c.edit, hafter.below_eq, ← hafter.id_eq]
      exact Planted.id_mem_ids _
    obtain ⟨b, bs, q, rfl, rfl⟩ := hrestored.exists_crumb hi hroot
    refine ⟨b.id, hrestored.comprises.toHolds.parent?_eq, ?_⟩
    rw [hrestored.comprises.toHolds.children_eq]
    simp

/-- A workspace has the tree that its document was opened with. -/
structure Pristine (text name : String) (writable : Bool) (w : Workspace) : Prop where
  documents : w.documents = (Workspace.empty.open text name writable).documents
  /-- Every element of the tree that was read is as it was. -/
  elements : ∀ i < (Workspace.empty.open text name writable).forest.size,
    w.forest.get? i = (Workspace.empty.open text name writable).forest.get? i
  tree : ∀ d ∈ w.documents, w.forest.tree d.root = Tree.parse text
  text : w.text 0 = text
  unmodified : ∀ d ∈ w.documents, d.modified w.forest = false

/-- The tree that was read spans the text. -/
theorem text_parse (text : String) : (Tree.parse text).text = text := by
  have h := flatMap_tokenize text
  rw [Tree.text, Tree.parse, Tree.leaves_parseFile, ← String.toList_inj, String.toList_join,
    List.flatMap_map]
  exact h

/-- Creating leaves that stand nowhere leaves the tree as it was opened. -/
theorem pristine_of_extends (h : (Workspace.empty.open text name writable).Extends w) :
    Pristine text name writable w := by
  have hw := (Workspace.standing_open text name writable).extends h
  have htree : ((Tree.parse text).plantedFrom 0).tree = Tree.parse text :=
    Tree.tree_plantedFrom 0 _
  refine ⟨h.documents, h.grows.old, ?_, ?_, ?_⟩
  · simp [hw.documents, hw.tree_eq, htree]
  · simp [Workspace.text, hw.documents, hw.text_eq, htree, text_parse]
  · simp [hw.documents, Document.modified, hw.text_eq, htree, text_parse]

/-- **Undo is an exact inverse over whole sessions.** It finds something to undo exactly if some
edit was not undone; then it restores the tree as it was before the latest such edit. Once all edits
are undone, the document has the tree that was read. -/
theorem undo_restores (h : Session Edits (Workspace.empty.open text name true) w log) :
    ((w.undo 0).isSome ↔ log ≠ []) ∧
    (∀ before after rest, log = (before, after) :: rest →
      ∃ v d, w.undo 0 = some v ∧ Restores before after v d) ∧
    (log = [] → Pristine text name true w) := by
  have hb := h.backed records_edits
  refine ⟨?_, ?_, ?_⟩
  · rcases hb.undo rfl rfl with ⟨rfl, hn⟩ | ⟨u, v, rest, w', rfl, hw', -, -, -⟩
    · simp [hn]
    · simp [hw']
  · rintro before after rest rfl
    rcases hb.undo rfl rfl with ⟨hl, -⟩ | ⟨u, v, rest', w', hl, hw', hx, hu, huv⟩
    · simp at hl
    · simp only [List.cons.injEq, Prod.mk.injEq] at hl
      obtain ⟨⟨rfl, rfl⟩, rfl⟩ := hl
      obtain ⟨history, p, hst⟩ := opened_of_backed records_edits hu
      obtain ⟨c, hc⟩ := records_edits _ _ _ p hst huv
      exact ⟨w', _, hw', restores_of_extends hst hc hx⟩
  · rintro rfl
    cases hb with
    | start hx => exact pristine_of_extends hx

/-- The result of a request that succeeds. -/
def result {α : Type _} (r : Except Fault α) (h : r.toOption.isSome = true) : α := r.toOption.get h

/-- A request that succeeds is its result. -/
theorem eq_ok_result {α : Type _} (r : Except Fault α) (h : r.toOption.isSome = true) :
    r = .ok (result r h) := by
  cases r with
  | error e => simp [Except.toOption] at h
  | ok a => rfl

/-- A session of one action that creates elements. -/
theorem of_result {start : Workspace} {s : Settings} {a : Action} {element? : Option ElementId}
    (hr : (start.apply s a element?).toOption.isSome = true)
    (hs : (result _ hr).forest.size ≠ start.forest.size) :
    Session Workspace.Applies start (result _ hr) [(start, result _ hr)] :=
  .edited .start (.apply (eq_ok_result _ hr) fun he => hs (congrArg (fun w => w.forest.size) he))

/-- A session in which an id is added to an inserted comment, and taken back. -/
theorem undo_restores_after_merge : ∃ w before after,
    Session Edits (Workspace.empty.open "a ::= b\n" "g" true) w [(before, after)] ∧
      (w.undo 0).isSome ∧ ∃ v d, w.undo 0 = some v ∧ Restores before after v d := by
  -- a comment is created and inserted before the rule, then an id is added to it and taken back
  let start := Workspace.empty.open "a ::= b\n" "g" true
  let created : Workspace :=
    ⟨(start.forest.addLeaf ⟨.lineComment, "// noinspection A"⟩).1, start.documents⟩
  have h₁ : Session Edits start created [] :=
    .created .start (@Forest.addComment_ok _ "// noinspection A" _ (by decide +kernel) rfl)
  let inserted := result (created.edit 0 fun d f => d.insertBefore f start.forest.size 1)
    (by decide +kernel)
  have h₂ : Session Edits start inserted [(created, inserted)] :=
    .edited h₁ (@Workspace.Edits.insertBefore _ start.forest.size 1 _
      ⟨by decide +kernel, by decide +kernel⟩ (by decide +kernel) (eq_ok_result _ _))
  let merged := result (inserted.apply .standard ⟨"X", .rule, rfl⟩ (some 1)) (by decide +kernel)
  have hne : merged ≠ inserted := fun he =>
    absurd (congrArg (fun w => w.forest.size) he) (by decide +kernel)
  have h₃ : Session Edits start merged [(inserted, merged), (created, inserted)] :=
    .edited h₂ (.apply (eq_ok_result _ _) hne)
  let undone := (merged.undo 0).get (by decide +kernel)
  have h₄ : Session Edits start undone [(created, inserted)] := .undone h₃ (by simp [undone])
  have h := undo_restores h₄
  exact ⟨undone, created, inserted, h₄, h.1.2 (by simp), h.2.1 _ _ _ rfl⟩

end Session

end BnfSuppression
