import BnfSuppression.Proofs.Apart
import BnfSuppression.Proofs.Layered
import BnfSuppression.Proofs.Stepwise

/-!
# Failures Leave Everything Alone

A suppression action is refused exactly if there is a container for it and the document of that
container must not be changed, and it is offered exactly if there is one in a document that may be.
Whatever else ends an action or a call early, nothing has been assigned by then: all documents have
the trees, the texts and the histories that they had.

This holds after anything that hosts may have done before. `Workspace.Visited` are the workspaces
that opening documents, planting trees that belong to no document, calls and actions lead to. The
calls may insert any leaf, also one that stands somewhere already or that another document took
out, and after a failure the workspace is what the procedure left.

## Main definitions

* `Workspace.Contains`: a document has the container of an element.
* `Workspace.Untouched`: nothing changed but that leaves were created.
* `Workspace.Visited`: the workspaces that hosts can lead to.

## Main results

* `Workspace.Visited.layered`: everything that is done keeps the layers.
* `Workspace.Visited.atomic`: **actions and calls that fail, or find nothing to do, leave everything
  as it was**, and what is offered is what will not be refused.
-/

namespace BnfSuppression

/-- The failure of a result. -/
def failure? {α : Type} : Except Fault α → Option Fault
  | .ok _ => none
  | .error e => some e

/-- The fault that is reported is the one that the call ended with. -/
theorem failure?_eq_some {α : Type} {r : Except Fault α} {e : Fault} (h : failure? r = some e) :
    r = .error e := by
  cases r with
  | ok a => simp [failure?] at h
  | error e' => rw [Option.some.inj h]

/-! ### Who refuses an action -/

/-- The result is no refusal of an action; other failures are possible. -/
structure Except.Unrefused {α : Type} (r : Except Fault α) : Prop where
  ne_readOnly : ∀ name, r ≠ .error (.readOnly name)

section Unrefused

variable {α β : Type} {d : Document} {f : Forest} {s : Settings} {name : String}

/-- A call that succeeds is not refused. -/
theorem unrefused_ok (a : α) : Except.Unrefused (.ok a) := ⟨by simp⟩

/-- Two calls in a row, neither of which refuses, do not refuse either. -/
theorem Except.Unrefused.bind {r : Except Fault α} {k : α → Except Fault β}
    (hr : Except.Unrefused r) (hk : ∀ a, Except.Unrefused (k a)) :
    Except.Unrefused (r >>= k) := by
  cases r with
  | ok a => exact hk a
  | error e => exact ⟨fun n hn => hr.ne_readOnly n (congrArg Except.error (Except.error.inj hn))⟩

/-- Looking for the index of a child may fail, but never because a document is read-only. -/
theorem Forest.unrefused_indexOf (f : Forest) (parent child : ElementId) :
    Except.Unrefused (f.indexOf parent child) := by
  rw [Forest.indexOf]
  split <;> exact ⟨by simp⟩

/-- The fault of a walk over the leaves is never that a document is read-only. -/
theorem Forest.unrefused_faultOf (f : Forest) (step : Step) :
    Except.Unrefused (f.faultOf step) := by
  cases step <;> exact ⟨by simp [Forest.faultOf]⟩

/-- Making a comment may fail, but never because a document is read-only. -/
theorem Forest.unrefused_addComment (f : Forest) (text : String) :
    Except.Unrefused (f.addComment text) := by
  rw [Forest.addComment]
  split
  · split <;> exact ⟨by simp⟩
  · exact ⟨by simp⟩

/-- Performing an edit may fail, but never because a document is read-only. -/
theorem Document.unrefused_edit (d : Document) (f : Forest) (e : Edit) :
    Except.Unrefused (d.edit f e) := by
  rw [Document.edit]
  split <;> exact ⟨by simp⟩

/-- Inserting an element in a document may fail, but never because the document is read-only. -/
theorem Document.unrefused_insertBefore (comment anchor : ElementId) :
    Except.Unrefused (d.insertBefore f comment anchor) := by
  rw [Document.insertBefore]
  split
  · exact ⟨by simp⟩
  · refine .bind (.bind (f.unrefused_faultOf _) fun _ => unrefused_ok _) fun indent => ?_
    exact .bind (f.unrefused_indexOf ..) fun index => Document.unrefused_edit ..

/-- Replacing a comment in a document may fail, but never because the document is read-only. -/
theorem Document.unrefused_replaceComment (comment : ElementId) (text : String) :
    Except.Unrefused (d.replaceComment f comment text) := by
  rw [Document.replaceComment]
  split
  · split
    · exact .bind (f.unrefused_indexOf ..) fun index =>
        .bind (f.unrefused_addComment text) fun _ => Document.unrefused_edit ..
    · exact ⟨by simp⟩
  · exact ⟨by simp⟩

/-- Nothing that an action does in a document refuses it. -/
theorem Document.unrefused_suppressInFile :
    Except.Unrefused (d.suppressInFile f s name) :=
  .bind (f.unrefused_addComment _) fun _ => Document.unrefused_edit ..

/-- Suppressing an id before an element in a document may fail, but never because the document is
read-only. -/
theorem Document.unrefused_suppressBefore (container : ElementId) :
    Except.Unrefused (d.suppressBefore f s name container) := by
  rw [Document.suppressBefore]
  split
  · split
    · exact unrefused_ok _
    · exact Document.unrefused_replaceComment ..
  · exact .bind (f.unrefused_faultOf _) fun _ =>
      .bind (f.unrefused_addComment _) fun _ => Document.unrefused_insertBefore ..

end Unrefused

namespace Workspace

variable {w v : Workspace} {d : Document} {id : DocumentId} {k : ElementId} {kind : NodeKind}
  {element? : Option ElementId}

/-! ### Containers -/

/-- The document has the nearest element of the kind around an element. -/
def Contains (w : Workspace) (kind : NodeKind) (element? : Option ElementId) (d : Document) :
    Prop :=
  ∃ x ∈ element?, ∃ k, w.forest.Nearest kind x k ∧ w.forest.Outermost k d.root ∧
    ∃ i : DocumentId, w.documents[i]? = some d

/-- In layers, the owner of an element is the document that has the outermost element around it as
its root. -/
theorem Layered.ownerOf?_eq_some_iff (h : w.Layered) :
    w.ownerOf? k = some id ↔ ∃ d, w.documents[id]? = some d ∧ w.forest.Outermost k d.root := by
  rw [ownerOf?, Array.findIdx?_eq_some_iff_getElem]
  constructor
  · rintro ⟨hi, ht, -⟩
    exact ⟨_, Array.getElem?_eq_getElem hi, h.forest.top_eq_iff.1 (beq_iff_eq.1 ht).symm⟩
  · rintro ⟨d, hd, ho⟩
    obtain ⟨hi, rfl⟩ := Array.getElem?_eq_some_iff.1 hd
    have ht := h.forest.top_eq_iff.2 ho
    refine ⟨hi, by simp [ht], fun j hj hj' => ?_⟩
    have he : w.documents[j]? = some w.documents[j] := Array.getElem?_eq_getElem (by omega)
    exact absurd (h.distinct j id _ _ he hd ((beq_iff_eq.1 hj').trans ht)) (Nat.ne_of_lt hj)

/-- The container that an action looks up, and its owner. -/
theorem Layered.contains_iff (h : w.Layered) (a : Action) :
    w.Contains a.scope element? d ↔ ∃ container id, a.container? w.forest element? = some container ∧
      w.ownerOf? container = some id ∧ w.documents[id]? = some d := by
  constructor
  · rintro ⟨x, hx, k, hk, ho, i, hi⟩
    obtain rfl := Option.mem_def.1 hx
    exact ⟨k, i, h.forest.enclosing?_eq_some_iff.2 hk, h.ownerOf?_eq_some_iff.2 ⟨d, hi, ho⟩, hi⟩
  · rintro ⟨k, i, hk, ho, hi⟩
    obtain ⟨x, rfl, hk⟩ := Option.bind_eq_some_iff.1 hk
    obtain ⟨d', hi', ho⟩ := h.ownerOf?_eq_some_iff.1 ho
    obtain rfl := Option.some.inj (hi.symm.trans hi')
    exact ⟨x, rfl, k, h.forest.enclosing?_eq_some_iff.1 hk, ho, i, hi⟩

/-- An action finds nothing to do exactly if no document has a container. -/
theorem Layered.apply_idle (h : w.Layered) (s : Settings) (a : Action)
    (hn : ∀ d, ¬ w.Contains a.scope element? d) :
    (Procedure.apply s a element?).runs w = (.ok ⟨⟩, w) := by
  have hp := Procedure.performs_apply w s a element?
  have happly : w.apply s a element? = .ok w := by
    rw [Workspace.apply]
    cases hc : a.container? w.forest element? with
    | none => rfl
    | some container =>
        simp only
        cases ho : w.ownerOf? container with
        | none => rfl
        | some id =>
            obtain ⟨d, hd, -⟩ := h.ownerOf?_eq_some_iff.1 ho
            exact absurd ((h.contains_iff a).2 ⟨container, id, hc, ho, hd⟩) (hn d)
  rwa [happly] at hp

/-- **An action is refused exactly if the document of the container must not be changed.** -/
theorem Layered.refused_iff (h : w.Layered) (s : Settings) (a : Action) :
    (∃ name, w.apply s a element? = .error (.readOnly name)) ↔
      ∃ d, w.Contains a.scope element? d ∧ d.writable = false := by
  constructor
  · rintro ⟨name, hr⟩
    rw [Workspace.apply] at hr
    cases hc : a.container? w.forest element? with
    | none => simp [hc] at hr
    | some container =>
        cases ho : w.ownerOf? container with
        | none => simp [hc, ho] at hr
        | some id =>
            simp only [hc, ho, edit] at hr
            obtain ⟨d, hd, -⟩ := h.ownerOf?_eq_some_iff.1 ho
            refine ⟨d, (h.contains_iff a).2 ⟨container, id, hc, ho, hd⟩, ?_⟩
            cases hw : d.writable with
            | false => rfl
            | true =>
                have hunrefused : Except.Unrefused (if a.scope = .document then
                    d.suppressInFile w.forest s (a.id s)
                    else d.suppressBefore w.forest s (a.id s) container) := by
                  split
                  · exact d.unrefused_suppressInFile
                  · exact d.unrefused_suppressBefore container
                simp only [hd, hw] at hr
                exact absurd hr ((hunrefused.bind fun _ => unrefused_ok _).ne_readOnly name)
  · rintro ⟨d, hcontains, hw⟩
    obtain ⟨container, id, hc, ho, hd⟩ := (h.contains_iff a).1 hcontains
    exact ⟨d.name, by simp [Workspace.apply, hc, ho, edit, hd, hw, bind, Except.bind]⟩

/-- **An action is offered exactly if the document of the container may be changed.** -/
theorem Layered.isAvailable_iff (h : w.Layered) (a : Action) :
    a.isAvailable w element? = true ↔ ∃ d, w.Contains a.scope element? d ∧ d.writable = true := by
  simp only [Action.isAvailable, Option.any_eq_true, Option.bind_eq_some_iff, h.contains_iff a]
  constructor
  · rintro ⟨id, ⟨k, hk, ho⟩, d, hd, hw⟩
    exact ⟨d, ⟨k, id, hk, ho, hd⟩, hw⟩
  · rintro ⟨d, ⟨k, id, hk, ho, hd⟩, hw⟩
    exact ⟨id, ⟨k, hk, ho⟩, d, hd, hw⟩

/-! ### Nothing changed -/

/-- Nothing changed but that leaves were created, which stand nowhere: every element has the parent
and the children that it had, and every document has the history, the tree and the text. -/
structure Untouched (w v : Workspace) : Prop extends w.Extends v where
  keeps : ∀ b, Keeps b w v

/-- Doing nothing leaves the whole workspace untouched. -/
theorem Untouched.refl (w : Workspace) : w.Untouched w := ⟨.refl w, fun b => .refl b w⟩

/-- In layers, leaves that stand nowhere are all that tells the two apart. -/
theorem Layered.untouched (h : w.Layered) (hv : w.Extends v) : w.Untouched v where
  toExtends := hv
  keeps := by
    intro b
    have hroot : ∀ d : Document, w.documents[b]? = some d → d.root < w.forest.size := fun d hd =>
      Forest.lt_size_of_isNode (h.root b d hd)
    have hbelow : ∀ d : Document, w.documents[b]? = some d →
        v.forest.below d.root = w.forest.below d.root := fun d hd =>
      h.forest.below_eq_of_grows hv.grows (hroot d hd)
    have hsame : ∀ d : Document, w.documents[b]? = some d → ∀ x ∈ w.forest.below d.root,
        v.forest.get? x = w.forest.get? x := fun d hd x hx =>
      hv.grows.old x (h.forest.lt_size_of_mem_below (hroot d hd) hx)
    refine ⟨by rw [hv.documents], ?_, hbelow, hsame⟩
    rw [text, text, hv.documents]
    cases hd : w.documents[b]? with
    | none => rfl
    | some d =>
        simp only [Option.map_some, Option.getD_some, Document.text, Forest.text, Forest.leaves]
        have hfilter : (w.forest.below d.root).filter v.forest.isLeaf =
            (w.forest.below d.root).filter w.forest.isLeaf :=
          List.filter_congr fun x hx => Forest.isLeaf_congr (hsame d hd x hx)
        rw [hbelow d hd, hfilter]
        refine congrArg String.join (List.map_congr_left fun x hx => ?_)
        rw [Forest.ownText, Forest.ownText, Forest.token?, Forest.token?,
          hsame d hd x (List.mem_of_mem_filter hx)]

/-- A procedure that fails leaves everything as it was. -/
theorem Layered.untouched_of_error (h : w.Layered) {m : Procedure PUnit} {e : Fault}
    {r : Except Fault Workspace} (hm : m.Performs w (fun v => v) r) (hr : r = .error e) :
    ∃ v, m.runs w = (.error e, v) ∧ w.Untouched v := by
  subst hr
  obtain ⟨v, hrun, hv⟩ := hm
  exact ⟨v, hrun, h.untouched hv⟩

/-! ### What hosts can lead to -/

/-- A workspace that opening documents, planting trees that belong to none, calls and suppression
actions lead to. Calls may insert any leaf; those that fail leave what their procedures leave. -/
inductive Visited : Workspace → Prop
  | empty : Visited empty
  | opened {w : Workspace} (text name : String) (writable : Bool) :
    Visited w → Visited (w.open text name writable)
  | planted {w : Workspace} (t : Tree) : Visited w → Visited ⟨(w.forest.plant t).1, w.documents⟩
  | locked {w : Workspace} (id : DocumentId) (writable : Bool) :
    Visited w → Visited (w.setWritable id writable)
  | called {w : Workspace} (id : DocumentId) (c : Call) :
    Visited w → (∀ x ∈ c.inserted?, w.forest.isLeaf x = true) → Visited ((c.procedure id).after w)
  | applied {w : Workspace} (s : Settings) (a : Action) (element? : Option ElementId) :
    Visited w → Visited ((Procedure.apply s a element?).after w)

/-- What a procedure leaves is in layers if its result is. -/
theorem Layered.after (h : w.Layered) {m : Procedure PUnit} {r : Except Fault Workspace}
    (hm : m.Performs w (fun v => v) r) (hr : ∀ v, r = .ok v → v.Layered) :
    (m.after w).Layered := by
  cases r with
  | ok v =>
      have hrun : m.runs w = (.ok ⟨⟩, v) := hm
      rw [Procedure.after, hrun]
      exact hr v rfl
  | error e =>
      obtain ⟨v, hrun, hv⟩ := hm
      rw [Procedure.after, hrun]
      exact h.extends hv

/-- **Everything that hosts do keeps the layers.** -/
theorem Visited.layered (h : w.Visited) : w.Layered := by
  induction h with
  | empty => exact layered_empty
  | opened text name writable _ ih => exact ih.opened text name writable
  | planted t _ ih => exact ih.planted t
  | locked id writable _ ih => exact ih.setWritable id writable
  | called id c _ hc ih =>
      exact ih.after (Procedure.performs_call _ id c) fun v => ih.attempt hc
  | applied s a element? _ ih =>
      exact ih.after (Procedure.performs_apply _ s a element?) fun v => ih.apply

/-- **Actions and calls that fail, or find nothing to do, leave everything as it was**; an action is
refused exactly if it has a container in a document that must not be changed, and offered exactly
if it has one in a document that may be. -/
theorem Visited.atomic (h : w.Visited) (s : Settings) (a : Action)
    (element? : Option ElementId) :
    ((∃ name, w.apply s a element? = .error (.readOnly name)) ↔
      ∃ d, w.Contains a.scope element? d ∧ d.writable = false) ∧
    (a.isAvailable w element? = true ↔
      ∃ d, w.Contains a.scope element? d ∧ d.writable = true) ∧
    ((∀ d, ¬ w.Contains a.scope element? d) →
      (Procedure.apply s a element?).runs w = (.ok ⟨⟩, w)) ∧
    (∀ e, w.apply s a element? = .error e →
      ∃ v, (Procedure.apply s a element?).runs w = (.error e, v) ∧ w.Untouched v) ∧
    ∀ id c e, w.attempt id c = .error e →
      ∃ v, (c.procedure id).runs w = (.error e, v) ∧ w.Untouched v :=
  ⟨h.layered.refused_iff s a, h.layered.isAvailable_iff a, h.layered.apply_idle s a,
    fun _ => h.layered.untouched_of_error (Procedure.performs_apply w s a element?),
    fun id c _ => h.layered.untouched_of_error (Procedure.performs_call w id c)⟩

/-- A comment stands before a rule when the document is locked. An action for the rule is refused,
and so is a call that puts the comment at the start too, after it created a line break. -/
theorem Visited.atomic_of_locked : ∃ w, Visited w ∧
    (∃ v, (Procedure.apply .standard ⟨"Y", .rule, NodeKind.suppressible_rule⟩ (some 1)).runs w =
      (.error (.readOnly "g"), v) ∧ w.Untouched v) ∧
    ∃ v, ((Call.insertAtStart 9).procedure 0).runs w = (.error (.locked "g"), v) ∧
      w.Untouched v := by
  let start := Workspace.empty.open "foo ::= bar\n" "g" true
  let w := ((Procedure.apply .standard ⟨"X", .rule, NodeKind.suppressible_rule⟩ (some 1)).after
    start).setWritable 0 false
  have hw : Visited w := .locked 0 false (.applied _ _ _ (.opened _ _ _ .empty))
  obtain ⟨-, -, -, happly, hcall⟩ :=
    hw.atomic .standard ⟨"Y", .rule, NodeKind.suppressible_rule⟩ (some 1)
  exact ⟨w, hw, happly _ (failure?_eq_some (by decide +kernel)),
    hcall 0 (.insertAtStart 9) _ (failure?_eq_some (by decide +kernel))⟩

end Workspace

end BnfSuppression
