import BnfSuppression.Proofs.Atomic

/-!
# Documents That Must Not Be Changed

Whether a document may be changed is a flag that its host may set at any time, so a history of
edits may stand behind a document that is locked by now. Suppression actions ask for the flag before
they do anything, and all edits ask for it before they assign anything. Undo does not: it takes the
latest edit back, locked or not.

The sessions here are those of one document. Its operations are calls, which may insert any leaf,
and suppression actions, in any order, failing or not, with the flag set in between.

## Main definitions

* `Operation`: a call on the document, or a suppression action.
* `Workspace.Toggled`: the workspaces that operations lead to while the flag is set in between.

## Main results

* `Operation.after_cases`: what operations leave of the document, if they succeed or fail.
* `Workspace.Toggled.locked_keeps_iff`: **operations on a locked document leave it as it is, but for
  undo with a history**.
-/

namespace BnfSuppression

/-- What hosts do with the document of a workspace: calls, and suppression actions. -/
inductive Operation
  | call (c : Call)
  | apply (s : Settings) (a : Action) (element? : Option ElementId)

namespace Operation

/-- An operation, assignment by assignment. -/
def procedure : Operation → Procedure PUnit
  | call c => c.procedure 0
  | apply s a element? => Procedure.apply s a element?

/-- The result of an operation. -/
def result (w : Workspace) : Operation → Except Fault Workspace
  | call c => w.attempt 0 c
  | apply s a element? => w.apply s a element?

/-- The element that an operation puts into the document, if it is given one. -/
def inserted? : Operation → Option ElementId
  | call c => c.inserted?
  | apply _ _ _ => none

/-- An operation comes to its result, and if it fails it has assigned nothing. -/
theorem performs (w : Workspace) (o : Operation) :
    o.procedure.Performs w (fun v => v) (o.result w) := by
  cases o with
  | call c => exact Procedure.performs_call w 0 c
  | apply s a element? => exact Procedure.performs_apply w s a element?

variable {w v : Workspace} {d : Document} {o : Operation}

/-- An operation that succeeds creates leaves at most, or the document may be changed, or it
takes an edit back. -/
theorem of_result_eq_ok (hd : w.documents = #[d]) (hv : o.result w = .ok v) :
    w.Extends v ∨ ∃ r, v = ⟨r.1, #[r.2]⟩ ∧
      (d.writable = true ∨ o = .call .undo ∧ d.undo w.forest = some r) := by
  cases o with
  | call c =>
      cases c with
      | createComment text =>
          cases hadd : w.forest.addComment text with
          | error e => simp [result, Workspace.attempt, hadd, Except.map] at hv
          | ok r =>
              obtain ⟨t, -, -, rfl⟩ := Forest.addComment_eq_ok hadd
              simp only [result, Workspace.attempt, hadd, Except.map, Except.ok.injEq] at hv
              exact .inl (hv ▸ ⟨rfl, Forest.grows_addLeaf w.forest t⟩)
      | insertBefore comment anchor =>
          simp only [result, Workspace.attempt] at hv
          obtain ⟨r, hr, rfl⟩ := Workspace.of_edit_eq_ok hd hv
          exact .inr ⟨r, rfl, .inl (Document.writable_of_insertBefore hr)⟩
      | insertAtStart comment =>
          simp only [result, Workspace.attempt] at hv
          obtain ⟨r, hr, rfl⟩ := Workspace.of_edit_eq_ok hd hv
          exact .inr ⟨r, rfl, .inl (Document.writable_of_insertAtStart hr)⟩
      | replaceComment comment text =>
          simp only [result, Workspace.attempt] at hv
          obtain ⟨r, hr, rfl⟩ := Workspace.of_edit_eq_ok hd hv
          exact .inr ⟨r, rfl, .inl (Document.writable_of_replaceComment hr)⟩
      | undo =>
          simp only [result, Workspace.attempt, Workspace.undo_eq hd, Except.ok.injEq] at hv
          cases hu : d.undo w.forest with
          | none =>
              rw [hu] at hv
              exact .inl (hv ▸ .refl w)
          | some r =>
              rw [hu] at hv
              exact .inr ⟨r, hv.symm, .inr ⟨rfl, rfl⟩⟩
  | apply s a element? =>
      simp only [result, Workspace.apply] at hv
      cases hc : a.container? w.forest element? with
      | none =>
          simp only [hc, Except.ok.injEq] at hv
          exact .inl (hv ▸ .refl w)
      | some container =>
          simp only [hc] at hv
          cases ho : w.ownerOf? container with
          | none =>
              simp only [ho, Except.ok.injEq] at hv
              exact .inl (hv ▸ .refl w)
          | some id =>
              simp only [ho] at hv
              obtain rfl : id = 0 := by
                have hid := (Array.findIdx?_eq_some_iff_getElem.1 ho).1
                rw [hd] at hid
                simpa using hid
              obtain ⟨r, hr, rfl⟩ := Workspace.of_edit_eq_ok hd hv
              cases hw : d.writable with
              | true => exact .inr ⟨r, rfl, .inl rfl⟩
              | false => simp [hw] at hr

/-- **What an operation leaves**, whether it succeeds or fails. -/
theorem after_cases (hd : w.documents = #[d]) (o : Operation) :
    w.Extends (o.procedure.after w) ∨ ∃ r, o.procedure.after w = ⟨r.1, #[r.2]⟩ ∧
      (d.writable = true ∨ o = .call .undo ∧ d.undo w.forest = some r) := by
  have hp := o.performs w
  cases hr : o.result w with
  | error e =>
      rw [hr] at hp
      obtain ⟨v, hv, hext⟩ := hp
      exact .inl (by rwa [Procedure.after, hv])
  | ok v =>
      rw [hr] at hp
      have hafter : o.procedure.after w = v := congrArg Prod.snd hp
      rw [hafter]
      exact of_result_eq_ok hd hr

end Operation

namespace Workspace

variable {text name : String} {w : Workspace} {d : Document}

/-- A workspace that operations on the document of an opened text lead to, whichever of them fail,
while it is set in between whether the document may be changed. -/
inductive Toggled (text name : String) : Workspace → Prop
  | opened (writable : Bool) : Toggled text name (empty.open text name writable)
  | switched {w : Workspace} (writable : Bool) :
    Toggled text name w → Toggled text name (w.setWritable 0 writable)
  | operated {w : Workspace} (o : Operation) : Toggled text name w →
    (∀ x ∈ o.inserted?, w.forest.isLeaf x = true) → Toggled text name (o.procedure.after w)

/-- Hosts can lead there, so the forest is in layers. -/
theorem Toggled.visited (h : Toggled text name w) : w.Visited := by
  induction h with
  | opened writable => exact .opened text name writable .empty
  | switched writable _ ih => exact .locked 0 writable ih
  | operated o _ ho ih =>
      cases o with
      | call c => exact .called 0 c ih ho
      | apply s a element? => exact .applied s a element? ih

/-- There is one document at all times. -/
theorem Toggled.exists_document (h : Toggled text name w) : ∃ d, w.documents = #[d] := by
  induction h with
  | opened writable => exact ⟨_, rfl⟩
  | switched writable _ ih =>
      obtain ⟨d, hd⟩ := ih
      exact ⟨{ d with writable }, by rw [setWritable, hd]; rfl⟩
  | operated o _ _ ih =>
      obtain ⟨d, hd⟩ := ih
      rcases Operation.after_cases hd o with hext | ⟨r, hafter, -⟩
      · exact ⟨d, hext.documents.trans hd⟩
      · exact ⟨r.2, by rw [hafter]⟩

/-- What an operation on a locked document leaves, unless it takes an edit back. -/
theorem extends_of_locked (hd : w.documents = #[d]) (hlocked : d.writable = false) {o : Operation}
    (ho : ¬(o = .call .undo ∧ d.history ≠ [])) : w.Extends (o.procedure.after w) := by
  rcases Operation.after_cases hd o with hext | ⟨r, -, hwritable | ⟨rfl, hundo⟩⟩
  · exact hext
  · simp [hlocked] at hwritable
  · refine absurd ⟨rfl, fun hnil => ?_⟩ ho
    simp [Document.undo, hnil] at hundo

/-- Undo takes the latest edit back, whether the document may be changed or not. -/
theorem after_undo (hd : w.documents = #[d]) {e : Edit} {history : List Edit}
    (hh : d.history = e :: history) : (Operation.call .undo).procedure.after w =
      ⟨e.inverse.run w.forest, #[{ d with history }]⟩ := by
  have hp := (Operation.call .undo).performs w
  have hr : (Operation.call .undo).result w =
      .ok ⟨e.inverse.run w.forest, #[{ d with history }]⟩ := by
    simp only [Operation.result, attempt, undo_eq hd, Document.undo, hh]
    rfl
  rw [hr] at hp
  exact congrArg Prod.snd hp

/-- **Operations on a locked document leave it as it is, but for undo with a history**, which takes
the latest edit back. As it is are its record with the history, its text, and its tree with all
elements. -/
theorem Toggled.locked_keeps_iff (h : Toggled text name w) (hd : w.documents[0]? = some d)
    (hlocked : d.writable = false) (o : Operation) :
    (Keeps 0 w (o.procedure.after w) ↔ ¬(o = .call .undo ∧ d.history ≠ [])) ∧
    ∀ e history, d.history = e :: history → (Operation.call .undo).procedure.after w =
      ⟨e.inverse.run w.forest, #[{ d with history }]⟩ := by
  obtain ⟨d', hd'⟩ := h.exists_document
  obtain rfl : d' = d := by simpa [hd'] using hd
  refine ⟨⟨?_, fun ho => ?_⟩, fun e history hh => after_undo hd' hh⟩
  · rintro hkeeps ⟨rfl, hne⟩
    obtain ⟨e, history, hh⟩ := List.exists_cons_of_ne_nil hne
    have hdocument := hkeeps.document
    rw [after_undo hd' hh, hd'] at hdocument
    have hsame : history = d'.history := congrArg Document.history (by simpa using hdocument)
    rw [hh] at hsame
    simpa using congrArg List.length hsame
  · exact (h.visited.layered.untouched (extends_of_locked hd' hlocked ho)).keeps 0

/-- A directive is written, then the document is locked: undo takes the directive out of it. -/
theorem Toggled.locked_keeps_iff_of_undone : ∃ w d, Toggled "foo ::= bar\n" "g" w ∧
    w.documents[0]? = some d ∧ d.writable = false ∧
    w.text 0 = "// noinspection X\nfoo ::= bar\n" ∧
    ¬ Keeps 0 w ((Operation.call .undo).procedure.after w) ∧
    ((Operation.call .undo).procedure.after w).text 0 = "foo ::= bar\n" := by
  let start := empty.open "foo ::= bar\n" "g" true
  let suppress : Operation := .apply .standard ⟨"X", .rule, NodeKind.suppressible_rule⟩ (some 1)
  let w := (suppress.procedure.after start).setWritable 0 false
  have hw : Toggled "foo ::= bar\n" "g" w :=
    .switched false (.operated suppress (.opened true) (by simp [suppress, Operation.inserted?]))
  obtain ⟨d, hd⟩ : ∃ d, w.documents[0]? = some d := by
    obtain ⟨d, hd⟩ := hw.exists_document
    exact ⟨d, by rw [hd]; rfl⟩
  have hrecord : w.documents[0]?.map (fun d => (d.writable, d.history.isEmpty)) =
      some (false, false) := by
    decide +kernel
  obtain ⟨hlocked, hhistory⟩ : d.writable = false ∧ d.history.isEmpty = false := by
    simpa [hd] using hrecord
  have hne : d.history ≠ [] := by simpa using hhistory
  exact ⟨w, d, hw, hd, hlocked, by decide +kernel,
    fun hkeeps => (hw.locked_keeps_iff hd hlocked (.call .undo)).1.1 hkeeps ⟨rfl, hne⟩,
    by decide +kernel⟩

end Workspace

end BnfSuppression
