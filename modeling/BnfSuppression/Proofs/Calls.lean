import BnfSuppression.Proofs.Session

/-!
# Calls on Documents

A host edits a document by calls, each of which may fail, and a call that fails leaves everything
as it was. This module gives a call as data, so that statements can speak of sequences of calls,
and ties the calls on the only document of a workspace to the sessions of that document.

## Main definitions

* `Call`, `Workspace.call`: a call, and what it leaves.
* `Workspace.Reached`: the workspaces that calls and suppression actions lead to.

## Main results

* `Workspace.Reached.session`: **calls and actions make up a session**, whichever of them fail.
-/

namespace BnfSuppression

/-- A call of one of the functions that edit a document. -/
inductive Call
  | createComment (text : String)
  | insertBefore (comment anchor : ElementId)
  | insertAtStart (comment : ElementId)
  | replaceComment (comment : ElementId) (text : String)
  | undo
  deriving Repr, DecidableEq

/-- The element that a call puts into a document. -/
def Call.inserted? : Call → Option ElementId
  | insertBefore comment _ | insertAtStart comment => some comment
  | createComment _ | replaceComment _ _ | undo => none

namespace Workspace

/-- The result of a call on a document. Undo never fails: without a recorded edit it does
nothing. -/
def attempt (w : Workspace) (id : DocumentId) : Call → Except Fault Workspace
  | .createComment text => (w.forest.addComment text).map fun r => { w with forest := r.1 }
  | .insertBefore comment anchor => w.edit id fun d f => d.insertBefore f comment anchor
  | .insertAtStart comment => w.edit id fun d f => d.insertAtStart f comment
  | .replaceComment comment text => w.edit id fun d f => d.replaceComment f comment text
  | .undo => .ok ((w.undo id).getD w)

/-- What a result leaves: a failure leaves everything as it was. -/
def settle (w : Workspace) (r : Except Fault Workspace) : Workspace := r.toOption.getD w

/-- What a call on a document leaves. -/
def call (w : Workspace) (id : DocumentId) (c : Call) : Workspace := w.settle (w.attempt id c)

/-- What calls on a document leave, one after the other. -/
def callAll (w : Workspace) (id : DocumentId) (cs : List Call) : Workspace :=
  cs.foldl (fun w c => w.call id c) w

/-- A failure leaves the workspace, a success its result. -/
theorem settle_cases (w : Workspace) (r : Except Fault Workspace) :
    w.settle r = w ∨ r = .ok (w.settle r) := by
  cases r with
  | error e => exact .inl rfl
  | ok v => exact .inr rfl

/-- What a call inserts is a detached leaf. -/
def Offers (w : Workspace) (c : Call) : Prop := ∀ i ∈ c.inserted?, w.forest.Detached i

instance (w : Workspace) (c : Call) : Decidable (w.Offers c) :=
  inferInstanceAs (Decidable (∀ i ∈ c.inserted?, w.forest.Detached i))

/-- A workspace that calls on the document of an opened text and suppression actions lead to,
whichever of them fail. -/
inductive Reached (text name : String) (writable : Bool) : Workspace → Prop
  | opened : Reached text name writable (empty.open text name writable)
  | called {w : Workspace} {c : Call} :
    Reached text name writable w → w.Offers c → Reached text name writable (w.call 0 c)
  | applied {w : Workspace} (s : Settings) (a : Action) (element? : Option ElementId) :
    Reached text name writable w → Reached text name writable (w.settle (w.apply s a element?))

variable {text name : String} {writable : Bool} {w v : Workspace} {d : Document} {p : Planted}
  {log : Session.Log}

/-- What is inserted before something succeeds at elements of the tree only. -/
theorem Standing.mem_of_insertBefore (h : w.Standing d p) {comment anchor : ElementId}
    {r : Forest × Document} (hr : d.insertBefore w.forest comment anchor = .ok r) :
    anchor ∈ p.ids := by
  by_contra hm
  simp [Document.insertBefore, h.comprises.parent?_of_notMem hm] at hr

/-- **A call that succeeds continues the session.** -/
theorem Standing.session_attempt (h : w.Standing d p)
    (hs : Session Edits (empty.open text name writable) w log) {c : Call} (hc : w.Offers c)
    (hv : w.attempt 0 c = .ok v) :
    ∃ log', Session Edits (empty.open text name writable) v log' := by
  cases c with
  | createComment t =>
      cases hadd : w.forest.addComment t with
      | error e => simp [attempt, hadd, Except.map] at hv
      | ok r =>
          simp only [attempt, hadd, Except.map, Except.ok.injEq] at hv
          exact ⟨log, hv ▸ .created hs hadd⟩
  | insertBefore comment anchor =>
      simp only [attempt] at hv
      obtain ⟨r, hr, -⟩ := of_edit_eq_ok h.documents hv
      have howner : w.ownerOf? anchor = some 0 := by
        rw [h.ownerOf?_eq, if_pos (h.mem_of_insertBefore hr)]
      exact ⟨_, .edited hs (.insertBefore (hc comment rfl) howner hv)⟩
  | insertAtStart comment => exact ⟨_, .edited hs (.insertAtStart (hc comment rfl) hv)⟩
  | replaceComment comment t => exact ⟨_, .edited hs (.replaceComment hv)⟩
  | undo =>
      simp only [attempt, Except.ok.injEq] at hv
      cases hu : w.undo 0 with
      | none =>
          rw [hu, Option.getD_none] at hv
          exact ⟨log, hv ▸ hs⟩
      | some u =>
          rw [hu, Option.getD_some] at hv
          subst hv
          exact ⟨_, .undone hs hu⟩

/-- **Calls and actions make up a session**, whichever of them fail. -/
theorem Reached.session (h : Reached text name writable w) :
    ∃ log, Session Edits (empty.open text name writable) w log := by
  induction h with
  | opened => exact ⟨[], .start⟩
  | @called w c _ hc ih =>
      obtain ⟨log, hs⟩ := ih
      obtain ⟨history, p, hp⟩ := hs.opened Session.records_edits
      rcases w.settle_cases (w.attempt 0 c) with hw | hv
      · rw [call, hw]
        exact ⟨log, hs⟩
      · exact hp.session_attempt hs hc hv
  | @applied w s a element? _ ih =>
      obtain ⟨log, hs⟩ := ih
      rcases w.settle_cases (w.apply s a element?) with hw | hv
      · rw [hw]
        exact ⟨log, hs⟩
      · by_cases hne : w.settle (w.apply s a element?) = w
        · rw [hne]
          exact ⟨log, hs⟩
        · exact ⟨_, .edited hs (.apply hv hne)⟩

end Workspace

end BnfSuppression
