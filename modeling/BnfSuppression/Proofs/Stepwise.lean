import BnfSuppression.Proofs.Shared

/-!
# Edits Assignment by Assignment

The functions that edit a document give the next state or a failure, and with a failure no state.
This module writes them as procedures that change a workspace in place: one parent, one list of
children, one history at a time. A procedure that fails stops where it is, and whatever it has
assigned by then stays. That a failure leaves everything as it was is then a fact about the order
of checks and assignments.

## Main definitions

* `Procedure`: what may change a workspace and fail on the way; `Procedure.after` is what it leaves.
* `Call.procedure`, `Procedure.apply`: calls on a document and suppression actions as procedures.
* `Procedure.Performs`: a procedure comes to the result of a function.

## Main results

* `Procedure.performs_call`, `Procedure.performs_apply`: **the procedures come to the results of the
  functions, and one that fails has created leaves that stand nowhere and assigned nothing**.
-/

namespace BnfSuppression

/-- What changes a workspace in place and may fail on the way. What it has changed by then stays
changed. -/
abbrev Procedure (α : Type) := ExceptT Fault (StateM Workspace) α

namespace Procedure

variable {α β : Type} {w v : Workspace} {e : Fault}

/-- The result of a procedure, and the workspace that it leaves. -/
def runs (m : Procedure α) (w : Workspace) : Except Fault α × Workspace := (m.run.run w).run

/-- The workspace that a procedure leaves, whether it fails or not. -/
def after (m : Procedure α) (w : Workspace) : Workspace := (m.runs w).2

/-- A procedure that gives a value changes nothing. -/
@[simp]
theorem runs_pure (a : α) (w : Workspace) : (pure a : Procedure α).runs w = (.ok a, w) := rfl

/-- A procedure that fails at once changes nothing. -/
@[simp]
theorem runs_throw (e : Fault) (w : Workspace) :
    (throw e : Procedure α).runs w = (.error e, w) := rfl

/-- Asking for the workspace changes nothing. -/
@[simp]
theorem runs_get (w : Workspace) : (get : Procedure Workspace).runs w = (.ok w, w) := rfl

/-- An assignment succeeds, and leaves the workspace that it makes. -/
@[simp]
theorem runs_modify (g : Workspace → Workspace) (w : Workspace) :
    (modify g : Procedure PUnit).runs w = (.ok ⟨⟩, g w) := rfl

/-- A failure of the first part ends a procedure, and what that part changed stays. -/
theorem runs_bind (m : Procedure α) (k : α → Procedure β) (w : Workspace) :
    (m >>= k).runs w = match m.runs w with
      | (.ok a, u) => (k a).runs u
      | (.error e, u) => (.error e, u) := by
  simp only [runs, ExceptT.run, bind, ExceptT.bind, ExceptT.mk, StateT.run, StateT.bind,
    ExceptT.bindCont, Id.run]
  cases m w with
  | mk r u => cases r <;> rfl

/-- If the first of two procedures succeeds, the second goes on in the workspace that it leaves. -/
theorem runs_bind_ok {m : Procedure α} {k : α → Procedure β} {a : α}
    (h : m.runs w = (.ok a, v)) : (m >>= k).runs w = (k a).runs v := by
  rw [runs_bind, h]

/-! ### Assignments -/

/-- Makes a parent of an element. -/
def assignParent (parent? : Option ElementId) (id : ElementId) : Procedure PUnit :=
  modify fun w => { w with forest := w.forest.setParent parent? id }

/-- Replaces the children of a composite. -/
def assignChildren (id : ElementId) (g : List ElementId → List ElementId) : Procedure PUnit :=
  modify fun w => { w with forest := w.forest.mapChildren id g }

/-- Replaces the history of a document. -/
def assignHistory (id : DocumentId) (g : List Edit → List Edit) : Procedure PUnit :=
  modify fun w =>
    { w with documents := w.documents.modify id fun d => { d with history := g d.history } }

/-- Creates a leaf without a parent. -/
def create (t : Token) : Procedure ElementId := do
  let w ← get
  modify fun w => { w with forest := (w.forest.addLeaf t).1 }
  return w.forest.size

/-- Goes on with a value, or fails. -/
def check : Except Fault α → Procedure α
  | .ok a => pure a
  | .error e => throw e

/-- Creating a leaf succeeds, gives the leaf, and adds it to the forest. -/
@[simp]
theorem runs_create (t : Token) (w : Workspace) :
    (create t).runs w = (.ok w.forest.size, { w with forest := (w.forest.addLeaf t).1 }) := rfl

/-- Going on with a value, or failing, changes nothing. -/
@[simp]
theorem runs_check (r : Except Fault α) (w : Workspace) : (check r).runs w = (r, w) := by
  cases r <;> rfl

/-- Parents are assigned one after the other. -/
theorem runs_forM_assignParent (parent? : Option ElementId) (ids : List ElementId)
    (w : Workspace) :
    (ids.forM (assignParent parent?)).runs w =
      (.ok ⟨⟩, { w with forest := w.forest.setParents parent? ids }) := by
  induction ids generalizing w with
  | nil => rfl
  | cons id ids ih => exact (runs_bind_ok (runs_modify _ w)).trans (ih _)

/-! ### The procedures -/

/-- The assignments of an edit: parents of what is removed, parents of what is inserted, then the
children. -/
def assign (e : Edit) : Procedure PUnit := do
  e.removed.forM (assignParent none)
  e.inserted.forM (assignParent (some e.parent))
  assignChildren e.parent (Forest.replaceAt e.index e.removed e.inserted)

/-- Makes and records an edit, if the document may be changed. -/
def edit (id : DocumentId) (d : Document) (e : Edit) : Procedure PUnit := do
  if !d.writable then throw (.locked d.name)
  assign e
  assignHistory id (e :: ·)

/-- Creates a comment from a text that is one. -/
def createComment (text : String) : Procedure ElementId :=
  match tokenize text with
  | [t] => if t.type == .lineComment then create t else throw (.notOneComment text)
  | _ => throw (.notOneComment text)

/-- Inserts an element and a line break before an anchor. -/
def insertBefore (id : DocumentId) (d : Document) (comment anchor : ElementId) :
    Procedure PUnit := do
  let f := (← get).forest
  match f.parent? anchor with
  | none => throw (.atRoot d.name)
  | some parent =>
    let indent ← check (f.indentation anchor)
    let lineBreak ← create ⟨.whitespace, "\n" ++ indent⟩
    let index ← check (f.indexOf parent anchor)
    edit id d ⟨parent, index, [], [comment, lineBreak]⟩

/-- Inserts an element and a line break where the text starts. -/
def insertAtStart (id : DocumentId) (d : Document) (comment : ElementId) : Procedure PUnit := do
  let lineBreak ← create ⟨.whitespace, "\n"⟩
  edit id d ⟨d.root, 0, [], [comment, lineBreak]⟩

/-- Replaces a comment of the document by a new one. -/
def replaceComment (id : DocumentId) (d : Document) (comment : ElementId) (text : String) :
    Procedure PUnit := do
  let f := (← get).forest
  match f.parent? comment with
  | none => throw (.notItsComment (f.describe comment) d.name)
  | some parent =>
    if f.top comment == d.root && f.isComment comment then
      let index ← check (f.indexOf parent comment)
      let fresh ← createComment text
      edit id d ⟨parent, index, [comment], [fresh]⟩
    else throw (.notItsComment (f.describe comment) d.name)

/-- Takes the latest edit back, if there is one: the history first, then parents and children. -/
def undo (id : DocumentId) (d : Document) : Procedure PUnit :=
  match d.history with
  | [] => pure ⟨⟩
  | e :: history => do
    assignHistory id fun _ => history
    assign e.inverse

/-- Inserts a directive for an id at the start. -/
def suppressInFile (id : DocumentId) (d : Document) (s : Settings) (check : String) :
    Procedure PUnit := do
  let comment ← createComment (s.comment check)
  insertAtStart id d comment

/-- Adds an id to the nearest directive before a container, or inserts one there. -/
def suppressBefore (id : DocumentId) (d : Document) (s : Settings) (name : String)
    (container : ElementId) : Procedure PUnit := do
  let f := (← get).forest
  let w := f.leadingComments .beforeNode container
  match f.nearestDirective? s.verb w.run with
  | some (comment, directive) =>
    if directive.ids.contains name then pure ⟨⟩
    else replaceComment id d comment ((directive.withId name).render s.marker)
  | none =>
    check (f.faultOf w.stop)
    let comment ← createComment (s.comment name)
    insertBefore id d comment container

/-- Goes on with a document; nothing happens if there is none. -/
def onDocument (id : DocumentId) (k : Document → Procedure PUnit) : Procedure PUnit := do
  match (← get).documents[id]? with
  | none => pure ⟨⟩
  | some d => k d

/-- Takes an action for an element. -/
def apply (s : Settings) (a : Action) (element? : Option ElementId) : Procedure PUnit := do
  let w ← get
  match a.container? w.forest element? with
  | none => pure ⟨⟩
  | some container =>
    match w.ownerOf? container with
    | none => pure ⟨⟩
    | some id => onDocument id fun d =>
      if !d.writable then throw (.readOnly d.name)
      else if a.scope = .document then suppressInFile id d s (a.id s)
      else suppressBefore id d s (a.id s) container

end Procedure

/-- A call on a document, assignment by assignment. -/
def Call.procedure (id : DocumentId) : Call → Procedure PUnit
  | createComment text => do
    let _ ← Procedure.createComment text
  | insertBefore comment anchor =>
    Procedure.onDocument id fun d => Procedure.insertBefore id d comment anchor
  | insertAtStart comment => Procedure.onDocument id fun d => Procedure.insertAtStart id d comment
  | replaceComment comment text =>
    Procedure.onDocument id fun d => Procedure.replaceComment id d comment text
  | undo => Procedure.onDocument id fun d => Procedure.undo id d

namespace Procedure

variable {α γ : Type} {w v : Workspace} {f : Forest} {ds : Array Document} {d : Document}
  {id : DocumentId} {view : γ → Workspace} {r : Except Fault γ}

/-! ### Procedures and functions -/

/-- A procedure comes to the result of a function: it leaves the workspace of a success. Where it
fails, it has created leaves that stand nowhere, and assigned nothing. -/
def Performs (m : Procedure PUnit) (w : Workspace) (view : γ → Workspace) : Except Fault γ → Prop
  | .ok a => m.runs w = (.ok ⟨⟩, view a)
  | .error e => ∃ v, m.runs w = (.error e, v) ∧ w.Extends v

/-- A procedure that fails at once comes to the result of a function that fails so. -/
theorem performs_throw (e : Fault) (w : Workspace) :
    (throw e : Procedure PUnit).Performs w view (.error e) :=
  ⟨w, rfl, .refl w⟩

/-- Leaves that stand nowhere may be created first. -/
theorem Performs.of_extends {m : Procedure α} {k : α → Procedure PUnit} {a : α}
    (h : (k a).Performs v view r) (hm : m.runs w = (.ok a, v)) (hv : w.Extends v) :
    (m >>= k).Performs w view r := by
  cases r with
  | ok u => exact (runs_bind_ok hm).trans h
  | error e =>
      obtain ⟨u, hu, he⟩ := h
      exact ⟨u, (runs_bind_ok hm).trans hu, hv.trans he⟩

/-- What is read off the workspace changes nothing. -/
theorem performs_get {k : Workspace → Procedure PUnit} (h : (k w).Performs w view r) :
    (get >>= k).Performs w view r :=
  h.of_extends (runs_get w) (.refl w)

/-- A check passes, or ends the procedure before anything is assigned. -/
theorem performs_check {q : Except Fault α} {k : α → Procedure PUnit} {g : α → Except Fault γ}
    (h : ∀ a, (k a).Performs w view (g a)) : (check q >>= k).Performs w view (q >>= g) := by
  cases q with
  | ok a => exact (h a).of_extends (runs_check (.ok a) w) (.refl w)
  | error e => exact ⟨w, by rw [runs_bind, runs_check], .refl w⟩

/-- A leaf is created, which then stands nowhere. -/
theorem performs_create {t : Token} {k : ElementId → Procedure PUnit}
    (h : (k f.size).Performs ⟨(f.addLeaf t).1, ds⟩ view r) :
    (create t >>= k).Performs ⟨f, ds⟩ view r :=
  h.of_extends (runs_create t ⟨f, ds⟩) ⟨rfl, Forest.grows_addLeaf _ _⟩

/-- A comment is created, or the procedure ends before anything is assigned. -/
theorem performs_createComment {text : String} {k : ElementId → Procedure PUnit}
    {g : Forest × ElementId → Except Fault γ}
    (h : ∀ t, (k f.size).Performs ⟨(f.addLeaf t).1, ds⟩ view (g (f.addLeaf t))) :
    (createComment text >>= k).Performs ⟨f, ds⟩ view (f.addComment text >>= g) := by
  have hrefused : ((throw (.notOneComment text) : Procedure ElementId) >>= k).Performs ⟨f, ds⟩ view
      (.error (.notOneComment text)) := ⟨⟨f, ds⟩, by rw [runs_bind, runs_throw], .refl _⟩
  rw [createComment, Forest.addComment]
  rcases tokenize text with _ | ⟨t, _ | ⟨u, ts⟩⟩
  · exact hrefused
  · by_cases ht : t.type == .lineComment
    · simp only [ht, if_true]
      exact performs_create (h t)
    · simp only [ht]
      exact hrefused
  · exact hrefused

/-- The assignments of an edit are the edit. -/
theorem runs_assign (e : Edit) (w : Workspace) :
    (assign e).runs w = (.ok ⟨⟩, { w with forest := e.run w.forest }) := by
  rw [assign, runs_bind_ok (runs_forM_assignParent ..), runs_bind_ok (runs_forM_assignParent ..)]
  rfl

/-- A document is replaced by one with another history. -/
theorem modify_eq_setIfInBounds (hd : ds[id]? = some d) (g : Document → Document) :
    ds.modify id g = ds.setIfInBounds id (g d) := by
  refine Array.ext_getElem? fun i => ?_
  obtain ⟨hid, -⟩ := Array.getElem?_eq_some_iff.1 hd
  rw [Array.getElem?_modify, Array.getElem?_setIfInBounds]
  by_cases hi : id = i
  · rw [if_pos hi, if_pos hi, if_pos hid, ← hi, hd, Option.map_some]
  · rw [if_neg hi, if_neg hi]

/-- The workspace of a forest and one of its documents, the others being as they were. -/
def put (ds : Array Document) (id : DocumentId) (r : Forest × Document) : Workspace :=
  ⟨r.1, ds.setIfInBounds id r.2⟩

/-- **Whether the document may be changed is asked before the first assignment.** -/
theorem performs_edit (hd : ds[id]? = some d) (e : Edit) :
    (edit id d e).Performs ⟨f, ds⟩ (put ds id) (d.edit f e) := by
  cases hw : d.writable with
  | false =>
      rw [Document.edit, hw, edit, hw]
      exact ⟨⟨f, ds⟩, rfl, .refl _⟩
  | true =>
      rw [Document.edit_eq hw, edit, hw]
      refine (runs_bind_ok (runs_assign e _)).trans ?_
      rw [assignHistory, runs_modify, modify_eq_setIfInBounds hd]
      rfl

/-- Inserting before an element, assignment by assignment, comes to the result of the function. -/
theorem performs_insertBefore (hd : ds[id]? = some d) (comment anchor : ElementId) :
    (insertBefore id d comment anchor).Performs ⟨f, ds⟩ (put ds id)
      (d.insertBefore f comment anchor) := by
  rw [insertBefore, Document.insertBefore]
  refine performs_get ?_
  cases hp : f.parent? anchor with
  | none =>
      simp only [hp]
      exact performs_throw ..
  | some parent =>
      simp only [hp]
      refine performs_check fun indent => ?_
      -- the line break is created before the place of the anchor is looked up
      exact performs_create (performs_check fun index => performs_edit hd _)

/-- Inserting at the start, assignment by assignment, comes to the result of the function. -/
theorem performs_insertAtStart (hd : ds[id]? = some d) (comment : ElementId) :
    (insertAtStart id d comment).Performs ⟨f, ds⟩ (put ds id) (d.insertAtStart f comment) :=
  performs_create (performs_edit hd _)

/-- Replacing a comment, assignment by assignment, comes to the result of the function. -/
theorem performs_replaceComment (hd : ds[id]? = some d) (comment : ElementId)
    (text : String) : (replaceComment id d comment text).Performs ⟨f, ds⟩ (put ds id)
      (d.replaceComment f comment text) := by
  rw [replaceComment, Document.replaceComment]
  refine performs_get ?_
  cases hp : f.parent? comment with
  | none =>
      simp only [hp]
      exact performs_throw ..
  | some parent =>
      simp only [hp]
      split
      · exact performs_check fun index => performs_createComment fun t => performs_edit hd _
      · exact performs_throw ..

/-- What a procedure leaves that assigns nothing. -/
theorem performs_pure (hd : ds[id]? = some d) :
    (pure ⟨⟩ : Procedure PUnit).Performs ⟨f, ds⟩ (put ds id) (.ok (f, d)) := by
  show ((pure ⟨⟩ : Procedure PUnit).runs ⟨f, ds⟩) = (.ok ⟨⟩, put ds id (f, d))
  rw [runs_pure, put, Workspace.setIfInBounds_eq_self hd]

/-- Undoing, assignment by assignment, comes to the result of the function, which never fails. -/
theorem performs_undo (hd : ds[id]? = some d) :
    (undo id d).Performs ⟨f, ds⟩ (put ds id) (.ok ((d.undo f).getD (f, d))) := by
  rw [undo, Document.undo]
  cases d.history with
  | nil => exact performs_pure hd
  | cons e history =>
      refine (runs_bind_ok (runs_modify _ _)).trans ((runs_assign _ _).trans ?_)
      rw [modify_eq_setIfInBounds hd]
      rfl

/-- Suppressing an id for a file, assignment by assignment, comes to the result of the function. -/
theorem performs_suppressInFile (hd : ds[id]? = some d) (s : Settings) (name : String) :
    (suppressInFile id d s name).Performs ⟨f, ds⟩ (put ds id) (d.suppressInFile f s name) :=
  performs_createComment fun _ => performs_insertAtStart hd _

/-- Suppressing an id before a container, assignment by assignment, comes to the result of the
function. -/
theorem performs_suppressBefore (hd : ds[id]? = some d) (s : Settings) (name : String)
    (container : ElementId) : (suppressBefore id d s name container).Performs ⟨f, ds⟩
      (put ds id) (d.suppressBefore f s name container) := by
  rw [suppressBefore, Document.suppressBefore]
  refine performs_get ?_
  cases hn : f.nearestDirective? s.verb (f.leadingComments .beforeNode container).run with
  | none =>
      simp only [hn]
      exact performs_check fun _ => performs_createComment fun _ => performs_insertBefore hd _ _
  | some found =>
      obtain ⟨comment, directive⟩ := found
      simp only [hn]
      split
      · exact performs_pure hd
      · exact performs_replaceComment hd _ _

/-- A result for one of the documents is one for the workspace. -/
theorem Performs.of_put {m : Procedure PUnit} {r : Except Fault (Forest × Document)}
    (h : m.Performs w (put ds id) r) : m.Performs w (fun v => v) (r.map (put ds id)) := by
  cases r with
  | ok r => exact h
  | error e => exact h

/-- Goes on with a document, or does nothing. -/
theorem performs_onDocument {k : Document → Procedure PUnit}
    (change : Document → Forest → Except Fault (Forest × Document))
    (h : ∀ d, w.documents[id]? = some d →
      (k d).Performs w (put w.documents id) (change d w.forest)) :
    (onDocument id k).Performs w (fun v => v) (w.edit id change) := by
  rw [onDocument, Workspace.edit]
  refine performs_get ?_
  cases hd : w.documents[id]? with
  | none =>
      simp only
      exact runs_pure ..
  | some d =>
      simp only
      have hk := (h d hd).of_put
      cases hr : change d w.forest with
      | ok r => rwa [hr] at hk
      | error e => rwa [hr] at hk

/-- **A suppression action comes to the result of its function**, and if it fails it has assigned
nothing. -/
theorem performs_apply (w : Workspace) (s : Settings) (a : Action) (element? : Option ElementId) :
    (apply s a element?).Performs w (fun v => v) (w.apply s a element?) := by
  rw [apply, Workspace.apply]
  refine performs_get ?_
  cases a.container? w.forest element? with
  | none =>
      simp only
      exact runs_pure ..
  | some container =>
      simp only
      cases w.ownerOf? container with
      | none =>
          simp only
          exact runs_pure ..
      | some id =>
          simp only
          refine performs_onDocument _ fun d hd => ?_
          split
          · exact performs_throw ..
          · split
            · exact performs_suppressInFile hd s _
            · exact performs_suppressBefore hd s _ container

/-- Undo as a change of a document that never fails. -/
theorem edit_undo (w : Workspace) (id : DocumentId) :
    (w.edit id fun d f => .ok ((d.undo f).getD (f, d))) = .ok ((w.undo id).getD w) := by
  rw [Workspace.edit, Workspace.undo]
  cases hd : w.documents[id]? with
  | none => rfl
  | some d =>
      cases hh : d.history with
      | nil =>
          simp [Document.undo, hh, Workspace.setIfInBounds_eq_self hd, bind, Except.bind, pure,
            Except.pure]
      | cons e history =>
          simp [Document.undo, hh, bind, Except.bind, pure, Except.pure]

/-- **A call comes to the result of its function**, and if it fails it has assigned nothing. -/
theorem performs_call (w : Workspace) (id : DocumentId) (c : Call) :
    (c.procedure id).Performs w (fun v => v) (w.attempt id c) := by
  cases c with
  | createComment text =>
      have hmap : w.attempt id (.createComment text) =
          w.forest.addComment text >>= fun r => .ok ⟨r.1, w.documents⟩ := by
        rw [Workspace.attempt]
        cases w.forest.addComment text <;> rfl
      rw [hmap, Call.procedure]
      exact performs_createComment fun t => runs_pure ..
  | insertBefore comment anchor =>
      rw [Call.procedure, Workspace.attempt]
      exact performs_onDocument _ fun d hd => performs_insertBefore hd comment anchor
  | insertAtStart comment =>
      rw [Call.procedure, Workspace.attempt]
      exact performs_onDocument _ fun d hd => performs_insertAtStart hd comment
  | replaceComment comment text =>
      rw [Call.procedure, Workspace.attempt]
      exact performs_onDocument _ fun d hd => performs_replaceComment hd comment text
  | undo =>
      rw [Call.procedure, Workspace.attempt, ← edit_undo]
      exact performs_onDocument _ fun d hd => performs_undo hd

end Procedure

end BnfSuppression
