import BnfSuppression.Proofs.Calls
import BnfSuppression.Proofs.Tended

/-!
# Sessions of Several Documents

Documents are opened one after the other in one forest, and a host calls what edits them in any
order. `Workspace.Shared` are the workspaces that this leads to if every document is edited at its
own elements, and with comments that no other document took out. All of them are tended: each
document has a tree and a history of its own.

## Main definitions

* `Workspace.Proper`: a call that stays in its document.
* `Workspace.Shared`: the workspaces that proper calls and suppression actions lead to.

## Main results

* `Workspace.Tended.attempt`: **a proper call keeps the documents independent**.
* `Workspace.apply_eq_ok`: a suppression action is made of calls.
* `Workspace.Shared.tended`: **the documents of a shared workspace are independent**.
-/

namespace BnfSuppression

open Planted (plug Place Change)

/-- The element before which a call inserts something. -/
def Call.anchor? : Call → Option ElementId
  | insertBefore _ anchor => some anchor
  | createComment _ | insertAtStart _ | replaceComment _ _ | undo => none

/-- A planted tree has the ids from its first one on, as many as it has nodes. -/
theorem Tree.mem_ids_plantedFrom {t : Tree} {id x : ElementId} :
    x ∈ (t.plantedFrom id).ids ↔ id ≤ x ∧ x < id + t.size := by
  rw [ids_plantedFrom, List.mem_range'_1]

namespace Forest

variable {f : Forest} {t : Tree} {i : ElementId}

/-- Planting a tree makes a forest larger by the tree's nodes. -/
@[simp]
theorem size_plant (f : Forest) (t : Tree) : (f.plant t).1.size = f.size + t.size := by
  simp [plant, size, Tree.length_layout]

/-- Planting leaves the elements that there were alone. -/
theorem get?_plant (h : i < f.size) : (f.plant t).1.get? i = f.get? i := by
  simp only [plant, get?]
  exact Array.getElem?_append_left h

end Forest

namespace Workspace

variable {w v : Workspace} {T : DocumentId → Planted} {d : Document} {id : DocumentId} {c : Call}

/-! ### Edits and undo in terms of a document -/

/-- What changing a document comes to. -/
theorem edit_cases {change : Document → Forest → Except Fault (Forest × Document)}
    (hv : w.edit id change = .ok v) :
    (w.documents[id]? = none ∧ v = w) ∨ ∃ d r, w.documents[id]? = some d ∧
      change d w.forest = .ok r ∧ v = ⟨r.1, w.documents.setIfInBounds id r.2⟩ := by
  rw [edit] at hv
  cases hd : w.documents[id]? with
  | none =>
      rw [hd] at hv
      exact .inl ⟨rfl, (Except.ok.inj hv).symm⟩
  | some d =>
      rw [hd] at hv
      cases hr : change d w.forest with
      | error e => simp [hr, bind, Except.bind] at hv
      | ok r =>
          simp only [hr, bind, Except.bind, pure, Except.pure, Except.ok.injEq] at hv
          exact .inr ⟨d, r, rfl, hr, hv.symm⟩

/-- A change of a document that succeeds replaces the forest and this document, and no other. -/
theorem edit_eq_ok {change : Document → Forest → Except Fault (Forest × Document)}
    (hd : w.documents[id]? = some d) {r : Forest × Document} (hr : change d w.forest = .ok r) :
    w.edit id change = .ok ⟨r.1, w.documents.setIfInBounds id r.2⟩ := by
  rw [edit, hd]
  simp [hr, bind, Except.bind, pure, Except.pure]

/-- Nothing changes if a document is put where it is. -/
theorem setIfInBounds_eq_self {ds : Array Document} (hd : ds[id]? = some d) :
    ds.setIfInBounds id d = ds := by
  refine Array.ext_getElem? fun i => ?_
  obtain ⟨hid, -⟩ := Array.getElem?_eq_some_iff.1 hd
  rw [Array.getElem?_setIfInBounds]
  by_cases hi : id = i
  · rw [if_pos hi, if_pos hid, ← hi, hd]
  · rw [if_neg hi]

/-- Undo takes back the latest edit of the document. -/
theorem undo_eq_some (hv : w.undo id = some v) :
    ∃ d e history, w.documents[id]? = some d ∧ d.history = e :: history ∧
      v = ⟨e.inverse.run w.forest, w.documents.setIfInBounds id { d with history }⟩ := by
  rw [undo] at hv
  cases hd : w.documents[id]? with
  | none => simp [hd] at hv
  | some d =>
      cases hh : d.history with
      | nil => simp [hd, Document.undo, hh] at hv
      | cons e history =>
          simp only [hd, Document.undo, hh, Option.bind_eq_bind, Option.bind_some, pure,
            Option.some.injEq] at hv
          exact ⟨d, e, history, rfl, hh, hv.symm⟩

/-- What creating a comment comes to. -/
theorem attempt_createComment_eq_ok {text : String}
    (hv : w.attempt id (.createComment text) = .ok v) :
    ∃ t, w.forest.addComment text = .ok (w.forest.addLeaf t) ∧
      v = ⟨(w.forest.addLeaf t).1, w.documents⟩ := by
  rw [attempt] at hv
  cases hadd : w.forest.addComment text with
  | error e => simp [hadd, Except.map] at hv
  | ok r =>
      obtain ⟨t, -, -, rfl⟩ := Forest.addComment_eq_ok hadd
      simp only [hadd, Except.map, Except.ok.injEq] at hv
      exact ⟨t, rfl, hv.symm⟩

/-! ### Opening and locking -/

/-- The document that is opened comes behind the others. -/
theorem documents_open_cases {text name : String} {writable : Bool}
    (hd : (w.open text name writable).documents[id]? = some d) :
    id = w.documents.size ∧ d = ⟨name, writable, text, w.forest.size, []⟩ ∨
      id ≠ w.documents.size ∧ w.documents[id]? = some d := by
  have hpush : (w.documents.push ⟨name, writable, text, w.forest.size, []⟩)[id]? = some d := hd
  rw [Array.getElem?_push] at hpush
  split at hpush
  · next hi => exact .inl ⟨hi, (Option.some.inj hpush).symm⟩
  · next hi => exact .inr ⟨hi, hpush⟩

/-- A document that there is has another number than the next one to be opened. -/
theorem ne_size_of_documents (hd : w.documents[id]? = some d) : id ≠ w.documents.size := by
  obtain ⟨hi, -⟩ := Array.getElem?_eq_some_iff.1 hd
  exact Nat.ne_of_lt hi

/-- The documents that there were keep their place. -/
theorem documents_open_of_documents (hd : w.documents[id]? = some d) (text name : String)
    (writable : Bool) : (w.open text name writable).documents[id]? = some d := by
  show (w.documents.push ⟨name, writable, text, w.forest.size, []⟩)[id]? = some d
  rw [Array.getElem?_push, if_neg (ne_size_of_documents hd), hd]

/-- A document tends the tree that it was opened with. -/
theorem tends_open (w : Workspace) (text name : String) (writable : Bool) :
    Document.Tends ⟨name, writable, text, w.forest.size, []⟩ (w.open text name writable).forest
      ((Tree.parse text).plantedFrom w.forest.size) where
  holds := Forest.holds_plant _ _
  root := ⟨_, rfl⟩
  ledger := .nil
  known := fun x hx => (Forest.holds_plant _ _).stores.lt_size x (by
    simpa [Document.names] using hx)

/-- **Opening a document** leaves the others alone. -/
theorem Tended.opened (h : w.Tended T) (text name : String) (writable : Bool) :
    (w.open text name writable).Tended
      (Function.update T w.documents.size ((Tree.parse text).plantedFrom w.forest.size)) := by
  have hget : ∀ x < w.forest.size, (w.open text name writable).forest.get? x =
      w.forest.get? x := fun x hx => Forest.get?_plant hx
  have hsize : (w.open text name writable).forest.size = w.forest.size + (Tree.parse text).size :=
    Forest.size_plant _ _
  have hnew : ∀ x ∈ Document.names ⟨name, writable, text, w.forest.size, []⟩
      ((Tree.parse text).plantedFrom w.forest.size), w.forest.size ≤ x := by
    intro x hx
    rw [Document.names, List.flatMap_nil, List.append_nil, Tree.mem_ids_plantedFrom] at hx
    exact hx.1
  have hold : ∀ (i : DocumentId) (e : Document), w.documents[i]? = some e →
      ∀ x ∈ e.names (T i), x < w.forest.size := fun i e he => (h.tends i e he).known
  constructor
  · intro i e he
    rcases documents_open_cases he with ⟨rfl, rfl⟩ | ⟨hi, he⟩
    · rw [Function.update_self]
      exact tends_open w text name writable
    · rw [Function.update_of_ne hi]
      refine (h.tends i e he).congr (hsize ▸ Nat.le_add_right _ _) ?_ ?_
      · exact fun x hx => hget x (hold i e he x (Document.mem_names_of_ids hx))
      · intro x t ht
        rw [← ht, Forest.token?, Forest.token?, hget x (Forest.lt_size_of_token? ht)]
  · intro i j e e' hij he he' x hx
    rcases documents_open_cases he with ⟨rfl, rfl⟩ | ⟨hi, he⟩
    · rcases documents_open_cases he' with ⟨rfl, -⟩ | ⟨hj, he'⟩
      · exact absurd rfl hij
      · rw [Function.update_self] at hx
        rw [Function.update_of_ne hj]
        exact fun hx' => absurd (hold j e' he' x hx') (Nat.not_lt.2 (hnew x hx))
    · rw [Function.update_of_ne hi] at hx
      rcases documents_open_cases he' with ⟨rfl, rfl⟩ | ⟨hj, he'⟩
      · rw [Function.update_self]
        exact fun hx' => absurd (hold i e he x hx) (Nat.not_lt.2 (hnew x hx'))
      · rw [Function.update_of_ne hj]
        exact h.disjoint i j e e' hij he he' x hx
  · intro x hx hn
    have hout := hn w.documents.size _ Array.getElem?_push_size
    rw [Function.update_self, Tree.mem_ids_plantedFrom] at hout
    have hlt : x < w.forest.size := by
      by_contra hge
      exact hout ⟨Nat.le_of_not_lt hge, hsize ▸ hx⟩
    obtain ⟨t, ht⟩ := h.rest x hlt fun i e he => by
      have := hn i e (documents_open_of_documents he text name writable)
      rwa [Function.update_of_ne (ne_size_of_documents he)] at this
    exact ⟨t, (hget x hlt).trans ht⟩

/-- Allowing or forbidding edits changes neither trees nor histories. -/
theorem Tended.setWritable (h : w.Tended T) (id : DocumentId) (writable : Bool) :
    (w.setWritable id writable).Tended T := by
  have look : ∀ (i : DocumentId) (e : Document),
      (w.setWritable id writable).documents[i]? = some e →
      ∃ e', w.documents[i]? = some e' ∧ e.root = e'.root ∧ e.history = e'.history := by
    intro i e he
    simp only [Workspace.setWritable, Array.getElem?_modify] at he
    split at he
    · obtain ⟨e', he', rfl⟩ := Option.map_eq_some_iff.1 he
      exact ⟨e', he', rfl, rfl⟩
    · exact ⟨e, he, rfl, rfl⟩
  constructor
  · intro i e he
    obtain ⟨e', he', hroot, hhistory⟩ := look i e he
    have ht := h.tends i e' he'
    refine ⟨ht.holds, hroot ▸ ht.root, hhistory ▸ ht.ledger, ?_⟩
    intro x hx
    rw [Document.names, hhistory] at hx
    exact ht.known x hx
  · intro i j e e' hij he he' x hx
    obtain ⟨d, hd, -, hdh⟩ := look i e he
    obtain ⟨d', hd', -, hdh'⟩ := look j e' he'
    rw [Document.names, hdh] at hx
    rw [Document.names, hdh']
    exact h.disjoint i j d d' hij hd hd' x hx
  · intro x hx hn
    refine h.rest x hx fun i e he => ?_
    by_cases hi : id = i
    · exact hn i { e with writable } (by simp [Workspace.setWritable, Array.getElem?_modify, hi, he])
    · exact hn i e (by simp [Workspace.setWritable, Array.getElem?_modify, hi, he])

/-! ### Calls -/

/-- The call stays in its document: what it inserts stands nowhere, and no other document took it
out; and it inserts that before an element of the document. -/
structure Proper (w : Workspace) (id : DocumentId) (c : Call) : Prop where
  offers : w.Offers c
  fresh : ∀ x ∈ c.inserted?, ∀ (j : DocumentId) (d : Document), j ≠ id →
    w.documents[j]? = some d → ∀ e ∈ d.history, x ∉ e.ids
  own : ∀ x ∈ c.anchor?, w.ownerOf? x = some id

/-- A fresh leaf is named by no other document. -/
theorem Tended.notMem_names (h : w.Tended T) {comment : ElementId}
    (hc : w.forest.Detached comment) (hd : w.documents[id]? = some d)
    (hfresh : ∀ e ∈ d.history, comment ∉ e.ids) : comment ∉ d.names (T id) := by
  intro hm
  rw [Document.names, List.mem_append, List.mem_flatMap] at hm
  rcases hm with hm | ⟨e, he, hm⟩
  · obtain ⟨t, ht⟩ := hc.get?_eq
    have htends := h.tends id d hd
    obtain ⟨ps, hps⟩ := htends.root
    have hholds := htends.holds
    rw [hps] at hholds hm
    exact @Forest.Holds.notMem_of_detached _ [] _ _ _ hholds _ _ ht hm
  · exact hfresh e he hm

/-- The change that a proper call makes inserts its comment and a new leaf, or the new leaf
alone. -/
theorem Tended.change_addLeaf (h : w.Tended T) (hc : w.Proper id c)
    (hd : w.documents[id]? = some d) {ch : Change} {t : Token}
    (hallows : (w.forest.addLeaf t).1.Allows ch) (hsource : T id = ch.source)
    (hinserted : ∀ x ∈ ch.inserted.map Prod.fst, x = w.forest.size ∨ x ∈ c.inserted?) :
    ∃ T', Tended ⟨ch.edit.run (w.forest.addLeaf t).1,
      w.documents.setIfInBounds id (d.recorded ch.edit)⟩ T' := by
  refine ⟨_, (h.grows (Forest.grows_addLeaf w.forest t)).recorded hd hallows hsource ?_⟩
  intro j e hj he x hx
  rcases hinserted x hx with rfl | hx
  · exact fun hm => Nat.lt_irrefl _ ((h.tends j e he).known _ hm)
  · exact h.notMem_names (hc.offers x hx) he (hc.fresh x hx j e hj he)

/-- **A proper call keeps the documents independent.** -/
theorem Tended.attempt (h : w.Tended T) (hc : w.Proper id c) (hv : w.attempt id c = .ok v) :
    ∃ T', v.Tended T' := by
  cases c with
  | createComment text =>
      obtain ⟨t, -, rfl⟩ := attempt_createComment_eq_ok hv
      exact ⟨T, h.grows (Forest.grows_addLeaf _ t)⟩
  | insertBefore comment anchor =>
      simp only [Workspace.attempt] at hv
      rcases edit_cases hv with ⟨-, rfl⟩ | ⟨d, r, hd, hr, rfl⟩
      · exact ⟨T, h⟩
      obtain ⟨t, ht⟩ := (hc.offers comment rfl).get?_eq
      have hholds := (h.tends id d hd).holds
      obtain ⟨d', hd', hm⟩ := h.ownerOf?_eq_some_iff.1 (hc.own anchor rfl)
      obtain ⟨cs, q, hp, rfl⟩ := Planted.exists_place hm
      rw [hp] at hholds
      cases cs with
      | nil =>
          -- nothing is inserted before the root
          have hparent := hholds.parent?_eq
          simp [Document.insertBefore, hparent, Place.parent?] at hr
      | cons b bs =>
          have hwritable := Document.writable_of_insertBefore hr
          rw [Document.insertBefore_eq hholds hwritable (comment, t), Except.ok.injEq] at hr
          subst hr
          refine h.change_addLeaf hc hd
            (Forest.Holds.allows_addLeaf (by simpa using hholds) rfl ht) (by simpa using hp) ?_
          simp [Change.insertion, Call.inserted?]
  | insertAtStart comment =>
      simp only [Workspace.attempt] at hv
      rcases edit_cases hv with ⟨-, rfl⟩ | ⟨d, r, hd, hr, rfl⟩
      · exact ⟨T, h⟩
      obtain ⟨t, ht⟩ := (hc.offers comment rfl).get?_eq
      have hholds := (h.tends id d hd).holds
      obtain ⟨ps, hps⟩ := (h.tends id d hd).root
      rw [hps] at hholds
      have hwritable := Document.writable_of_insertAtStart hr
      rw [Document.insertAtStart_eq .file ps hwritable (comment, t), Except.ok.injEq] at hr
      subst hr
      refine h.change_addLeaf hc hd
        (Forest.Holds.allows_addLeaf (by simpa using hholds) rfl ht) (by simpa using hps) ?_
      simp [Change.opening, Call.inserted?]
  | replaceComment comment text =>
      simp only [Workspace.attempt] at hv
      rcases edit_cases hv with ⟨-, rfl⟩ | ⟨d, r, hd, hr, rfl⟩
      · exact ⟨T, h⟩
      have hm := (h.mem_iff_top hd).2 (Document.asked_of_replaceComment hr).2.1
      have hholds := (h.tends id d hd).holds
      obtain ⟨b, bs, x, hp, rfl, hx⟩ := hholds.exists_comment hm hr
      obtain ⟨t, ht, hl⟩ := Document.replaceComment_eq_ok hr
      have hwritable := Document.writable_of_replaceComment hr
      have hroot := (h.tends id d hd).id_eq
      rw [hp] at hholds hroot
      rw [Document.replaceComment_eq hholds hroot hwritable hx ht hl, Except.ok.injEq] at hr
      subst hr
      refine h.change_addLeaf hc hd
        (Forest.Holds.allows_replacement (by simpa using hholds) rfl) (by simpa using hp) ?_
      simp [Change.replacement]
  | undo =>
      simp only [Workspace.attempt, Except.ok.injEq] at hv
      cases hu : w.undo id with
      | none =>
          rw [hu, Option.getD_none] at hv
          exact ⟨T, hv ▸ h⟩
      | some u =>
          rw [hu, Option.getD_some] at hv
          subst hv
          obtain ⟨d, e, history, hd, hh, rfl⟩ := undo_eq_some hu
          obtain ⟨p, hp⟩ := h.undone hd hh
          exact ⟨_, hp⟩

/-! ### Suppression actions -/

/-- With a new comment, the rest of an action is a call on the workspace that has the comment. -/
theorem attempt_of_addComment (hd : w.documents[id]? = some d) {text : String} {t : Token}
    (hadd : w.forest.addComment text = .ok (w.forest.addLeaf t)) {r : Forest × Document} :
    ∃ u, w.attempt id (.createComment text) = .ok u ∧
      (d.insertAtStart (w.forest.addLeaf t).1 w.forest.size = .ok r →
        u.attempt id (.insertAtStart w.forest.size) =
          .ok ⟨r.1, w.documents.setIfInBounds id r.2⟩) ∧
      ∀ container, d.insertBefore (w.forest.addLeaf t).1 w.forest.size container = .ok r →
        u.attempt id (.insertBefore w.forest.size container) =
          .ok ⟨r.1, w.documents.setIfInBounds id r.2⟩ := by
  refine ⟨⟨(w.forest.addLeaf t).1, w.documents⟩, by simp [attempt, hadd, Except.map], ?_, ?_⟩
  · intro hr
    exact @edit_eq_ok ⟨(w.forest.addLeaf t).1, w.documents⟩ d id
      (fun d f => d.insertAtStart f w.forest.size) hd r hr
  · intro container hr
    exact @edit_eq_ok ⟨(w.forest.addLeaf t).1, w.documents⟩ d id
      (fun d f => d.insertBefore f w.forest.size container) hd r hr

/-- Suppressing in a file creates a comment and inserts it at the start. -/
theorem suppressInFile_eq_ok (hd : w.documents[id]? = some d) {s : Settings} {check : String}
    {r : Forest × Document} (hr : d.suppressInFile w.forest s check = .ok r) :
    ∃ text u, w.attempt id (.createComment text) = .ok u ∧
      u.attempt id (.insertAtStart w.forest.size) =
        .ok ⟨r.1, w.documents.setIfInBounds id r.2⟩ := by
  rw [Document.suppressInFile] at hr
  cases hadd : w.forest.addComment (s.comment check) with
  | error e => simp [hadd, bind, Except.bind] at hr
  | ok a =>
      obtain ⟨t, -, -, rfl⟩ := Forest.addComment_eq_ok hadd
      simp only [hadd, bind, Except.bind] at hr
      obtain ⟨u, hu, hstart, -⟩ := @attempt_of_addComment w d id hd _ _ hadd r
      exact ⟨_, u, hu, hstart hr⟩

/-- Suppressing before a container changes nothing, replaces a comment, or creates one and inserts
it there. -/
theorem suppressBefore_eq_ok (hd : w.documents[id]? = some d) {s : Settings} {check : String}
    {container : ElementId} {r : Forest × Document}
    (hr : d.suppressBefore w.forest s check container = .ok r) :
    r = (w.forest, d) ∨
      (∃ comment text, w.attempt id (.replaceComment comment text) =
        .ok ⟨r.1, w.documents.setIfInBounds id r.2⟩) ∨
      ∃ text u, w.attempt id (.createComment text) = .ok u ∧
        u.attempt id (.insertBefore w.forest.size container) =
          .ok ⟨r.1, w.documents.setIfInBounds id r.2⟩ := by
  rw [Document.suppressBefore] at hr
  simp only at hr
  split at hr
  · split at hr
    · exact .inl (Except.ok.inj hr).symm
    · next comment directive _ _ =>
      refine .inr (.inl ⟨comment, (directive.withId check).render s.marker, ?_⟩)
      rw [attempt]
      exact edit_eq_ok hd hr
  · cases hf : w.forest.faultOf (w.forest.leadingComments .beforeNode container).stop with
    | error e => simp [hf, bind, Except.bind] at hr
    | ok _ =>
        cases hadd : w.forest.addComment (s.comment check) with
        | error e => simp [hf, hadd, bind, Except.bind] at hr
        | ok a =>
            obtain ⟨t, -, -, rfl⟩ := Forest.addComment_eq_ok hadd
            simp only [hf, hadd, bind, Except.bind] at hr
            obtain ⟨u, hu, -, hbefore⟩ := @attempt_of_addComment w d id hd _ _ hadd r
            exact .inr (.inr ⟨_, u, hu, hbefore container hr⟩)

/-- **A suppression action is made of calls** on the document of a container. -/
theorem apply_eq_ok {s : Settings} {a : Action} {element? : Option ElementId}
    (hv : w.apply s a element? = .ok v) :
    v = w ∨ ∃ id container, w.ownerOf? container = some id ∧
      ((∃ comment text, w.attempt id (.replaceComment comment text) = .ok v) ∨
        ∃ text u, w.attempt id (.createComment text) = .ok u ∧
          (u.attempt id (.insertAtStart w.forest.size) = .ok v ∨
            u.attempt id (.insertBefore w.forest.size container) = .ok v)) := by
  rw [apply] at hv
  cases hk : a.container? w.forest element? with
  | none =>
      rw [hk] at hv
      exact .inl (Except.ok.inj hv).symm
  | some container =>
      cases ho : w.ownerOf? container with
      | none =>
          simp only [hk, ho] at hv
          exact .inl (Except.ok.inj hv).symm
      | some id =>
          simp only [hk, ho] at hv
          rcases edit_cases hv with ⟨-, rfl⟩ | ⟨d, r, hd, hr, rfl⟩
          · exact .inl rfl
          · cases hw : d.writable with
            | false => simp [hw] at hr
            | true =>
                simp only [hw, Bool.not_true, Bool.false_eq_true, if_false] at hr
                split at hr
                · obtain ⟨text, u, hu, hv⟩ := suppressInFile_eq_ok hd hr
                  exact .inr ⟨id, container, ho, .inr ⟨text, u, hu, .inl hv⟩⟩
                · rcases suppressBefore_eq_ok hd hr with rfl | h | ⟨text, u, hu, hv⟩
                  · exact .inl (by rw [setIfInBounds_eq_self hd])
                  · exact .inr ⟨id, container, ho, .inl h⟩
                  · exact .inr ⟨id, container, ho, .inr ⟨text, u, hu, .inr hv⟩⟩

/-- **A suppression action keeps the documents independent.** -/
theorem Tended.apply (h : w.Tended T) {s : Settings} {a : Action} {element? : Option ElementId}
    (hv : w.apply s a element? = .ok v) : ∃ T', v.Tended T' := by
  rcases apply_eq_ok hv with rfl | ⟨id, container, ho, ⟨comment, text, hr⟩ | ⟨text, u, hu, hr⟩⟩
  · exact ⟨T, h⟩
  · exact h.attempt ⟨by simp [Offers, Call.inserted?], by simp [Call.inserted?],
      by simp [Call.anchor?]⟩ hr
  · obtain ⟨t, -, rfl⟩ := attempt_createComment_eq_ok hu
    have hu := h.grows (Forest.grows_addLeaf w.forest t)
    -- the comment is new
    have hdetached : (w.forest.addLeaf t).1.Detached w.forest.size := by
      simp [Forest.Detached, Forest.isLeaf, Forest.token?, Forest.parent?, Forest.get?_addLeaf]
    have hfresh : ∀ (j : DocumentId) (d : Document), w.documents[j]? = some d →
        ∀ e ∈ d.history, w.forest.size ∉ e.ids := by
      intro j d hd e he hm
      refine Nat.lt_irrefl _ ((h.tends j d hd).known w.forest.size ?_)
      exact List.mem_append_right _ (List.mem_flatMap.2 ⟨e, he, hm⟩)
    have hown : Workspace.ownerOf? ⟨(w.forest.addLeaf t).1, w.documents⟩ container = some id :=
      hu.ownerOf?_eq_some_iff.2 (h.ownerOf?_eq_some_iff.1 ho)
    have hproper : ∀ c : Call, c.inserted? = some w.forest.size →
        (∀ x ∈ c.anchor?, x = container) →
        Proper ⟨(w.forest.addLeaf t).1, w.documents⟩ id c := by
      intro c hc ha
      constructor
      · intro x hx
        rw [hc] at hx
        exact Option.some.inj hx ▸ hdetached
      · intro x hx j d _ hd e he
        rw [hc] at hx
        exact Option.some.inj hx ▸ hfresh j d hd e he
      · intro x hx
        exact ha x hx ▸ hown
    rcases hr with hr | hr
    · exact hu.attempt (hproper _ rfl (by simp [Call.anchor?])) hr
    · exact hu.attempt (hproper _ rfl (by simp [Call.anchor?])) hr

/-- A workspace that opening documents, calls that stay in their documents and suppression actions
lead to, whichever of them fail. -/
inductive Shared : Workspace → Prop
  | empty : Shared empty
  | opened {w : Workspace} (text name : String) (writable : Bool) :
    Shared w → Shared (w.open text name writable)
  | locked {w : Workspace} (id : DocumentId) (writable : Bool) :
    Shared w → Shared (w.setWritable id writable)
  | called {w : Workspace} {id : DocumentId} {c : Call} :
    Shared w → w.Proper id c → Shared (w.call id c)
  | applied {w : Workspace} (s : Settings) (a : Action) (element? : Option ElementId) :
    Shared w → Shared (w.settle (w.apply s a element?))

/-- **The documents of a shared workspace are independent.** -/
theorem Shared.tended (h : w.Shared) : ∃ T, w.Tended T := by
  induction h with
  | empty => exact ⟨_, tended_empty⟩
  | opened text name writable _ ih =>
      obtain ⟨T, h⟩ := ih
      exact ⟨_, h.opened text name writable⟩
  | locked id writable _ ih =>
      obtain ⟨T, h⟩ := ih
      exact ⟨T, h.setWritable id writable⟩
  | @called w id c _ hc ih =>
      obtain ⟨T, h⟩ := ih
      rcases w.settle_cases (w.attempt id c) with hw | hv
      · rw [call, hw]
        exact ⟨T, h⟩
      · exact h.attempt hc hv
  | @applied w s a element? _ ih =>
      obtain ⟨T, h⟩ := ih
      rcases w.settle_cases (w.apply s a element?) with hw | hv
      · rw [hw]
        exact ⟨T, h⟩
      · exact h.apply hv

end Workspace

end BnfSuppression
