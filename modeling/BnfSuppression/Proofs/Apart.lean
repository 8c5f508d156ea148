import BnfSuppression.Proofs.Shared

/-!
# Edits of One Document and the Others

The calls on a document change the forest that all documents share. This module says which of them
leave another document as it is. Undo takes back edits of the document alone, and replacing a
comment checks that the document has it; but what is inserted before an element goes into whatever
tree has that element, and is recorded in the history of the document that was called. So the
insertions before elements of the other document are exactly the calls that change it.

## Main definitions

* `Workspace.Keeps`: a document is as it was.
* `Workspace.Intrudes`: a call inserts something into another document.
* `Workspace.Apart`: what keeps the edits of one document away from another one's tree.

## Main results

* `Workspace.Apart.attempt`: **a call that does not intrude leaves the other document as it is**.
* `Workspace.Apart.text_ne`: a call that intrudes changes its text.
* `Workspace.Shared.keeps_iff_respects`: **calls on one document keep another exactly if none of
  them intrudes**.
-/

namespace BnfSuppression

open Planted (plug Place Change)

/-- A change that only inserts makes the text longer by what it inserts. -/
theorem Planted.Change.length_text {c : Change} (h : c.removed = []) :
    c.target.tree.text.length = c.source.tree.text.length + (Forest.charsOf c.inserted).length := by
  rw [← String.length_toList, ← String.length_toList, Planted.toList_tree_text,
    Planted.toList_tree_text, c.leaves_source, c.leaves_target, h]
  simp only [Forest.charsOf, List.flatMap_append, List.length_append, List.flatMap_nil,
    List.length_nil]
  omega

/-! ### Edits away from a tree -/

namespace Edit

variable {e : Edit} {f : Forest} {x y : ElementId}

/-- An edit and the one that takes it back name the same elements. -/
@[simp]
theorem mem_ids_inverse : x ∈ e.inverse.ids ↔ x ∈ e.ids := by
  simp only [ids, inverse, List.mem_cons, List.mem_append]
  tauto

/-- After an edit an element names the composite of the edit, or the parent that it named. -/
theorem parent?_run_eq_some (h : (e.run f).parent? x = some y) :
    y = e.parent ∨ f.parent? x = some y := by
  simp only [Forest.parent?, get?_run] at h ⊢
  cases hx : f.get? x with
  | none => simp [hx] at h
  | some d =>
      simp only [hx, Option.map_some, Option.bind_some, Forest.spliced] at h ⊢
      split at h
      · exact .inl (Option.some.inj h).symm
      · split at h
        · simp at h
        · exact .inr h

end Edit

namespace Workspace

variable {w v : Workspace} {a b : DocumentId} {p : Planted} {c : Call} {calls : List Call}
  {d : Document} {e : Edit}

/-! ### A document as it was -/

/-- A document is in the second workspace as it is in the first: its record, which has its history,
its text, and its tree with all elements. -/
structure Keeps (b : DocumentId) (w v : Workspace) : Prop where
  document : v.documents[b]? = w.documents[b]?
  text : v.text b = w.text b
  below : ∀ d : Document, w.documents[b]? = some d → v.forest.below d.root = w.forest.below d.root
  elements : ∀ d : Document, w.documents[b]? = some d → ∀ x ∈ w.forest.below d.root,
    v.forest.get? x = w.forest.get? x

/-- Doing nothing keeps a document as it is. -/
theorem Keeps.refl (b : DocumentId) (w : Workspace) : Keeps b w w :=
  ⟨rfl, rfl, fun _ _ => rfl, fun _ _ _ _ => rfl⟩

/-- If two steps keep a document each, then so do the two in a row. -/
theorem Keeps.trans {u : Workspace} (h₁ : Keeps b u w) (h₂ : Keeps b w v) : Keeps b u v where
  document := h₂.document.trans h₁.document
  text := h₂.text.trans h₁.text
  below := fun d hd => (h₂.below d (h₁.document.trans hd)).trans (h₁.below d hd)
  elements := by
    intro d hd x hx
    have hd' := h₁.document.trans hd
    exact (h₂.elements d hd' x (h₁.below d hd ▸ hx)).trans (h₁.elements d hd x hx)

/-- A call on a document inserts something before an element of the other document. -/
def Intrudes (w : Workspace) (a b : DocumentId) (c : Call) : Prop :=
  (∃ x ∈ c.anchor?, w.ownerOf? x = some b) ∧ (w.attempt a c).isOk = true

instance (w : Workspace) (a b : DocumentId) (c : Call) : Decidable (w.Intrudes a b c) :=
  inferInstanceAs (Decidable (_ ∧ _))

/-- The text of a document whose tree is held. -/
theorem text_eq_of_holds (hd : w.documents[b]? = some d) (hp : w.forest.Holds p)
    (hid : p.id = d.root) : w.text b = p.tree.text := by
  rw [text, hd, Option.map_some, Option.getD_some, Document.text, ← hid, hp.text_eq]

/-! ### Documents that are apart -/

/-- The second document has the tree, and neither the first document's tree nor its history nor the
parent of any element outside lead into that tree. -/
structure Apart (w : Workspace) (a b : DocumentId) (p : Planted) : Prop where
  ne : a ≠ b
  exists_document : ∃ d, w.documents[a]? = some d
  home : ∃ d ps, w.documents[b]? = some d ∧ p = .node d.root .file ps
  holds : w.forest.Holds p
  /-- Only elements of the tree name an element of the tree as their parent. -/
  away : ∀ x, ∀ y ∈ p.ids, w.forest.parent? x = some y → x ∈ p.ids
  /-- No other document has its root in the tree. -/
  only : ∀ (i : DocumentId) (d : Document), w.documents[i]? = some d → d.root ∈ p.ids → i = b
  /-- What undo takes back is elsewhere. -/
  history : ∀ d : Document, w.documents[a]? = some d → ∀ e ∈ d.history, ∀ x ∈ e.ids, x ∉ p.ids

/-- The documents of a tended workspace are apart. -/
theorem Tended.apart {T : DocumentId → Planted} (h : w.Tended T) (hab : a ≠ b)
    (ha : a < w.documents.size) (hb : b < w.documents.size) : w.Apart a b (T b) := by
  have hda : w.documents[a]? = some w.documents[a] := Array.getElem?_eq_getElem ha
  have hdb : w.documents[b]? = some w.documents[b] := Array.getElem?_eq_getElem hb
  have htends := h.tends b _ hdb
  refine ⟨hab, ⟨_, hda⟩, ?_, htends.holds, ?_, ?_, ?_⟩
  · obtain ⟨ps, hps⟩ := htends.root
    exact ⟨_, ps, hdb, hps⟩
  · intro x y hy hxy
    by_contra hx
    by_cases hin : ∃ (i : DocumentId) (d : Document), w.documents[i]? = some d ∧ x ∈ (T i).ids
    · -- the parent of an element is in the same tree
      obtain ⟨i, d, hd, hxi⟩ := hin
      have hyi : y ∈ (T i).ids := by
        obtain ⟨cs, q, hp, rfl⟩ := Planted.exists_place hxi
        have hholds := (h.tends i d hd).holds
        rw [hp] at hholds ⊢
        rw [hholds.parent?_eq] at hxy
        cases cs with
        | nil => simp [Place.parent?] at hxy
        | cons c cs =>
            obtain rfl : c.id = y := by simpa [Place.parent?] using hxy
            exact Planted.id_mem_plug cs (.node c.id c.type (c.left ++ q :: c.right))
      exact hx (h.eq_of_mem hd hdb hyi hy ▸ hxi)
    · push Not at hin
      rw [(h.top_of_notMem hin).1] at hxy
      simp at hxy
  · intro i d hd hroot
    exact h.eq_of_mem hd hdb (h.root_mem hd) hroot
  · intro d hd e he x hx hm
    have hnamed : x ∈ d.names (T a) :=
      List.mem_append_right _ (List.mem_flatMap.2 ⟨e, he, hx⟩)
    exact h.disjoint a b d _ hab hd hdb x hnamed (Document.mem_names_of_ids hm)

namespace Apart

/-- A document whose elements are as they were is kept. -/
theorem keeps (h : w.Apart a b p) (hd : v.documents[b]? = w.documents[b]?)
    (hv : ∀ x ∈ p.ids, v.forest.get? x = w.forest.get? x) : Keeps b w v := by
  obtain ⟨d, ps, hb, rfl⟩ := h.home
  have hv' : v.forest.Holds (.node d.root .file ps) := ⟨h.holds.stores.congr hv, h.holds.nodup⟩
  refine ⟨hd, ?_, ?_, ?_⟩
  · rw [text_eq_of_holds (hd.trans hb) hv' rfl, text_eq_of_holds hb h.holds rfl]
  · intro d' hd'
    obtain rfl : d = d' := Option.some.inj (hb.symm.trans hd')
    exact hv'.below_eq.trans h.holds.below_eq.symm
  · intro d' hd' x hx
    obtain rfl : d = d' := Option.some.inj (hb.symm.trans hd')
    exact hv x (h.holds.below_eq ▸ hx)

/-- What is around an element of the tree is an element of the tree. -/
theorem mem_of_ancestors (h : w.Apart a b p) {x y : ElementId} {height : Nat}
    (hy : y ∈ w.forest.ancestorsUpTo height x) (hp : y ∈ p.ids) : x ∈ p.ids := by
  induction height generalizing x with
  | zero => simp [Forest.ancestorsUpTo] at hy
  | succ height ih =>
      rw [Forest.ancestorsUpTo] at hy
      rcases List.mem_cons.1 hy with rfl | hy
      · exact hp
      · cases hx : w.forest.parent? x with
        | none => simp [hx] at hy
        | some z =>
            simp only [hx, Option.map_some, Option.getD_some] at hy
            exact h.away x z (ih hy) hx

/-- **The elements of the tree are those that the document owns.** -/
theorem ownerOf?_eq_some_iff (h : w.Apart a b p) {x : ElementId} :
    w.ownerOf? x = some b ↔ x ∈ p.ids := by
  obtain ⟨d, ps, hb, hp⟩ := h.home
  obtain ⟨hlt, hd⟩ := Array.getElem?_eq_some_iff.1 hb
  have hid : p.id = d.root := by
    rw [hp]
    rfl
  have hroot : d.root ∈ p.ids := hid ▸ p.id_mem_ids
  rw [ownerOf?, Array.findIdx?_eq_some_iff_getElem]
  constructor
  · rintro ⟨_, ht, -⟩
    rw [hd] at ht
    have htop : w.forest.top x ∈ p.ids := (beq_iff_eq.1 ht) ▸ hroot
    rcases List.mem_cons.1 (@List.getLastD_mem_cons _ (w.forest.ancestors x) x) with hx | hx
    · exact (show w.forest.top x = x from hx) ▸ htop
    · exact h.mem_of_ancestors hx htop
  · intro hx
    have htop : w.forest.top x = d.root := by
      obtain ⟨cs, q, rfl, rfl⟩ := Planted.exists_place hx
      exact h.holds.top_eq.trans hid
    refine ⟨hlt, by simp [hd, htop], fun j hj hj' => ?_⟩
    have he : w.documents[j]? = some w.documents[j] := Array.getElem?_eq_getElem (by omega)
    have hsame : w.documents[j].root = w.forest.top x := beq_iff_eq.1 hj'
    exact absurd (h.only j _ he (hsame ▸ htop ▸ hroot)) (Nat.ne_of_lt hj)

/-- A leaf that stands nowhere is not in the tree. -/
theorem notMem_of_detached (h : w.Apart a b p) {x : ElementId} (hx : w.forest.Detached x) :
    x ∉ p.ids := by
  obtain ⟨t, ht⟩ := hx.get?_eq
  obtain ⟨d, ps, -, rfl⟩ := h.home
  exact @Forest.Holds.notMem_of_detached _ [] _ _ _ h.holds _ _ ht

/-- Nor is an element that does not exist yet. -/
theorem size_notMem (h : w.Apart a b p) : w.forest.size ∉ p.ids := fun hm =>
  Nat.lt_irrefl _ (h.holds.stores.lt_size _ hm)

/-- New leaves leave documents apart. -/
theorem grows (h : w.Apart a b p) {g : Forest} (hg : w.forest.Grows g) :
    Apart ⟨g, w.documents⟩ a b p where
  ne := h.ne
  exists_document := h.exists_document
  home := h.home
  holds := h.holds.grows hg
  away := by
    intro x y hy hxy
    by_cases hx : x < w.forest.size
    · exact h.away x y hy (hg.parent?_eq hx ▸ hxy)
    · by_cases hs : x < g.size
      · obtain ⟨t, ht⟩ := hg.new x (Nat.le_of_not_lt hx) hs
        simp [Forest.parent?, ht] at hxy
      · simp [Forest.parent?, Forest.get?_eq_none (Nat.le_of_not_lt hs)] at hxy
  only := h.only
  history := h.history

/-- A forest that only grows keeps every document stored in it. -/
theorem keeps_of_grows (h : w.Apart a b p) {g : Forest} (hg : w.forest.Grows g) :
    Keeps b w ⟨g, w.documents⟩ :=
  @keeps w ⟨g, w.documents⟩ a b p h rfl fun x hx => hg.old x (h.holds.stores.lt_size x hx)

/-- **An edit that names no element of the tree leaves the document as it is**, and the two apart. -/
theorem edited (h : w.Apart a b p) {d d' : Document} (hd : w.documents[a]? = some d)
    (he : ∀ x ∈ e.ids, x ∉ p.ids) (hroot : d'.root = d.root)
    (hhistory : ∀ e' ∈ d'.history, e' = e ∨ e' ∈ d.history) :
    Apart ⟨e.run w.forest, w.documents.setIfInBounds a d'⟩ a b p ∧
      Keeps b w ⟨e.run w.forest, w.documents.setIfInBounds a d'⟩ := by
  have hsame : ∀ x ∈ p.ids, (e.run w.forest).get? x = w.forest.get? x := fun x hx =>
    Edit.get?_run_of_notMem fun hm => he x hm hx
  have hb : (w.documents.setIfInBounds a d')[b]? = w.documents[b]? := by
    rw [Array.getElem?_setIfInBounds, if_neg h.ne]
  obtain ⟨ha, -⟩ := Array.getElem?_eq_some_iff.1 hd
  refine ⟨⟨h.ne, ⟨d', by simp [ha]⟩, ?_, ⟨h.holds.stores.congr hsame, h.holds.nodup⟩, ?_, ?_, ?_⟩,
    h.keeps hb hsame⟩
  · obtain ⟨db, ps, hdb, hp⟩ := h.home
    exact ⟨db, ps, hb.trans hdb, hp⟩
  · intro x y hy hxy
    rcases Edit.parent?_run_eq_some hxy with rfl | hxy
    · exact absurd hy (he _ (by simp [Edit.ids]))
    · exact h.away x y hy hxy
  · intro i di hdi hri
    rcases getElem?_setIfInBounds_cases hd hdi with ⟨rfl, rfl⟩ | ⟨-, hdi⟩
    · exact h.only i d hd (hroot ▸ hri)
    · exact h.only i di hdi hri
  · intro di hdi e' he' x hx
    rcases getElem?_setIfInBounds_cases hd hdi with ⟨-, rfl⟩ | ⟨hne, -⟩
    · rcases hhistory e' he' with rfl | he'
      · exact he x hx
      · exact h.history d hd e' he' x hx
    · exact absurd rfl hne

/-- An edit that a call records, after it created a leaf. -/
theorem recorded (h : w.Apart a b p) (hd : w.documents[a]? = some d) {t : Token}
    {r : Forest × Document} (hr : d.edit (w.forest.addLeaf t).1 e = .ok r)
    (he : ∀ x ∈ e.ids, x ∉ p.ids) :
    Apart ⟨r.1, w.documents.setIfInBounds a r.2⟩ a b p ∧
      Keeps b w ⟨r.1, w.documents.setIfInBounds a r.2⟩ := by
  obtain ⟨-, rfl⟩ := Document.edit_eq_ok hr
  have hg := Forest.grows_addLeaf w.forest t
  obtain ⟨hapart, hkeeps⟩ := (h.grows hg).edited hd he (Document.root_recorded d e)
    fun e' he' => List.mem_cons.1 he'
  exact ⟨hapart, (h.keeps_of_grows hg).trans hkeeps⟩

/-- The composite around an element outside the tree is outside the tree. -/
theorem parent_notMem (h : w.Apart a b p) {x y : ElementId} (hx : x ∉ p.ids)
    (hxy : w.forest.parent? x = some y) : y ∉ p.ids := fun hy => hx (h.away x y hy hxy)

/-- **A call that does not intrude leaves the other document as it is**, and the two apart. -/
theorem attempt (h : w.Apart a b p) (ho : w.Offers c) (hi : ¬ w.Intrudes a b c)
    (hv : w.attempt a c = .ok v) : v.Apart a b p ∧ Keeps b w v := by
  have hok : (w.attempt a c).isOk = true := by
    rw [hv]
    rfl
  cases c with
  | createComment text =>
      obtain ⟨t, -, rfl⟩ := attempt_createComment_eq_ok hv
      have hg := Forest.grows_addLeaf w.forest t
      exact ⟨h.grows hg, h.keeps_of_grows hg⟩
  | insertBefore comment anchor =>
      simp only [Workspace.attempt] at hv
      rcases edit_cases hv with ⟨-, rfl⟩ | ⟨d, r, hd, hr, rfl⟩
      · exact ⟨h, .refl b _⟩
      obtain ⟨parent, index, t, hparent, he⟩ := Document.edit_of_insertBefore hr
      have hanchor : anchor ∉ p.ids := fun hm =>
        hi ⟨⟨anchor, rfl, h.ownerOf?_eq_some_iff.2 hm⟩, hok⟩
      refine h.recorded hd he ?_
      simp only [Edit.ids, List.nil_append, List.mem_cons, List.not_mem_nil, or_false,
        forall_eq_or_imp, forall_eq]
      exact ⟨h.parent_notMem hanchor hparent, h.notMem_of_detached (ho comment rfl), h.size_notMem⟩
  | insertAtStart comment =>
      simp only [Workspace.attempt] at hv
      rcases edit_cases hv with ⟨-, rfl⟩ | ⟨d, r, hd, hr, rfl⟩
      · exact ⟨h, .refl b _⟩
      refine h.recorded hd (Document.edit_of_insertAtStart hr) ?_
      simp only [Edit.ids, List.nil_append, List.mem_cons, List.not_mem_nil, or_false,
        forall_eq_or_imp, forall_eq]
      exact ⟨fun hm => h.ne (h.only a d hd hm), h.notMem_of_detached (ho comment rfl),
        h.size_notMem⟩
  | replaceComment comment text =>
      simp only [Workspace.attempt] at hv
      rcases edit_cases hv with ⟨-, rfl⟩ | ⟨d, r, hd, hr, rfl⟩
      · exact ⟨h, .refl b _⟩
      obtain ⟨parent, index, t, hparent, he⟩ := Document.edit_of_replaceComment hr
      -- the root around an element of the tree is that of the other document
      have hcomment : comment ∉ p.ids := by
        intro hm
        obtain ⟨cs, q, rfl, rfl⟩ := Planted.exists_place hm
        have htop := (Document.asked_of_replaceComment hr).2.1
        rw [h.holds.top_eq] at htop
        exact h.ne (h.only a d hd (htop ▸ Planted.id_mem_ids _))
      refine h.recorded hd he ?_
      simp only [Edit.ids, List.cons_append, List.nil_append, List.mem_cons, List.not_mem_nil,
        or_false, forall_eq_or_imp, forall_eq]
      exact ⟨h.parent_notMem hcomment hparent, hcomment, h.size_notMem⟩
  | undo =>
      simp only [Workspace.attempt, Except.ok.injEq] at hv
      cases hu : w.undo a with
      | none =>
          rw [hu, Option.getD_none] at hv
          exact hv ▸ ⟨h, .refl b w⟩
      | some u =>
          rw [hu, Option.getD_some] at hv
          subst hv
          obtain ⟨d, e, history, hd, hh, rfl⟩ := undo_eq_some hu
          have he : ∀ x ∈ e.inverse.ids, x ∉ p.ids := fun x hx =>
            h.history d hd e (by simp [hh]) x (Edit.mem_ids_inverse.1 hx)
          refine h.edited hd he rfl fun e' he' => .inr ?_
          rw [hh]
          exact List.mem_cons_of_mem _ he'

/-- The same whether the call fails or not. -/
theorem call (h : w.Apart a b p) (ho : w.Offers c) (hi : ¬ w.Intrudes a b c) :
    (w.call a c).Apart a b p ∧ Keeps b w (w.call a c) := by
  rcases w.settle_cases (w.attempt a c) with hw | hv
  · rw [Workspace.call, hw]
    exact ⟨h, .refl b w⟩
  · exact h.attempt ho hi hv

/-- What is inserted before an element of the tree makes the tree longer. -/
theorem exists_longer (h : w.Apart a b p) {comment anchor : ElementId} {t : Token}
    (hm : anchor ∈ p.ids) (ht : w.forest.get? comment = some ⟨.leaf t, none⟩)
    {r : Forest × Document} (hr : d.insertBefore w.forest comment anchor = .ok r) :
    ∃ q, r.1.Holds q ∧ q.id = p.id ∧ p.tree.text.length < q.tree.text.length := by
  obtain ⟨db, ps, -, hroot⟩ := h.home
  have hholds := h.holds
  obtain ⟨cs, q, hp, rfl⟩ := Planted.exists_place hm
  rw [hp] at hholds
  cases cs with
  | nil =>
      -- nothing is inserted before the root
      have hparent := hholds.parent?_eq
      simp [Document.insertBefore, hparent, Place.parent?] at hr
  | cons k ks =>
      let ch := Change.insertion k ks q
        [(comment, t), (w.forest.size, Document.lineBreak (k :: ks))]
      have hwritable := Document.writable_of_insertBefore hr
      rw [Document.insertBefore_eq hholds hwritable (comment, t), Except.ok.injEq] at hr
      subst hr
      have hsource : ch.source = p := by simp [ch, hp]
      have hallows : (w.forest.addLeaf (Document.lineBreak (k :: ks))).1.Allows ch :=
        Forest.Holds.allows_addLeaf (by rw [hsource]; exact h.holds) rfl ht
      refine ⟨ch.target, hallows.holds_run, ?_, ?_⟩
      · obtain ⟨ps', hps'⟩ := Change.target_eq_node (hsource.trans hroot)
        rw [hps', hroot]
        rfl
      · have hlength := @Change.length_text ch rfl
        have hbreak : '\n' ∈ Forest.charsOf ch.inserted := by
          simp [ch, Change.insertion, Forest.charsOf, Document.lineBreak]
        have hpos := List.length_pos_of_mem hbreak
        rw [hsource] at hlength
        omega

/-- **A call that intrudes changes the text of the other document.** -/
theorem text_ne (h : w.Apart a b p) (ho : w.Offers c) (hi : w.Intrudes a b c) :
    (w.call a c).text b ≠ w.text b := by
  obtain ⟨⟨anchor, ha, howner⟩, hok⟩ := hi
  cases c with
  | createComment text => simp [Call.anchor?] at ha
  | insertAtStart comment => simp [Call.anchor?] at ha
  | replaceComment comment text => simp [Call.anchor?] at ha
  | undo => simp [Call.anchor?] at ha
  | insertBefore comment anchor' =>
      obtain rfl : anchor' = anchor := Option.some.inj ha
      obtain ⟨t, ht⟩ := (ho comment rfl).get?_eq
      cases hv : w.attempt a (.insertBefore comment anchor') with
      | error _ => simp [hv, Except.isOk, Except.toBool] at hok
      | ok v =>
          have hcall : w.call a (.insertBefore comment anchor') = v := by
            simp [Workspace.call, settle, hv, Except.toOption]
          rw [hcall]
          simp only [Workspace.attempt] at hv
          rcases edit_cases hv with ⟨hn, -⟩ | ⟨d, r, hd, hr, rfl⟩
          · obtain ⟨d, hd⟩ := h.exists_document
            simp [hd] at hn
          · obtain ⟨q, hq, hid, hlt⟩ :=
              h.exists_longer (h.ownerOf?_eq_some_iff.1 howner) ht hr
            obtain ⟨db, ps, hdb, hroot⟩ := h.home
            have hdb' : (w.documents.setIfInBounds a r.2)[b]? = some db := by
              rw [Array.getElem?_setIfInBounds, if_neg h.ne, hdb]
            have hpid : p.id = db.root := by
              rw [hroot]
              rfl
            have hnew := @text_eq_of_holds ⟨r.1, w.documents.setIfInBounds a r.2⟩ b q db hdb' hq
              (hid.trans hpid)
            rw [hnew, text_eq_of_holds hdb h.holds hpid]
            exact fun he => Nat.ne_of_gt hlt (congrArg String.length he)

end Apart

/-! ### Sequences of calls -/

/-- What each call inserts is a detached leaf at that time. -/
def OffersAll (a : DocumentId) : Workspace → List Call → Prop
  | _, [] => True
  | w, c :: calls => w.Offers c ∧ OffersAll a (w.call a c) calls

/-- No call inserts something into the other document. -/
def Respects (a b : DocumentId) : Workspace → List Call → Prop
  | _, [] => True
  | w, c :: calls => ¬ w.Intrudes a b c ∧ Respects a b (w.call a c) calls

instance decidableOffersAll (a : DocumentId) :
    (w : Workspace) → (calls : List Call) → Decidable (OffersAll a w calls)
  | _, [] => inferInstanceAs (Decidable True)
  | w, c :: calls => @instDecidableAnd _ _ inferInstance (decidableOffersAll a (w.call a c) calls)

instance decidableRespects (a b : DocumentId) :
    (w : Workspace) → (calls : List Call) → Decidable (Respects a b w calls)
  | _, [] => inferInstanceAs (Decidable True)
  | w, c :: calls => @instDecidableAnd _ _ inferInstance (decidableRespects a b (w.call a c) calls)

/-- **Calls that do not intrude keep the other document** at all times. -/
theorem Apart.keeps_of_respects (h : w.Apart a b p) (ho : OffersAll a w calls)
    (hr : Respects a b w calls) :
    ∀ before, before <+: calls → Keeps b w (w.callAll a before) := by
  induction calls generalizing w with
  | nil =>
      intro before hb
      obtain rfl := List.prefix_nil.1 hb
      exact .refl b w
  | cons c calls ih =>
      intro before hb
      cases before with
      | nil => exact .refl b w
      | cons c' before =>
          obtain ⟨rfl, hrest⟩ := List.cons_prefix_cons.1 hb
          obtain ⟨hapart, hkeeps⟩ := h.call ho.1 hr.1
          exact hkeeps.trans (ih hapart ho.2 hr.2 before hrest)

/-- If the text of the other document is the same at all times, no call intruded. -/
theorem Apart.respects_of_text (h : w.Apart a b p) (ho : OffersAll a w calls)
    (ht : ∀ before, before <+: calls → (w.callAll a before).text b = w.text b) :
    Respects a b w calls := by
  induction calls generalizing w with
  | nil => trivial
  | cons c calls ih =>
      have hfirst : (w.call a c).text b = w.text b :=
        ht [c] (List.cons_prefix_cons.2 ⟨rfl, List.nil_prefix⟩)
      have hi : ¬ w.Intrudes a b c := fun hi => h.text_ne ho.1 hi hfirst
      refine ⟨hi, ih (h.call ho.1 hi).1 ho.2 ?_⟩
      intro before hb
      rw [hfirst]
      exact ht (c :: before) (List.cons_prefix_cons.2 ⟨rfl, hb⟩)

/-- **Calls on one document keep another exactly if none of them intrudes.** Otherwise its text
changes, whether it may be changed or not. -/
theorem Shared.keeps_iff_respects (h : w.Shared) (hab : a ≠ b) (ha : a < w.documents.size)
    (hb : b < w.documents.size) (ho : OffersAll a w calls) :
    ((∀ before, before <+: calls → Keeps b w (w.callAll a before)) ↔ Respects a b w calls) ∧
      ((∀ before, before <+: calls → (w.callAll a before).text b = w.text b) ↔
        Respects a b w calls) := by
  obtain ⟨T, hT⟩ := h.tended
  have hapart := hT.apart hab ha hb
  constructor
  · constructor
    · exact fun hk => hapart.respects_of_text ho fun before hb => (hk before hb).text
    · exact hapart.keeps_of_respects ho
  · constructor
    · exact hapart.respects_of_text ho
    · exact fun hr before hb => (hapart.keeps_of_respects ho hr before hb).text

/-- A comment of a writable document, put before the rule of one that must not be changed. -/
theorem Shared.keeps_iff_respects_of_locked : ∃ w calls, Shared w ∧ OffersAll 0 w calls ∧
    (w.documents[1]?).map Document.writable = some false ∧
    ¬ ∀ before, before <+: calls → (w.callAll 0 before).text 1 = w.text 1 := by
  let w := (Workspace.empty.open "foo ::= bar\n" "a" true).open "baz ::= qux\n" "b" false
  let calls : List Call := [.createComment "// noinspection X", .insertBefore w.forest.size 10]
  have hw : Shared w := .opened _ _ _ (.opened _ _ _ .empty)
  have ho : OffersAll 0 w calls := by decide +kernel
  have hr : ¬ Respects 0 1 w calls := by decide +kernel
  have hsize : w.documents.size = 2 := rfl
  have h := hw.keeps_iff_respects Nat.zero_ne_one (hsize ▸ Nat.zero_lt_two)
    (hsize ▸ Nat.one_lt_two) ho
  exact ⟨w, calls, hw, ho, rfl, fun ht => hr (h.2.1 ht)⟩

end Workspace

end BnfSuppression
