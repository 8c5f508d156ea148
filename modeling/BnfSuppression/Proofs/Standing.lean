import BnfSuppression.Proofs.Edits
import BnfSuppression.Workspace

/-!
# Workspaces of One Document

A document keeps its tree in the forest of its workspace, where leaves that stand nowhere collect
beside it: comments that were created for it, and what its edits took out. `Workspace.Standing`
says that a workspace is one document and such leaves, `Workspace.Extends` that only such leaves
were added, and `Workspace.Makes` that one recorded change was made.

## Main results

* `Workspace.standing_open`: a document stands once it is opened.
* `Workspace.Makes.standing`: it stands after every edit.
* `Workspace.Makes.undo`: **undoing an edit restores the workspace before it**, whatever leaves
  were created since.
-/

namespace BnfSuppression

open Planted (plug Place Change leafs)

namespace Document

/-- The document with one more edit has the same root. -/
@[simp]
theorem root_recorded (d : Document) (e : Edit) : (d.recorded e).root = d.root := rfl

/-- Recording an edit does not change whether the document may be changed. -/
@[simp]
theorem writable_recorded (d : Document) (e : Edit) : (d.recorded e).writable = d.writable := rfl

end Document

namespace Workspace

/-! ### The two relations between states -/

/-- The second workspace has the same documents, and more leaves that stand nowhere. -/
structure Extends (w v : Workspace) : Prop where
  documents : v.documents = w.documents
  grows : w.forest.Grows v.forest

/-- Every workspace extends itself: no leaf has to be created. -/
theorem Extends.refl (w : Workspace) : w.Extends w := ⟨rfl, .refl _⟩

/-- Extending a workspace in two steps is extending it. -/
theorem Extends.trans {u v w : Workspace} (h₁ : u.Extends v) (h₂ : v.Extends w) : u.Extends w :=
  ⟨h₂.documents.trans h₁.documents, h₁.grows.trans h₂.grows⟩

/-- The workspace is one document with a tree, and leaves that stand nowhere. -/
structure Standing (w : Workspace) (d : Document) (p : Planted) : Prop where
  documents : w.documents = #[d]
  comprises : w.forest.Comprises p
  root : ∃ ps, p = .node d.root .file ps

/-- One edit was made and recorded: with some leaves created for it, it makes the change. -/
structure Makes (w : Workspace) (d : Document) (c : Change) (v : Workspace) : Prop where
  documents : w.documents = #[d]
  root : ∃ ps, c.source = .node d.root .file ps
  prepared : ∃ g, w.forest.Grows g ∧ g.Admits c ∧ v = ⟨c.edit.run g, #[d.recorded c.edit]⟩

variable {w v : Workspace} {d : Document} {p : Planted} {c : Change}

/-- The tree of the only document has the document's root at its top. -/
theorem Standing.id_eq (h : w.Standing d p) : p.id = d.root := by
  obtain ⟨ps, rfl⟩ := h.root
  rfl

/-- A document opened in an empty workspace stands. -/
theorem standing_open (text name : String) (writable : Bool) :
    (empty.open text name writable).Standing ⟨name, writable, text, 0, []⟩
      ((Tree.parse text).plantedFrom 0) where
  documents := rfl
  comprises := Forest.comprises_plant (Tree.parse text)
  root := ⟨_, rfl⟩

/-- The only document keeps its tree when leaves are created that stand nowhere. -/
theorem Standing.extends (h : w.Standing d p) (hv : w.Extends v) : v.Standing d p where
  documents := hv.documents.trans h.documents
  comprises := h.comprises.grows hv.grows
  root := h.root

/-- **A document stands after every edit.** -/
theorem Makes.standing (h : w.Makes d c v) : v.Standing (d.recorded c.edit) c.target := by
  obtain ⟨g, -, ha, rfl⟩ := h.prepared
  obtain ⟨ps, hs⟩ := h.root
  exact ⟨rfl, ha.comprises_run, Change.target_eq_node hs⟩

/-! ### Undoing -/

/-- What undoing does to a workspace of one document. -/
theorem undo_eq (h : w.documents = #[d]) :
    w.undo 0 = (d.undo w.forest).map fun r => ⟨r.1, #[r.2]⟩ := by
  rw [undo, h]
  cases hu : d.undo w.forest with
  | none => simp [hu]
  | some r => simp [hu]

/-- Without a recorded edit there is nothing to undo. -/
theorem undo_eq_none (h : w.documents = #[d]) (hd : d.history = []) : w.undo 0 = none := by
  rw [undo_eq h, Document.undo, hd]
  rfl

/-- **Undoing an edit restores the workspace before it**, but for leaves that stand nowhere, however
many of these were created since. -/
theorem Makes.undo {u : Workspace} (h : w.Makes d c v) (hu : v.Extends u) :
    ∃ w', u.undo 0 = some w' ∧ w.Extends w' := by
  obtain ⟨g, hg, ha, rfl⟩ := h.prepared
  refine ⟨⟨c.edit.inverse.run u.forest, #[d]⟩, ?_, ⟨h.documents.symm, hg.trans ?_⟩⟩
  · rw [undo_eq hu.documents, Document.undo_recorded]
    rfl
  · have hfits := ha.allows.fits
    have hparent : c.edit.parent < g.size := by
      obtain ⟨_, _, _, _, he, -⟩ := hfits.composite
      exact Forest.lt_size_of_get? he
    have hremoved : ∀ i ∈ c.edit.removed, i < g.size := by
      intro i hi
      obtain ⟨x, hx, rfl⟩ := List.mem_map.1 hi
      exact Forest.lt_size_of_get? (ha.stores_removed hx)
    have hrun := Edit.grows_run (e := c.edit.inverse) hu.grows
      (by simpa [Edit.inverse] using hparent)
      (fun i hi => by simpa using (hfits.inserted_parent i hi).1)
      (fun i hi => by simpa using hremoved i hi)
    rwa [Edit.inverse_run_run hfits] at hrun

/-! ### The edits of a document -/

/-- What an edit does to a workspace of one document. -/
theorem edit_eq (h : w.documents = #[d])
    (change : Document → Forest → Except Fault (Forest × Document)) :
    w.edit 0 change = (change d w.forest).map fun r => ⟨r.1, #[r.2]⟩ := by
  rw [edit, h]
  cases hc : change d w.forest with
  | error e => simp [hc, Except.map, bind, Except.bind]
  | ok r => simp [hc, Except.map, bind, Except.bind, pure, Except.pure]

end Workspace

/-- A leaf that stands nowhere. -/
def Forest.Detached (f : Forest) (id : ElementId) : Prop := f.isLeaf id = true ∧ f.parent? id = none

instance (f : Forest) (id : ElementId) : Decidable (f.Detached id) :=
  inferInstanceAs (Decidable (_ ∧ _))

/-- A detached leaf has a token. -/
theorem Forest.Detached.get?_eq {f : Forest} {id : ElementId} (h : f.Detached id) :
    ∃ t, f.get? id = some ⟨.leaf t, none⟩ := by
  obtain ⟨hl, hp⟩ := h
  simp only [isLeaf, token?, parent?] at hl hp
  cases he : f.get? id with
  | none => simp [he] at hl
  | some e =>
      obtain ⟨shape, parent?⟩ := e
      cases shape with
      | leaf t => exact ⟨t, by simpa [he] using hp⟩
      | node type children => simp [he] at hl

namespace Workspace.Standing

variable {w v : Workspace} {d : Document} {p q : Planted}

/-! What the workspace tells about the document is read off the tree. -/

/-- The elements below the root are the ids of the document's tree. -/
theorem below_eq (h : w.Standing d p) : w.forest.below d.root = p.ids :=
  h.id_eq ▸ h.comprises.toHolds.below_eq

/-- The leaves of the document are those of its tree. -/
theorem leaves_eq (h : w.Standing d p) : d.leaves w.forest = p.leaves.map Prod.fst := by
  rw [Document.leaves, ← h.id_eq, h.comprises.toHolds.leaves_eq]

/-- The tree that is read off the forest below the root is the document's tree. -/
theorem tree_eq (h : w.Standing d p) : w.forest.tree d.root = p.tree :=
  h.id_eq ▸ h.comprises.toHolds.tree_eq

/-- The text of the document is that of its tree. -/
theorem text_eq (h : w.Standing d p) : d.text w.forest = p.tree.text := by
  rw [Document.text, ← h.id_eq, h.comprises.toHolds.text_eq]

/-- An element of the tree other than the root is at a place below a composite. -/
theorem exists_crumb (h : w.Standing d p) {i : ElementId} (hi : i ∈ p.ids) (hr : i ≠ d.root) :
    ∃ c cs q, p = plug (c :: cs) q ∧ q.id = i := by
  obtain ⟨cs, q, rfl, rfl⟩ := Planted.exists_place hi
  cases cs with
  | nil => exact absurd h.id_eq hr
  | cons c cs => exact ⟨c, cs, q, rfl, rfl⟩

/-- What stands below a composite is not the root. -/
theorem id_ne_root {cs : Place} (h : w.Standing d (plug cs q)) (hcs : cs ≠ []) : q.id ≠ d.root := by
  obtain ⟨c, cs, rfl⟩ := List.exists_cons_of_ne_nil hcs
  intro he
  have hp := h.comprises.toHolds.parent?_eq
  rw [he, ← h.id_eq, h.comprises.stores.parent?_eq] at hp
  simp [Place.parent?] at hp

/-- A leaf of the tree is not the root. -/
theorem place_ne_nil_of_leaf {cs : Place} {x : ElementId × Token}
    (h : w.Standing d (plug cs (.leaf x.1 x.2))) : cs ≠ [] := by
  rintro rfl
  obtain ⟨ps, hps⟩ := h.root
  simp [plug] at hps

/-- A leaf of the tree is at a place below a composite. -/
theorem exists_crumb_of_leaves (h : w.Standing d p) {pre post : List (ElementId × Token)}
    {x : ElementId × Token} (hx : p.leaves = pre ++ x :: post) :
    ∃ c cs, p = plug (c :: cs) (.leaf x.1 x.2) ∧ Place.before (c :: cs) = pre ∧
      Place.after (c :: cs) = post := by
  obtain ⟨cs, rfl, hpre, hpost⟩ := Planted.exists_place_of_leaves hx
  obtain ⟨c, cs, rfl⟩ := List.exists_cons_of_ne_nil h.place_ne_nil_of_leaf
  exact ⟨c, cs, rfl, hpre, hpost⟩

/-- The outermost element around an element of the tree is the root. -/
theorem top_eq (h : w.Standing d p) {i : ElementId} (hi : i ∈ p.ids) :
    w.forest.top i = d.root := by
  obtain ⟨cs, q, rfl, rfl⟩ := Planted.exists_place hi
  rw [h.comprises.toHolds.top_eq, h.id_eq]

/-- Nothing is around an element outside the tree. -/
theorem ancestors_of_notMem (h : w.Standing d p) {i : ElementId} (hi : i ∉ p.ids) :
    w.forest.ancestors i = [i] := by
  simp [Forest.ancestors, Forest.ancestorsUpTo, h.comprises.parent?_of_notMem hi]

/-- **The elements of the document are those of the tree.** -/
theorem ownerOf?_eq (h : w.Standing d p) (i : ElementId) :
    w.ownerOf? i = if i ∈ p.ids then some 0 else none := by
  have howner : w.ownerOf? i = if d.root == w.forest.top i then some 0 else none := by
    simp [ownerOf?, h.documents]
  rw [howner]
  by_cases hi : i ∈ p.ids
  · simp [hi, h.top_eq hi]
  · have hr : d.root ≠ i := by
      rintro rfl
      exact hi (h.id_eq ▸ p.id_mem_ids)
    simp [hi, Forest.top, h.ancestors_of_notMem hi, hr]

/-- **Inserting before an element** other than the root makes an insertion at its place. -/
theorem makes_insertBefore {c : Crumb} {cs : Place} {q : Planted}
    (h : w.Standing d (plug (c :: cs) q)) (hd : d.writable = true) {f : Forest}
    (hf : w.forest.Grows f) (comment : ElementId × Token)
    (hc : f.get? comment.1 = some ⟨.leaf comment.2, none⟩) :
    ∃ r, d.insertBefore f comment.1 q.id = .ok r ∧
      w.Makes d (.insertion c cs q [comment, (f.size, Document.lineBreak (c :: cs))])
        ⟨r.1, #[r.2]⟩ := by
  have hcomp := h.comprises.grows hf
  refine ⟨_, Document.insertBefore_eq hcomp.toHolds hd comment, h.documents, ?_, ?_⟩
  · simpa using h.root
  · exact ⟨_, hf.trans (Forest.grows_addLeaf _ _),
      Forest.Comprises.admits_addLeaf (by simpa using hcomp) rfl hc, rfl⟩

/-- **Inserting at the start** makes an opening of the root. -/
theorem makes_insertAtStart {ps : List Planted} (h : w.Standing d (.node d.root .file ps))
    (hd : d.writable = true) {f : Forest} (hf : w.forest.Grows f) (comment : ElementId × Token)
    (hc : f.get? comment.1 = some ⟨.leaf comment.2, none⟩) :
    ∃ r, d.insertAtStart f comment.1 = .ok r ∧
      w.Makes d (.opening d.root .file ps [comment, (f.size, ⟨.whitespace, "\n"⟩)])
        ⟨r.1, #[r.2]⟩ := by
  have hcomp := h.comprises.grows hf
  refine ⟨_, Document.insertAtStart_eq .file ps hd comment, h.documents, ?_, ?_⟩
  · simp
  · exact ⟨_, hf.trans (Forest.grows_addLeaf _ _),
      Forest.Comprises.admits_addLeaf (by simpa using hcomp) rfl hc, rfl⟩

/-- What is replaced is a comment of the tree. -/
theorem exists_comment_of_replaceComment (h : w.Standing d p) {comment : ElementId} {text : String}
    {r : Forest × Document} (hr : d.replaceComment w.forest comment text = .ok r) :
    ∃ (c : Crumb) (cs : Place) (x : ElementId × Token),
      p = plug (c :: cs) (.leaf x.1 x.2) ∧ x.1 = comment ∧ x.2.isComment = true := by
  refine h.comprises.toHolds.exists_comment ?_ hr
  by_contra hn
  exact (Document.asked_of_replaceComment hr).1 (h.comprises.parent?_of_notMem hn)

/-- **Replacing a comment** makes a replacement at its place. -/
theorem makes_replaceComment {c : Crumb} {cs : Place} {x : ElementId × Token}
    (h : w.Standing d (plug (c :: cs) (.leaf x.1 x.2))) (hd : d.writable = true)
    (hx : x.2.isComment = true) {text : String} {t : Token} (ht : tokenize text = [t])
    (hl : t.type = .lineComment) :
    ∃ r, d.replaceComment w.forest x.1 text = .ok r ∧
      w.Makes d (.replacement c cs x (w.forest.size, t)) ⟨r.1, #[r.2]⟩ := by
  refine ⟨_, Document.replaceComment_eq h.comprises.toHolds h.id_eq hd hx ht hl, h.documents,
    ?_, ?_⟩
  · simpa using h.root
  · exact ⟨_, Forest.grows_addLeaf _ _,
      Forest.Comprises.admits_replacement (by simpa using h.comprises) rfl, rfl⟩

end Workspace.Standing

end BnfSuppression
