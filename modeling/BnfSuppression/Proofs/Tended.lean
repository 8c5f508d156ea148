import BnfSuppression.Proofs.Standing
import Mathlib.Logic.Function.Basic

/-!
# Several Documents in One Forest

The documents of a workspace keep their trees in one forest, and the histories of all of them name
elements of it. `Workspace.Tended` is what makes them independent: each document has a tree of its
own and a ledger that ties its history to that tree, no two documents name the same element, and
all that is in no tree is a leaf that stands nowhere. An edit of one document changes its tree by
one change and leaves the trees of the others alone; so does undoing one.

## Main definitions

* `Forest.Ledger`: a history with the trees that it leads back through.
* `Document.Tends`: a document has a tree and a ledger.
* `Workspace.Tended`: the documents are independent.

## Main results

* `Workspace.Tended.change`: **a change of one document leaves the others alone**.
* `Workspace.Tended.recorded`, `Workspace.Tended.undone`: edits and undo keep documents
  independent.
* `Workspace.Tended.mem_iff_top`, `Workspace.Tended.ownerOf?_eq_some_iff`: the elements of a
  document are those of its tree.
-/

namespace BnfSuppression

open Planted (plug Place Change)

namespace Planted.Change

variable {c : Change} {i : ElementId}

/-- The composite that a change is made in is an element of the tree before it. -/
theorem id_mem_source (c : Change) : c.id ∈ c.source.ids :=
  c.ids_source_perm.mem_iff.2 (List.mem_append_right _ (by simp [otherIds]))

/-- What a change removes is in the tree before it. -/
theorem mem_source_of_removed (h : i ∈ c.removed.map Prod.fst) : i ∈ c.source.ids :=
  c.ids_source_perm.mem_iff.2 (List.mem_append_left _ h)

/-- What a change inserts is in the tree after it. -/
theorem mem_target_of_inserted (h : i ∈ c.inserted.map Prod.fst) : i ∈ c.target.ids :=
  c.ids_target_perm.mem_iff.2 (List.mem_append_left _ h)

/-- What is in the tree after a change was in it before, or was inserted. -/
theorem mem_source_or_of_target (h : i ∈ c.target.ids) :
    i ∈ c.source.ids ∨ i ∈ c.inserted.map Prod.fst := by
  rw [c.ids_target_perm.mem_iff, List.mem_append] at h
  rw [c.ids_source_perm.mem_iff, List.mem_append]
  tauto

/-- What is in the tree before a change is in it afterwards, or was removed. -/
theorem mem_target_or_of_source (h : i ∈ c.source.ids) :
    i ∈ c.target.ids ∨ i ∈ c.removed.map Prod.fst :=
  @mem_source_or_of_target c.inverse i h

/-- The edit of a change names elements of the tree before it, and what it inserts. -/
theorem mem_source_or_of_edit (h : i ∈ c.edit.ids) :
    i ∈ c.source.ids ∨ i ∈ c.inserted.map Prod.fst := by
  simp only [edit, Edit.ids, List.mem_cons, List.mem_append] at h
  rcases h with rfl | h | h
  · exact .inl c.id_mem_source
  · exact .inl (mem_source_of_removed h)
  · exact .inr h

end Planted.Change

namespace Forest

/-- Edits leave the tokens of leaves alone. -/
theorem token?_run (e : Edit) (f : Forest) (i : ElementId) : (e.run f).token? i = f.token? i := by
  simp only [token?, Edit.get?_run]
  cases f.get? i with
  | none => rfl
  | some d =>
      obtain ⟨shape, parent?⟩ := d
      by_cases hi : i = e.parent <;> cases shape <;> simp [spliced, hi, Shape.mapChildren]

/-- What has a token exists. -/
theorem lt_size_of_token? {f : Forest} {i : ElementId} {t : Token} (h : f.token? i = some t) :
    i < f.size := by
  by_contra hn
  simp [token?, get?_eq_none (Nat.le_of_not_lt hn)] at h

/-- The leaves that a forest had keep their tokens while leaves are added. -/
theorem Grows.token?_eq {f g : Forest} (h : f.Grows g) {i : ElementId} {t : Token}
    (ht : f.token? i = some t) : g.token? i = some t := by
  rw [← ht, token?, token?, h.old i (lt_size_of_token? ht)]

/-! ### Ledgers -/

/-- A history and the tree that it led to. Undoing the edits one after the other leads back through
trees without repeated elements; what an edit removed is not in the tree after it, and the forest
still has it. -/
inductive Ledger (f : Forest) : List Edit → Planted → Prop
  | nil {p : Planted} : Ledger f [] p
  | cons {history : List Edit} (c : Change) : Ledger f history c.source → c.source.ids.Nodup →
    (∀ i ∈ c.removed.map Prod.fst, i ∉ c.target.ids) →
    (∀ x ∈ c.removed, f.token? x.1 = some x.2) → Ledger f (c.edit :: history) c.target

/-- A ledger only depends on the tokens of leaves. -/
theorem Ledger.mono {f g : Forest} {history : List Edit} {p : Planted} (h : f.Ledger history p)
    (hg : ∀ i t, f.token? i = some t → g.token? i = some t) : g.Ledger history p := by
  induction h with
  | nil => exact .nil
  | cons c _ hn hr ht ih => exact .cons c ih hn hr fun x hx => hg _ _ (ht x hx)

/-- The latest edit of a ledger is that of a change to its tree. -/
theorem Ledger.cons_inv {f : Forest} {e : Edit} {history : List Edit} {p : Planted}
    (h : f.Ledger (e :: history) p) : ∃ c : Change, e = c.edit ∧ p = c.target ∧
      f.Ledger history c.source ∧ c.source.ids.Nodup ∧
      (∀ i ∈ c.removed.map Prod.fst, i ∉ c.target.ids) ∧
      ∀ x ∈ c.removed, f.token? x.1 = some x.2 := by
  cases h with
  | cons c hs hn hr ht => exact ⟨c, rfl, rfl, hs, hn, hr, ht⟩

end Forest

/-! ### Documents with their trees -/

namespace Document

/-- The elements that a document names, if it has the tree: those of the tree and of the history. -/
def names (d : Document) (p : Planted) : List ElementId := p.ids ++ d.history.flatMap Edit.ids

/-- A document names the elements of its tree. -/
theorem mem_names_of_ids {d : Document} {p : Planted} {i : ElementId} (h : i ∈ p.ids) :
    i ∈ d.names p :=
  List.mem_append_left _ h

/-- The document has the tree, which its history led to. -/
structure Tends (d : Document) (f : Forest) (p : Planted) : Prop where
  holds : f.Holds p
  root : ∃ ps, p = .node d.root .file ps
  ledger : f.Ledger d.history p
  /-- Everything that is named exists. -/
  known : ∀ i ∈ d.names p, i < f.size

variable {d : Document} {f g : Forest} {p : Planted}

/-- The tree that a document has is the one at its root. -/
theorem Tends.id_eq (h : d.Tends f p) : p.id = d.root := by
  obtain ⟨ps, rfl⟩ := h.root
  rfl

/-- A document only depends on the elements of its tree and on the tokens of leaves. -/
theorem Tends.congr (h : d.Tends f p) (hsize : f.size ≤ g.size)
    (hids : ∀ i ∈ p.ids, g.get? i = f.get? i)
    (htoken : ∀ i t, f.token? i = some t → g.token? i = some t) : d.Tends g p where
  holds := ⟨h.holds.stores.congr hids, h.holds.nodup⟩
  root := h.root
  ledger := h.ledger.mono htoken
  known := fun i hi => Nat.lt_of_lt_of_le (h.known i hi) hsize

/-- A document keeps its tree and its history while leaves are added to the forest. -/
theorem Tends.grows (h : d.Tends f p) (hg : f.Grows g) : d.Tends g p :=
  h.congr hg.size_le (fun i hi => hg.old i (h.known i (mem_names_of_ids hi)))
    fun _ _ => hg.token?_eq

end Document

namespace Workspace

/-- The documents of a workspace are independent: each has the tree that is given for it. -/
structure Tended (w : Workspace) (T : DocumentId → Planted) : Prop where
  tends : ∀ (i : DocumentId) (d : Document), w.documents[i]? = some d → d.Tends w.forest (T i)
  /-- No two documents name the same element. -/
  disjoint : ∀ (i j : DocumentId) (d e : Document), i ≠ j →
    w.documents[i]? = some d → w.documents[j]? = some e →
    ∀ x ∈ d.names (T i), x ∉ e.names (T j)
  /-- What is in no tree is a leaf that stands nowhere. -/
  rest : ∀ x < w.forest.size,
    (∀ (i : DocumentId) (d : Document), w.documents[i]? = some d → x ∉ (T i).ids) →
    ∃ t, w.forest.get? x = some ⟨.leaf t, none⟩

variable {w : Workspace} {T : DocumentId → Planted} {d : Document} {i : DocumentId}
  {x : ElementId}

/-- In the empty workspace there are no documents to depend on each other. -/
theorem tended_empty : empty.Tended fun _ => default where
  tends := fun i d hd => by simp [empty] at hd
  disjoint := fun i j d e _ hd => by simp [empty] at hd
  rest := fun x hx => by simp [empty, Forest.empty, Forest.size] at hx

/-- Leaves that stand nowhere leave the documents as they are. -/
theorem Tended.grows (h : w.Tended T) {g : Forest} (hg : w.forest.Grows g) :
    Tended ⟨g, w.documents⟩ T where
  tends := fun i d hd => (h.tends i d hd).grows hg
  disjoint := h.disjoint
  rest := by
    intro x hx hn
    by_cases hs : x < w.forest.size
    · obtain ⟨t, ht⟩ := h.rest x hs hn
      exact ⟨t, (hg.old x hs).trans ht⟩
    · exact hg.new x (Nat.le_of_not_lt hs) hx

/-! ### The elements of a document -/

/-- Different documents have no element in common. -/
theorem Tended.eq_of_mem (h : w.Tended T) {j : DocumentId} {e : Document}
    (hd : w.documents[i]? = some d) (he : w.documents[j]? = some e) (hi : x ∈ (T i).ids)
    (hj : x ∈ (T j).ids) : i = j := by
  by_contra hij
  exact h.disjoint i j d e hij hd he x (Document.mem_names_of_ids hi)
    (Document.mem_names_of_ids hj)

/-- The root of a document is an element of its tree. -/
theorem Tended.root_mem (h : w.Tended T) (hd : w.documents[i]? = some d) : d.root ∈ (T i).ids :=
  (h.tends i d hd).id_eq ▸ Planted.id_mem_ids _

/-- Nothing is around an element that is in no tree. -/
theorem Tended.top_of_notMem (h : w.Tended T)
    (hn : ∀ (i : DocumentId) (d : Document), w.documents[i]? = some d → x ∉ (T i).ids) :
    w.forest.parent? x = none ∧ w.forest.top x = x := by
  have hp : w.forest.parent? x = none := by
    by_cases hs : x < w.forest.size
    · obtain ⟨t, ht⟩ := h.rest x hs hn
      simp [Forest.parent?, ht]
    · simp [Forest.parent?, Forest.get?_eq_none (Nat.le_of_not_lt hs)]
  exact ⟨hp, by simp [Forest.top, Forest.ancestors, Forest.ancestorsUpTo, hp]⟩

/-- **An element is in the tree of a document exactly if the root around it is that of the
document.** -/
theorem Tended.mem_iff_top (h : w.Tended T) (hd : w.documents[i]? = some d) :
    x ∈ (T i).ids ↔ w.forest.top x = d.root := by
  have top_eq : ∀ (j : DocumentId) (e : Document), w.documents[j]? = some e → x ∈ (T j).ids →
      w.forest.top x = e.root := by
    intro j e he hx
    obtain ⟨cs, q, hp, rfl⟩ := Planted.exists_place hx
    have hholds := (h.tends j e he).holds
    rw [← (h.tends j e he).id_eq, hp]
    rw [hp] at hholds
    exact hholds.top_eq
  constructor
  · exact top_eq i d hd
  · intro ht
    by_cases hin : ∃ (j : DocumentId) (e : Document), w.documents[j]? = some e ∧ x ∈ (T j).ids
    · obtain ⟨j, e, he, hx⟩ := hin
      have hroot : e.root = d.root := (top_eq j e he hx).symm.trans ht
      obtain rfl : i = j := h.eq_of_mem hd he (h.root_mem hd) (hroot ▸ h.root_mem he)
      exact hx
    · push Not at hin
      rw [(h.top_of_notMem hin).2] at ht
      exact absurd (ht ▸ h.root_mem hd) (hin i d hd)

/-- **The owner of an element is the document that has it in its tree.** -/
theorem Tended.ownerOf?_eq_some_iff (h : w.Tended T) :
    w.ownerOf? x = some i ↔ ∃ d, w.documents[i]? = some d ∧ x ∈ (T i).ids := by
  rw [ownerOf?, Array.findIdx?_eq_some_iff_getElem]
  constructor
  · rintro ⟨hi, ht, -⟩
    have hd : w.documents[i]? = some w.documents[i] := Array.getElem?_eq_getElem hi
    exact ⟨_, hd, (h.mem_iff_top hd).2 (beq_iff_eq.1 ht).symm⟩
  · rintro ⟨d, hd, hx⟩
    obtain ⟨hi, rfl⟩ := Array.getElem?_eq_some_iff.1 hd
    have ht := (h.mem_iff_top hd).1 hx
    refine ⟨hi, by simp [ht], fun j hj hj' => ?_⟩
    have he : w.documents[j]? = some w.documents[j] := Array.getElem?_eq_getElem (by omega)
    have hroot : w.forest.top x = w.documents[j].root := (beq_iff_eq.1 hj').symm
    exact absurd (h.eq_of_mem hd he hx ((h.mem_iff_top he).2 hroot)) (Nat.ne_of_gt hj)

/-! ### Changes of one document -/

/-- The documents after one was replaced. -/
theorem getElem?_setIfInBounds_cases {ds : Array Document} {d d' e : Document} {i j : DocumentId}
    (hd : ds[i]? = some d) (he : (ds.setIfInBounds i d')[j]? = some e) :
    j = i ∧ e = d' ∨ j ≠ i ∧ ds[j]? = some e := by
  obtain ⟨hi, -⟩ := Array.getElem?_eq_some_iff.1 hd
  rw [Array.getElem?_setIfInBounds] at he
  by_cases hij : i = j
  · rw [if_pos hij, if_pos hi] at he
    exact .inl ⟨hij.symm, (Option.some.inj he).symm⟩
  · rw [if_neg hij] at he
    exact .inr ⟨Ne.symm hij, he⟩

/-- **A change of one document leaves the others alone.** What it inserts must not be named by
another document, and what the document names afterwards must be what it named before or what was
inserted. -/
theorem Tended.change (h : w.Tended T) (hd : w.documents[i]? = some d) {c : Change}
    (hc : w.forest.Allows c) (hsource : T i = c.source)
    (hfresh : ∀ (j : DocumentId) (e : Document), j ≠ i → w.documents[j]? = some e →
      ∀ x ∈ c.inserted.map Prod.fst, x ∉ e.names (T j))
    {d' : Document} (hroot : d'.root = d.root)
    (hledger : (c.edit.run w.forest).Ledger d'.history c.target)
    (hnames : ∀ x ∈ d'.names c.target, x ∈ d.names (T i) ∨ x ∈ c.inserted.map Prod.fst) :
    Tended ⟨c.edit.run w.forest, w.documents.setIfInBounds i d'⟩
      (Function.update T i c.target) := by
  have hown : ∀ x ∈ c.source.ids, x ∈ d.names (T i) := fun x hx =>
    Document.mem_names_of_ids (hsource ▸ hx)
  have hother : ∀ (j : DocumentId) (e : Document), j ≠ i → w.documents[j]? = some e →
      ∀ x ∈ e.names (T j), (c.edit.run w.forest).get? x = w.forest.get? x := by
    intro j e hj he x hx
    have hnot : ∀ y ∈ c.source.ids, x ≠ y := fun y hy hxy =>
      h.disjoint j i e d hj he hd x hx (hown x (hxy ▸ hy))
    refine c.get?_run_of_notMem _ (hnot _ c.id_mem_source) ?_ ?_
    · exact fun hr => hnot x (Change.mem_source_of_removed hr) rfl
    · exact fun hi => hfresh j e hj he x hi hx
  have hnew : ∀ (j : DocumentId) (e : Document), j ≠ i → w.documents[j]? = some e →
      ∀ x ∈ d'.names c.target, x ∉ e.names (T j) := by
    intro j e hj he x hx hxj
    rcases hnames x hx with hx | hx
    · exact h.disjoint i j d e (Ne.symm hj) hd he x hx hxj
    · exact hfresh j e hj he x hx hxj
  constructor
  · intro j e he
    rcases getElem?_setIfInBounds_cases hd he with ⟨rfl, rfl⟩ | ⟨hj, he⟩
    · rw [Function.update_self]
      obtain ⟨ps, hps⟩ := (h.tends j d hd).root
      refine ⟨hc.holds_run, hroot ▸ Change.target_eq_node (hsource ▸ hps), hledger, ?_⟩
      intro x hx
      rw [Edit.size_run]
      rcases hnames x hx with hx | hx
      · exact (h.tends j d hd).known x hx
      · obtain ⟨y, hy, rfl⟩ := List.mem_map.1 hx
        exact Forest.lt_size_of_get? (hc.detached y hy)
    · rw [Function.update_of_ne hj]
      refine (h.tends j e he).congr (by simp) ?_ fun x t ht => by rwa [Forest.token?_run]
      exact fun x hx => hother j e hj he x (Document.mem_names_of_ids hx)
  · intro j k e e' hjk he he' x hx
    rcases getElem?_setIfInBounds_cases hd he with ⟨rfl, rfl⟩ | ⟨hj, hold⟩
    · rcases getElem?_setIfInBounds_cases hd he' with ⟨rfl, -⟩ | ⟨hk, hold'⟩
      · exact absurd rfl hjk
      · rw [Function.update_self] at hx
        rw [Function.update_of_ne hk]
        exact hnew k e' hk hold' x hx
    · rw [Function.update_of_ne hj] at hx
      rcases getElem?_setIfInBounds_cases hd he' with ⟨rfl, rfl⟩ | ⟨hk, hold'⟩
      · rw [Function.update_self]
        exact fun hx' => hnew j e hj hold x hx' hx
      · rw [Function.update_of_ne hk]
        exact h.disjoint j k e e' hjk hold hold' x hx
  · intro x hx hn
    rw [Edit.size_run] at hx
    obtain ⟨hi, -⟩ := Array.getElem?_eq_some_iff.1 hd
    have htarget : x ∉ c.target.ids := by
      have := hn i d' (by simp [hi])
      rwa [Function.update_self] at this
    by_cases hs : x ∈ c.source.ids
    · -- what left the tree was removed
      rcases Change.mem_target_or_of_source hs with ht | hr
      · exact absurd ht htarget
      · obtain ⟨y, hy, rfl⟩ := List.mem_map.1 hr
        exact ⟨y.2, hc.get?_run_removed hy⟩
    · obtain ⟨t, ht⟩ := h.rest x hx fun j e he => by
        by_cases hj : j = i
        · rw [hj, hsource]
          exact hs
        · have := hn j e (by
            rw [Array.getElem?_setIfInBounds, if_neg (Ne.symm hj)]
            exact he)
          rwa [Function.update_of_ne hj] at this
      refine ⟨t, (c.get?_run_of_notMem _ ?_ ?_ ?_).trans ht⟩
      · exact fun he => hs (he ▸ c.id_mem_source)
      · exact fun hr => hs (Change.mem_source_of_removed hr)
      · exact fun hi => htarget (Change.mem_target_of_inserted hi)

/-- **A recorded edit keeps the documents independent.** -/
theorem Tended.recorded (h : w.Tended T) (hd : w.documents[i]? = some d) {c : Change}
    (hc : w.forest.Allows c) (hsource : T i = c.source)
    (hfresh : ∀ (j : DocumentId) (e : Document), j ≠ i → w.documents[j]? = some e →
      ∀ x ∈ c.inserted.map Prod.fst, x ∉ e.names (T j)) :
    Tended ⟨c.edit.run w.forest, w.documents.setIfInBounds i (d.recorded c.edit)⟩
      (Function.update T i c.target) := by
  have hold := (h.tends i d hd).ledger
  rw [hsource] at hold
  refine h.change hd hc hsource hfresh rfl (.cons c ?_ hc.nodup hc.removed_notMem_target ?_) ?_
  · exact hold.mono fun x t ht => by rwa [Forest.token?_run]
  · intro x hx
    rw [Forest.token?_run]
    exact (hc.stores_removed hx).token?_eq
  · intro x hx
    simp only [Document.names, Document.recorded, List.flatMap_cons, List.mem_append] at hx ⊢
    rw [hsource]
    rcases hx with hx | hx | hx
    · exact (Change.mem_source_or_of_target hx).imp_left .inl
    · exact (Change.mem_source_or_of_edit hx).imp_left .inl
    · exact .inl (.inr hx)

/-- **Undo keeps the documents independent**: it makes the change back of the latest edit. -/
theorem Tended.undone (h : w.Tended T) (hd : w.documents[i]? = some d) {e : Edit}
    {history : List Edit} (hh : d.history = e :: history) :
    ∃ p, Tended ⟨e.inverse.run w.forest, w.documents.setIfInBounds i { d with history }⟩
      (Function.update T i p) := by
  have ht := h.tends i d hd
  have hledger := ht.ledger
  rw [hh] at hledger
  obtain ⟨c, rfl, hp, hold, hnodup, hremoved, htoken⟩ := hledger.cons_inv
  have hnamed : ∀ x ∈ c.removed.map Prod.fst, x ∈ d.names (T i) := by
    intro x hx
    simp only [Document.names, hh, List.flatMap_cons, List.mem_append]
    exact .inr (.inl (by simp [Edit.ids, Change.edit, hx]))
  -- what was removed then stands nowhere now
  have hdetached : ∀ x ∈ c.removed, w.forest.get? x.1 = some ⟨.leaf x.2, none⟩ := by
    intro x hx
    have hm : x.1 ∈ c.removed.map Prod.fst := List.mem_map_of_mem hx
    obtain ⟨t, hget⟩ := h.rest x.1 (ht.known _ (hnamed _ hm)) fun j e' he hj => by
      by_cases hji : j = i
      · rw [hji, hp] at hj
        exact hremoved _ hm hj
      · exact h.disjoint j i e' d hji he hd _ (Document.mem_names_of_ids hj) (hnamed _ hm)
    have hx' := htoken x hx
    simp only [Forest.token?, hget, Option.bind_some, Option.some.injEq] at hx'
    rw [hget, hx']
  have hholds : w.forest.Holds c.inverse.source := by
    rw [Change.source_inverse, ← hp]
    exact ht.holds
  have hallows : w.forest.Allows c.inverse :=
    { toHolds := hholds
      detached := hdetached
      distinct := (c.ids_source_perm.nodup_iff.1 hnodup).of_append_left }
  refine ⟨c.source, h.change hd hallows hp ?_ rfl ?_ ?_⟩
  · exact fun j e' hj he x hx => h.disjoint i j d e' (Ne.symm hj) hd he x (hnamed x hx)
  · exact hold.mono fun x t ht => by rwa [Forest.token?_run]
  · intro x hx
    simp only [Document.names, hh, List.flatMap_cons, List.mem_append, Change.target_inverse]
      at hx ⊢
    rw [hp]
    rcases hx with hx | hx
    · exact (Change.mem_target_or_of_source hx).imp_left .inl
    · exact .inl (.inr (.inr hx))

end Workspace

end BnfSuppression
