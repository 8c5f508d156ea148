import BnfSuppression.Proofs.Change
import Mathlib.Data.List.TakeWhile

/-!
# What the Edits of a Document Do

Each edit of a document, made in a forest that comprises the document's tree, succeeds and makes
one change, which this module names: `Change.insertion` before an element, `Change.opening` at the
start of the text, `Change.replacement` of one leaf. The indentation that an insertion copies is a
function of the text before the element alone.

## Main results

* `Forest.indentation_eq`: the indentation is read off the text before the element.
* `Document.insertBefore_eq`, `Document.insertAtStart_eq`, `Document.replaceComment_eq`: the result
  of each edit.
* `Document.undo_recorded`: undoing takes back what was recorded last.
-/

namespace BnfSuppression

open Planted (plug Place Change leafs)

namespace Planted.Change

/-- Leaves inserted before what stands at a place. -/
def insertion (c : Crumb) (cs : Place) (q : Planted) (xs : List (ElementId × Token)) : Change :=
  ⟨cs, c.id, c.type, c.left, [], xs, q :: c.right⟩

/-- Leaves inserted at the start of a composite that is a whole tree. -/
def opening (id : ElementId) (type : ElementType) (ps : List Planted)
    (xs : List (ElementId × Token)) : Change :=
  ⟨[], id, type, [], [], xs, ps⟩

/-- A leaf replaced by another. -/
def replacement (c : Crumb) (cs : Place) (x y : ElementId × Token) : Change :=
  ⟨cs, c.id, c.type, c.left, [x], [y], c.right⟩

/-- An insertion before what stands at a place starts from the tree with this place. -/
@[simp]
theorem source_insertion (c : Crumb) (cs : Place) (q : Planted) (xs : List (ElementId × Token)) :
    (insertion c cs q xs).source = plug (c :: cs) q := by
  simp [insertion, source, leafs, plug]

/-- An insertion at the start of a whole tree starts from this tree. -/
@[simp]
theorem source_opening (id : ElementId) (type : ElementType) (ps : List Planted)
    (xs : List (ElementId × Token)) : (opening id type ps xs).source = .node id type ps := by
  simp [opening, source, leafs, plug]

/-- A replacement of a leaf starts from the tree with the leaf at its place. -/
@[simp]
theorem source_replacement (c : Crumb) (cs : Place) (x y : ElementId × Token) :
    (replacement c cs x y).source = plug (c :: cs) (.leaf x.1 x.2) := by
  simp [replacement, source, leafs, plug]

/-- In front of an insertion stand the leaves before the place. -/
@[simp]
theorem front_insertion (c : Crumb) (cs : Place) (q : Planted) (xs : List (ElementId × Token)) :
    (insertion c cs q xs).front = Place.before (c :: cs) := rfl

/-- In front of a replacement stand the leaves before the place. -/
@[simp]
theorem front_replacement (c : Crumb) (cs : Place) (x y : ElementId × Token) :
    (replacement c cs x y).front = Place.before (c :: cs) := rfl

/-- An insertion ends with the new leaves right before what stands at the place. -/
theorem target_insertion (c : Crumb) (cs : Place) (q : Planted) (xs : List (ElementId × Token)) :
    (insertion c cs q xs).target =
      plug cs (.node c.id c.type (c.left ++ (leafs xs ++ q :: c.right))) := by
  simp [insertion, target]

/-- An insertion at the start of a whole tree ends with the new leaves before all its children. -/
theorem target_opening (id : ElementId) (type : ElementType) (ps : List Planted)
    (xs : List (ElementId × Token)) :
    (opening id type ps xs).target = .node id type (leafs xs ++ ps) := by
  simp [opening, target, plug]

/-- A replacement ends with the other leaf at the place. -/
theorem target_replacement (c : Crumb) (cs : Place) (x y : ElementId × Token) :
    (replacement c cs x y).target = plug (c :: cs) (.leaf y.1 y.2) := by
  simp [replacement, target, leafs, plug]

end Planted.Change

/-- The characters of leaves, in the order of the text. -/
def Forest.charsOf (xs : List (ElementId × Token)) : List Char :=
  xs.flatMap fun x => x.2.text.toList

/-- The text of a tree is made of the characters of its leaves. -/
theorem Planted.toList_tree_text (p : Planted) : p.tree.text.toList = Forest.charsOf p.leaves := by
  rw [Tree.text, Planted.leaves_tree, String.toList_join, List.map_map, List.flatMap_map,
    Forest.charsOf]
  rfl

namespace Forest

variable {f : Forest} {cs : Place} {q : Planted}

/-! ### Indentation -/

/-- The blanks at the end of a text since its last line feed; none if other characters stand
there. -/
def trailingIndent (cs : List Char) : String :=
  if (afterLineFeed cs).all Text.isBlank then String.ofList (afterLineFeed cs) else ""

/-- If the second part of a text has a line feed, the last line is that of the second part. -/
theorem afterLineFeed_append_of_mem {cs ds : List Char} (h : '\n' ∈ ds) :
    afterLineFeed (cs ++ ds) = afterLineFeed ds := by
  have hd : (ds.reverse.takeWhile (· != '\n')).length ≠ ds.reverse.length := by
    intro hl
    have := List.takeWhile_eq_self_iff.1 ((List.takeWhile_prefix _).eq_of_length hl)
    simpa using this '\n' (by simpa using h)
  rw [afterLineFeed, afterLineFeed, List.reverse_append, List.takeWhile_append, if_neg hd]

/-- If the second part of a text has no line feed, it prolongs the last line of the first part. -/
theorem afterLineFeed_append_of_notMem {cs ds : List Char} (h : '\n' ∉ ds) :
    afterLineFeed (cs ++ ds) = afterLineFeed cs ++ ds := by
  have hd : ∀ c ∈ ds.reverse, (c != '\n') = true := fun c hc => by
    simp only [bne_iff_ne, ne_eq]
    rintro rfl
    exact h (by simpa using hc)
  rw [afterLineFeed, afterLineFeed, List.reverse_append, List.takeWhile_append_of_pos hd]
  simp

/-- The text since the last line feed, found by going back leaf by leaf. -/
theorem afterLineFeed_charsOf_reverse (xs : List (ElementId × Token)) :
    afterLineFeed (charsOf xs.reverse) =
      (match xs.dropWhile fun x => !x.2.text.toList.contains '\n' with
        | [] => []
        | x :: _ => afterLineFeed x.2.text.toList) ++
      charsOf (xs.takeWhile fun x => !x.2.text.toList.contains '\n').reverse := by
  induction xs with
  | nil => rfl
  | cons x xs ih =>
      have hc : charsOf (x :: xs).reverse = charsOf xs.reverse ++ x.2.text.toList := by
        simp [charsOf]
      rw [hc, List.dropWhile_cons, List.takeWhile_cons]
      by_cases hx : '\n' ∈ x.2.text.toList
      · rw [afterLineFeed_append_of_mem hx]
        simp [hx, charsOf]
      · rw [afterLineFeed_append_of_notMem hx, ih]
        simp [hx, charsOf]

/-- **The indentation is read off the text before the element**, and reading it never fails. -/
theorem Holds.indentation_eq (h : f.Holds (plug cs q)) :
    f.indentation q.id = .ok (trailingIndent (charsOf cs.before)) := by
  have hx : cs.before.reverse <:+ (plug cs q).leavesToward .backward :=
    Planted.beside_suffix cs q .backward
  have hown : ∀ x ∈ cs.before.reverse, f.ownText x.1 = x.2.text := by
    intro x hm
    refine h.stores.ownText_of_mem ?_
    rw [Planted.leaves_plug]
    simp only [List.mem_append]
    exact .inl (.inl (by simpa using hm))
  have hw := h.walkWhile_eq (fun id => !(f.ownText id).toList.contains '\n') hx
  have hwalk : f.walkWhile .backward (fun id => !(f.ownText id).toList.contains '\n')
      (f.step .backward q.id) =
      ⟨(cs.before.reverse.takeWhile fun x => !x.2.text.toList.contains '\n').map Prod.fst,
        .ofHead (cs.before.reverse.dropWhile fun x => !x.2.text.toList.contains '\n')⟩ := by
    rw [h.step_eq, Place.beside, hw, List.takeWhile_map]
    have hp : ∀ xs : List (ElementId × Token), (∀ x ∈ xs, f.ownText x.1 = x.2.text) →
        xs.takeWhile ((fun id => !(f.ownText id).toList.contains '\n') ∘ Prod.fst) =
          xs.takeWhile (fun x => !x.2.text.toList.contains '\n') ∧
        xs.dropWhile (fun x => !(f.ownText x.1).toList.contains '\n') =
          xs.dropWhile (fun x => !x.2.text.toList.contains '\n') := by
      intro xs hxs
      induction xs with
      | nil => exact ⟨rfl, rfl⟩
      | cons x xs ih =>
          have hi := ih fun y hy => hxs y (List.mem_cons_of_mem _ hy)
          simp only [List.takeWhile_cons, List.dropWhile_cons, Function.comp_apply,
            hxs x (by simp), hi.1, hi.2, and_self]
    rw [(hp _ hown).1, (hp _ hown).2]
  have hfault : ∀ xs : List (ElementId × Token), f.faultOf (.ofHead xs) = .ok () := by
    intro xs
    cases xs <;> rfl
  have hprefix : f.linePrefix
      ⟨(cs.before.reverse.takeWhile fun x => !x.2.text.toList.contains '\n').map Prod.fst,
        .ofHead (cs.before.reverse.dropWhile fun x => !x.2.text.toList.contains '\n')⟩ =
      afterLineFeed (charsOf cs.before) := by
    have ht := afterLineFeed_charsOf_reverse cs.before.reverse
    rw [List.reverse_reverse] at ht
    rw [ht, linePrefix]
    congr 1
    · cases hd : cs.before.reverse.dropWhile fun x => !x.2.text.toList.contains '\n' with
      | nil => rfl
      | cons x xs =>
          have hm : x ∈ cs.before.reverse :=
            (List.dropWhile_sublist _).subset (hd ▸ List.mem_cons_self)
          simp only [Step.ofHead, hown x hm]
    · rw [charsOf, ← List.map_reverse, List.flatMap_map]
      refine List.flatMap_congr fun x hm => ?_
      rw [hown x ((List.takeWhile_sublist _).subset (List.mem_reverse.1 hm))]
  rw [indentation, hwalk]
  simp only [hfault, hprefix]
  rfl

/-- An indentation consists of blanks. -/
theorem isBlank_trailingIndent (cs : List Char) :
    (trailingIndent cs).toList.all Text.isBlank = true := by
  rw [trailingIndent]
  split
  · next h => simpa using h
  · rfl

/-! ### Places among children -/

/-- The index of an element among the children of the composite around it. -/
theorem Holds.indexOf_eq {c : Crumb} (h : f.Holds (plug (c :: cs) q)) :
    f.indexOf c.id q.id = .ok c.left.length := by
  have hl : q.id ∉ Planted.idsOf c.left := by
    intro hm
    have hn := h.nodup_append
    simp only [Place.ids, List.cons_append, List.nodup_append, List.mem_cons,
      List.mem_append] at hn
    exact hn.2.2 q.id q.id_mem_ids q.id (.inr (.inl (.inl hm))) rfl
  have hi : (f.children c.id).idxOf? q.id = some c.left.length := by
    rw [h.children_eq, idxOf?_hole hl]
  rw [indexOf, hi]

/-- A text that is read as one line comment gives a new leaf with this token. -/
theorem addComment_ok {text : String} {t : Token} (h : tokenize text = [t])
    (ht : t.type = .lineComment) : f.addComment text = .ok (f.addLeaf t) := by
  simp [addComment, h, ht]

/-- A comment is only created from a text that is one line comment. -/
theorem addComment_eq_ok {text : String} {r : Forest × ElementId}
    (h : f.addComment text = .ok r) :
    ∃ t, tokenize text = [t] ∧ t.type = .lineComment ∧ r = f.addLeaf t := by
  simp only [addComment] at h
  split at h
  · next t ht =>
    split at h
    · next hc => exact ⟨t, ht, by simpa using hc, by simpa using h.symm⟩
    · simp at h
  · simp at h

end Forest

namespace Document

/-- The document with one more edit in its history. -/
def recorded (d : Document) (e : Edit) : Document := { d with history := e :: d.history }

variable {f : Forest} {d : Document} {c : Crumb} {cs : Place} {q : Planted}

/-- An edit of a document that may be changed is run and recorded. -/
theorem edit_eq (hd : d.writable = true) (e : Edit) :
    d.edit f e = .ok (e.run f, d.recorded e) := by
  simp [edit, hd, recorded]

/-- Only the edits of writable documents are made. -/
theorem edit_eq_ok {e : Edit} {r : Forest × Document} (h : d.edit f e = .ok r) :
    d.writable = true ∧ r = (e.run f, d.recorded e) := by
  cases hd : d.writable with
  | false => simp [edit, hd] at h
  | true =>
      rw [edit_eq hd, Except.ok.injEq] at h
      exact ⟨rfl, h.symm⟩

/-! Each function that edits makes one edit, after it created a leaf. -/

/-- Whatever an insertion before an element comes to, it is one edit that puts the comment and a new
leaf before the element. -/
theorem edit_of_insertBefore {comment anchor : ElementId} {r : Forest × Document}
    (h : d.insertBefore f comment anchor = .ok r) :
    ∃ parent index t, f.parent? anchor = some parent ∧
      d.edit (f.addLeaf t).1 ⟨parent, index, [], [comment, f.size]⟩ = .ok r := by
  rw [insertBefore] at h
  cases hp : f.parent? anchor with
  | none => simp [hp] at h
  | some parent =>
      cases hindent : f.indentation anchor with
      | error e => simp [hp, hindent, bind, Except.bind] at h
      | ok indent =>
          cases hindex : f.indexOf parent anchor with
          | error e => simp [hp, hindent, hindex, bind, Except.bind] at h
          | ok index =>
              simp only [hp, hindent, hindex, bind, Except.bind] at h
              exact ⟨parent, index, _, rfl, h⟩

/-- An insertion at the start is one edit, which puts the comment and a line feed before all
children of the root. -/
theorem edit_of_insertAtStart {comment : ElementId} {r : Forest × Document}
    (h : d.insertAtStart f comment = .ok r) :
    d.edit (f.addLeaf ⟨.whitespace, "\n"⟩).1 ⟨d.root, 0, [], [comment, f.size]⟩ = .ok r := h

/-- Whatever replacing a comment comes to, it is one edit that puts a new leaf in the place of the
old one. -/
theorem edit_of_replaceComment {comment : ElementId} {text : String} {r : Forest × Document}
    (h : d.replaceComment f comment text = .ok r) :
    ∃ parent index t, f.parent? comment = some parent ∧
      d.edit (f.addLeaf t).1 ⟨parent, index, [comment], [f.size]⟩ = .ok r := by
  rw [replaceComment] at h
  cases hp : f.parent? comment with
  | none => simp [hp] at h
  | some parent =>
      simp only [hp] at h
      split at h
      · cases hindex : f.indexOf parent comment with
        | error e => simp [hindex, bind, Except.bind] at h
        | ok index =>
            cases hadd : f.addComment text with
            | error e => simp [hindex, hadd, bind, Except.bind] at h
            | ok a =>
                obtain ⟨t, -, -, rfl⟩ := Forest.addComment_eq_ok hadd
                simp only [hindex, hadd, bind, Except.bind] at h
                exact ⟨parent, index, t, rfl, h⟩
      · simp at h

/-- Inserting before an element succeeds in documents that may be changed only. -/
theorem writable_of_insertBefore {comment anchor : ElementId} {r : Forest × Document}
    (h : d.insertBefore f comment anchor = .ok r) : d.writable = true := by
  obtain ⟨_, _, _, -, he⟩ := edit_of_insertBefore h
  exact (edit_eq_ok he).1

/-- Inserting at the start succeeds in documents that may be changed only. -/
theorem writable_of_insertAtStart {comment : ElementId} {r : Forest × Document}
    (h : d.insertAtStart f comment = .ok r) : d.writable = true :=
  (edit_eq_ok (edit_of_insertAtStart h)).1

/-- Replacing a comment succeeds in documents that may be changed only. -/
theorem writable_of_replaceComment {comment : ElementId} {text : String} {r : Forest × Document}
    (h : d.replaceComment f comment text = .ok r) : d.writable = true := by
  obtain ⟨_, _, _, -, he⟩ := edit_of_replaceComment h
  exact (edit_eq_ok he).1

/-- The leaf that an insertion puts between a comment and the element after it. -/
def lineBreak (cs : Place) : Token :=
  ⟨.whitespace, "\n" ++ Forest.trailingIndent (Forest.charsOf cs.before)⟩

/-- **Inserting before an element** makes an insertion at its place. -/
theorem insertBefore_eq (h : f.Holds (plug (c :: cs) q)) (hd : d.writable = true)
    (comment : ElementId × Token) :
    d.insertBefore f comment.1 q.id =
      .ok ((Change.insertion c cs q [comment, (f.size, lineBreak (c :: cs))]).edit.run
          (f.addLeaf (lineBreak (c :: cs))).1,
        d.recorded (Change.insertion c cs q [comment, (f.size, lineBreak (c :: cs))]).edit) := by
  rw [insertBefore, h.parent?_eq]
  simp only [Place.parent?, List.head?_cons, Option.map_some, h.indentation_eq, h.indexOf_eq]
  exact edit_eq hd _

/-- **Inserting at the start** makes an opening of the root. -/
theorem insertAtStart_eq (type : ElementType) (ps : List Planted) (hd : d.writable = true)
    (comment : ElementId × Token) :
    d.insertAtStart f comment.1 =
      .ok ((Change.opening d.root type ps [comment, (f.size, ⟨.whitespace, "\n"⟩)]).edit.run
          (f.addLeaf ⟨.whitespace, "\n"⟩).1,
        d.recorded (Change.opening d.root type ps [comment, (f.size, ⟨.whitespace, "\n"⟩)]).edit) :=
  edit_eq hd _

/-- **Replacing a comment** of the document makes a replacement at its place. -/
theorem replaceComment_eq {x : ElementId × Token}
    (h : f.Holds (plug (c :: cs) (.leaf x.1 x.2)))
    (hr : (plug (c :: cs) (.leaf x.1 x.2)).id = d.root)
    (hd : d.writable = true) (hx : x.2.isComment = true) {text : String} {t : Token}
    (ht : tokenize text = [t]) (hl : t.type = .lineComment) :
    d.replaceComment f x.1 text =
      .ok ((Change.replacement c cs x (f.size, t)).edit.run (f.addLeaf t).1,
        d.recorded (Change.replacement c cs x (f.size, t)).edit) := by
  have hp : f.parent? x.1 = some c.id := h.parent?_eq
  have htop : f.top x.1 = d.root := h.top_eq.trans hr
  have hcomment : f.isComment x.1 = true := by
    simp [Forest.isComment, h.stores_at.token?_eq, hx]
  have hindex : f.indexOf c.id x.1 = .ok c.left.length := h.indexOf_eq
  rw [replaceComment, hp]
  simp only [htop, hcomment, hindex, Forest.addComment_ok ht hl, BEq.rfl, Bool.and_self, if_true]
  exact edit_eq hd _

/-- A comment is only replaced by a text that is one line comment. -/
theorem replaceComment_eq_ok {comment : ElementId} {text : String} {r : Forest × Document}
    (h : d.replaceComment f comment text = .ok r) :
    ∃ t, tokenize text = [t] ∧ t.type = .lineComment := by
  cases hadd : f.addComment text with
  | ok r' =>
      obtain ⟨t, ht, hl, -⟩ := Forest.addComment_eq_ok hadd
      exact ⟨t, ht, hl⟩
  | error e =>
      simp only [replaceComment, hadd] at h
      split at h
      · split at h
        · simp only [bind, Except.bind] at h
          split at h <;> simp at h
        · simp at h
      · simp at h

/-- What is replaced has a parent, the root around it is that of the document, and it is a
comment. -/
theorem asked_of_replaceComment {comment : ElementId} {text : String} {r : Forest × Document}
    (h : d.replaceComment f comment text = .ok r) :
    f.parent? comment ≠ none ∧ f.top comment = d.root ∧ f.isComment comment = true := by
  rw [replaceComment] at h
  split at h
  · next hp =>
    split at h
    · next hc =>
      obtain ⟨ht, hc⟩ := Bool.and_eq_true_iff.1 hc
      exact ⟨by simp [hp], by simpa using ht, hc⟩
    · simp at h
  · simp at h

/-- Undoing takes back what was recorded last. -/
theorem undo_recorded (e : Edit) : (d.recorded e).undo f = some (e.inverse.run f, d) := rfl

end Document

/-! ### Changes that the edits make can be made -/

namespace Forest

variable {f : Forest}

/-- What is inserted before an element is a detached leaf and the line break after it. -/
theorem Holds.allows_addLeaf {ch : Change} (h : f.Holds ch.source) {comment : ElementId × Token}
    {t : Token} (hi : ch.inserted = [comment, (f.size, t)])
    (hc : f.get? comment.1 = some ⟨.leaf comment.2, none⟩) : (f.addLeaf t).1.Allows ch where
  toHolds := h.grows (grows_addLeaf f t)
  detached := by
    intro x hx
    rw [hi] at hx
    rcases List.mem_cons.1 hx with rfl | hx
    · rw [(grows_addLeaf f t).old _ (lt_size_of_get? hc), hc]
    · obtain rfl := List.mem_singleton.1 hx
      simp [get?_addLeaf]
  distinct := by
    have hne : comment.1 ≠ f.size := Nat.ne_of_lt (lt_size_of_get? hc)
    simpa [hi] using hne

/-- A replacing leaf is a new one. -/
theorem Holds.allows_replacement {ch : Change} (h : f.Holds ch.source) {t : Token}
    (hi : ch.inserted = [(f.size, t)]) : (f.addLeaf t).1.Allows ch where
  toHolds := h.grows (grows_addLeaf f t)
  detached := by
    intro x hx
    rw [hi] at hx
    obtain rfl := List.mem_singleton.1 hx
    simp [get?_addLeaf]
  distinct := by simp [hi]

/-- A change that inserts a loose comment and a leaf created for it is admitted by the forest with
this leaf. -/
theorem Comprises.admits_addLeaf {ch : Change} (h : f.Comprises ch.source)
    {comment : ElementId × Token} {t : Token} (hi : ch.inserted = [comment, (f.size, t)])
    (hc : f.get? comment.1 = some ⟨.leaf comment.2, none⟩) : (f.addLeaf t).1.Admits ch where
  toComprises := h.grows (grows_addLeaf f t)
  detached := (h.toHolds.allows_addLeaf hi hc).detached
  distinct := (h.toHolds.allows_addLeaf hi hc).distinct

/-- A change that inserts a leaf created for it is admitted by the forest with this leaf. -/
theorem Comprises.admits_replacement {ch : Change} (h : f.Comprises ch.source) {t : Token}
    (hi : ch.inserted = [(f.size, t)]) : (f.addLeaf t).1.Admits ch where
  toComprises := h.grows (grows_addLeaf f t)
  detached := (h.toHolds.allows_replacement hi).detached
  distinct := (h.toHolds.allows_replacement hi).distinct

/-- Comments of a tree are leaves of it. -/
theorem Holds.leaf_of_isComment (h : f.Holds (plug cs q)) (hc : f.isComment q.id = true) :
    ∃ x : ElementId × Token, q = .leaf x.1 x.2 ∧ x.2.isComment = true := by
  cases q with
  | leaf id t =>
      have ht : f.token? id = some t := h.stores_at.token?_eq
      exact ⟨(id, t), rfl, by simpa [isComment, Planted.id, ht] using hc⟩
  | node id type ps =>
      have ht : f.token? id = none := h.stores_at.token?_node
      simp [isComment, Planted.id, ht] at hc

/-- What is replaced in a tree is one of its comments, below a composite. -/
theorem Holds.exists_comment {p : Planted} (h : f.Holds p) {comment : ElementId}
    (hm : comment ∈ p.ids) {d : Document} {text : String} {r : Forest × Document}
    (hr : d.replaceComment f comment text = .ok r) :
    ∃ (c : Crumb) (cs : Place) (x : ElementId × Token),
      p = plug (c :: cs) (.leaf x.1 x.2) ∧ x.1 = comment ∧ x.2.isComment = true := by
  obtain ⟨hp, hc⟩ := Document.asked_of_replaceComment hr
  obtain ⟨cs, q, rfl, rfl⟩ := Planted.exists_place hm
  cases cs with
  | nil => exact absurd h.parent?_eq hp
  | cons c cs =>
      obtain ⟨x, rfl, hx⟩ := h.leaf_of_isComment hc.2
      exact ⟨c, cs, x, rfl, rfl, hx⟩

end Forest

end BnfSuppression
