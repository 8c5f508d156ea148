import BnfSuppression.Proofs.Applying
import BnfSuppression.Proofs.Calls

/-!
# Edits of the Tree Are Edits of the Text

A document is edited through its tree: elements are named by ids, what is inserted becomes a child
of some composite, and the text is never touched. Seen from outside, though, an element has an
offset, and each edit puts characters in at that offset, or exchanges the characters that the
element spans, and leaves all others where they are. This module proves it of every state that a
session leads to.

An offset is found by walking back over leaves, the place of an insertion by an index among
children, and the indentation by another walk. All three are read off the leaves before the place of
the element, which is why they agree.

The comment that is inserted may be any leaf: one that was just created, one that an edit took out,
or one that stands in the document already and is then listed twice. So the text afterwards is read
off a tree that the forest only shows.

## Main definitions

* `LastLine`: the line that a text ends with.
* `Workspace.EditsText`: at an element, edits of the tree are edits of the text.

## Main results

* `Forest.Holds.offset_eq`: an offset is the length of the text before the place.
* `Workspace.Standing.text_run`: a change exchanges the characters of its leaves.
* `Workspace.Reached.edits_text`: **at every element of every state that calls and actions lead to,
  edits of the tree are edits of the text**.
-/

namespace BnfSuppression

open Planted (plug Place Change)
open Forest (charsOf afterLineFeed)

/-! ### Lines -/

/-- The line is what stands behind the last line feed of the text, or all of it if there is none. -/
def LastLine (cs line : List Char) : Prop :=
  '\n' ∉ line ∧ ∃ lines, cs = lines ++ line ∧ ∀ c ∈ lines.getLast?, c = '\n'

/-- What stands after the last line feed is the last line. -/
theorem lastLine_afterLineFeed (cs : List Char) : LastLine cs (afterLineFeed cs) := by
  refine ⟨fun hm => ?_, (cs.reverse.dropWhile (· != '\n')).reverse, ?_, fun c hc => ?_⟩
  · have := List.mem_takeWhile_imp (List.mem_reverse.1 hm)
    simp at this
  · rw [afterLineFeed, ← List.reverse_append, List.takeWhile_append_dropWhile, List.reverse_reverse]
  · rw [List.getLast?_reverse] at hc
    have hstop := List.head?_dropWhile_not (· != '\n') cs.reverse
    rw [hc] at hstop
    simpa using hstop

/-- The indentation is the last line if it is blank, and empty otherwise. -/
theorem toList_trailingIndent (cs : List Char) : (Forest.trailingIndent cs).toList =
    if (afterLineFeed cs).all Text.isBlank then afterLineFeed cs else [] := by
  rw [Forest.trailingIndent]
  split <;> simp

/-- The line break of an insertion is a line feed with the indentation of the place after it. -/
theorem toList_lineBreak (cs : Place) : (Document.lineBreak cs).text.toList =
    '\n' :: (Forest.trailingIndent (charsOf cs.before)).toList :=
  String.toList_append

/-! ### Offsets -/

namespace Forest

variable {f : Forest} {cs : Place} {q : Planted}

/-- Before the text of an element stand the leaves before its place, if it has a text or not. -/
theorem Holds.stepBeforeText_eq (h : f.Holds (plug cs q)) :
    f.stepBeforeText q.id = .ofHead cs.before.reverse := by
  rw [stepBeforeText, h.stores_at.firstLeaf?_eq h.nodup_at]
  cases hl : q.leaves with
  | nil => exact h.step_eq .backward
  | cons x xs =>
      have hsplit : (plug cs q).leavesToward .backward =
          (xs ++ cs.after).reverse ++ x :: cs.before.reverse := by
        simp [Planted.leavesToward, Planted.leaves_plug, hl]
      exact h.step_of_leavesToward hsplit

/-- The walk back from an element takes all leaves before its place. -/
theorem Holds.before_eq (h : f.Holds (plug cs q)) :
    f.before q.id = ⟨cs.before.reverse.map Prod.fst, .edge⟩ := by
  have hsuffix : cs.before.reverse <:+ (plug cs q).leavesToward .backward :=
    Planted.beside_suffix cs q .backward
  have hall : cs.before.reverse.dropWhile (fun _ => true) = [] :=
    List.dropWhile_eq_nil_iff.2 fun _ _ => rfl
  rw [before, h.stepBeforeText_eq, walk, h.walkWhile_eq (fun _ => true) hsuffix, hall]
  simp [Step.ofHead]

/-- **An offset is the length of the text before the place**, and asking for it never fails. -/
theorem Holds.offset_eq (h : f.Holds (plug cs q)) :
    f.offset q.id = .ok (charsOf cs.before).length := by
  have hown : ∀ x ∈ cs.before.reverse, (f.ownText x.1).toList = x.2.text.toList := fun x hx => by
    rw [h.stores.ownText_of_mem]
    rw [Planted.leaves_plug]
    simp only [List.mem_append]
    exact .inl (.inl (List.mem_reverse.1 hx))
  have hlength : f.length (cs.before.reverse.map Prod.fst) = (charsOf cs.before).length := by
    rw [length, ← String.length_toList, String.toList_join, List.map_map, List.flatMap_map]
    simp only [Function.comp_apply]
    rw [List.flatMap_congr hown, charsOf, List.length_flatMap, List.length_flatMap,
      List.map_reverse, List.sum_reverse]
  rw [offset, h.before_eq]
  simp only [visited, faultOf, bind, Except.bind, pure, Except.pure, hlength]

end Forest

/-! ### Changes of the text -/

namespace Forest

variable {f : Forest} {t u : Token} {i : ElementId}

/-- A new leaf is stored with its token. -/
theorem token?_addLeaf_size (f : Forest) (t : Token) : (f.addLeaf t).1.token? f.size = some t := by
  simp [token?, get?_addLeaf]

/-- A new leaf leaves the tokens of the others. -/
theorem token?_addLeaf_of_token? (h : f.token? i = some u) : (f.addLeaf t).1.token? i = some u := by
  have hi : i ≠ f.size := by
    rintro rfl
    simp [token?, get?_eq_none (Nat.le_refl f.size)] at h
  rw [← h, token?, token?, get?_addLeaf, if_neg hi]

end Forest

namespace Workspace

variable {w : Workspace} {d : Document} {p q : Planted} {c : Crumb} {cs : Place} {i : ElementId}
  {t : Token}

/-- The text of the only document is the text at index zero. -/
theorem text_zero (h : w.documents = #[d]) : w.text 0 = d.text w.forest := by
  simp [text, h]

/-- The characters of a document are those of the leaves of its tree. -/
theorem Standing.toList_text (h : w.Standing d p) : (w.text 0).toList = charsOf p.leaves := by
  rw [text_zero h.documents, h.text_eq, Planted.toList_tree_text]

/-- **A change exchanges the characters of the leaves that it removes for those of the leaves that
it inserts**, whatever leaves these are. -/
theorem Standing.text_run {ch : Change} (h : w.Standing d ch.source)
    (hi : ∀ x ∈ ch.inserted, (w.forest.addLeaf t).1.token? x.1 = some x.2)
    (hroom : ch.inserted.length ≤ ch.removed.length + 2) :
    (text ⟨ch.edit.run (w.forest.addLeaf t).1, #[d.recorded ch.edit]⟩ 0).toList =
      (w.text 0).toList.take (charsOf ch.front).length ++ charsOf ch.inserted ++
        (w.text 0).toList.drop ((charsOf ch.front).length + (charsOf ch.removed).length) := by
  have hbefore : (w.text 0).toList =
      charsOf ch.front ++ (charsOf ch.removed ++ charsOf ch.back) := by
    rw [h.toList_text, ch.leaves_source]
    simp [charsOf]
  have hid : ch.target.id = d.root := by
    obtain ⟨ps, hps⟩ := h.root
    obtain ⟨ps', hps'⟩ := Change.target_eq_node hps
    rw [hps', Planted.id]
  have hlength : ch.target.ids.length ≤ (ch.edit.run (w.forest.addLeaf t).1).size + 1 := by
    have hsource := h.comprises.stores.length_ids_le h.comprises.nodup
    rw [ch.ids_source_perm.length_eq] at hsource
    rw [ch.ids_target_perm.length_eq, Edit.size_run, Forest.size_addLeaf]
    simp only [List.length_append, List.length_map] at hsource ⊢
    omega
  have hshown := (h.comprises.toHolds.grows (Forest.grows_addLeaf w.forest t)).shows_run hi
  rw [text_zero rfl, Document.text, Document.root_recorded, ← hid, hshown.text_eq hlength,
    Planted.toList_tree_text, ch.leaves_target, hbefore, List.take_left' rfl, ← List.drop_drop,
    List.drop_left' rfl, List.drop_left' rfl]
  simp [charsOf]

/-! ### The edits -/

/-- At an element with the offset, edits of the tree are edits of the text. -/
structure EditsText (w : Workspace) (e : ElementId) (offset : Nat) : Prop where
  /-- The text has the text of the element at the offset. -/
  slice : offset + (w.forest.text e).length ≤ (w.text 0).length ∧
    ((w.text 0).toList.drop offset).take (w.forest.text e).length = (w.forest.text e).toList
  /-- Inserting a comment before an element other than the root puts its text at the offset, with a
  line break and the blanks that the line of the offset starts with, if nothing else is on it. -/
  insertBefore : (∀ d ∈ w.documents, e ≠ d.root) → ∀ comment, w.forest.isLeaf comment = true →
    ∃ v line, w.attempt 0 (.insertBefore comment e) = .ok v ∧
      LastLine ((w.text 0).toList.take offset) line ∧
      (v.text 0).toList = (w.text 0).toList.take offset ++ (w.forest.ownText comment).toList ++
        '\n' :: (if line.all Text.isBlank then line else []) ++ (w.text 0).toList.drop offset
  /-- Replacing a comment by a line comment exchanges its text. -/
  replaceComment : w.forest.isComment e = true → ∀ s t, IsLineComment s t →
    ∃ v, w.attempt 0 (.replaceComment e s) = .ok v ∧
      (v.text 0).toList = (w.text 0).toList.take offset ++ s.toList ++
        (w.text 0).toList.drop (offset + (w.forest.text e).length)

/-- The text of an element is found where its place starts. -/
theorem Standing.slice (h : w.Standing d (plug cs q)) :
    (charsOf cs.before).length + (w.forest.text q.id).length ≤ (w.text 0).length ∧
    ((w.text 0).toList.drop (charsOf cs.before).length).take (w.forest.text q.id).length =
      (w.forest.text q.id).toList := by
  have hq : (w.forest.text q.id).toList = charsOf q.leaves := by
    rw [h.comprises.stores_at.text_eq h.comprises.nodup_at, Planted.toList_tree_text]
  have hw : (w.text 0).toList = charsOf cs.before ++ (charsOf q.leaves ++ charsOf cs.after) := by
    rw [h.toList_text, Planted.leaves_plug]
    simp [charsOf]
  rw [← String.length_toList, ← String.length_toList, hq, hw]
  refine ⟨by simp only [List.length_append]; omega, ?_⟩
  rw [List.drop_left' rfl, List.take_left' rfl]

/-- Inserting before an element. -/
theorem Standing.text_insertBefore (h : w.Standing d (plug (c :: cs) q)) (hd : d.writable = true)
    (hi : w.forest.token? i = some t) :
    ∃ v, w.attempt 0 (.insertBefore i q.id) = .ok v ∧
      (v.text 0).toList =
        (w.text 0).toList.take (charsOf (Place.before (c :: cs))).length ++
          (t.text.toList ++ (Document.lineBreak (c :: cs)).text.toList) ++
          (w.text 0).toList.drop (charsOf (Place.before (c :: cs))).length := by
  have hsource : w.Standing d
      (Change.insertion c cs q [(i, t), (w.forest.size, Document.lineBreak (c :: cs))]).source := by
    simpa using h
  have hinserted : ∀ x ∈ [(i, t), (w.forest.size, Document.lineBreak (c :: cs))],
      (w.forest.addLeaf (Document.lineBreak (c :: cs))).1.token? x.1 = some x.2 := by
    simpa using ⟨Forest.token?_addLeaf_of_token? hi, Forest.token?_addLeaf_size _ _⟩
  refine ⟨_, ?_, (hsource.text_run hinserted (by simp [Change.insertion])).trans ?_⟩
  · rw [attempt, edit_eq h.documents, Document.insertBefore_eq h.comprises.toHolds hd (i, t)]
    rfl
  · rw [Change.front_insertion]
    simp [Change.insertion, charsOf]

/-- Inserting at the start. -/
theorem Standing.text_insertAtStart (h : w.Standing d p) (hd : d.writable = true)
    (hi : w.forest.token? i = some t) :
    ∃ v, w.attempt 0 (.insertAtStart i) = .ok v ∧ v.text 0 = t.text ++ "\n" ++ w.text 0 := by
  obtain ⟨ps, rfl⟩ := h.root
  have hsource : w.Standing d
      (Change.opening d.root .file ps [(i, t), (w.forest.size, ⟨.whitespace, "\n"⟩)]).source := by
    simpa using h
  have hinserted : ∀ x ∈ [(i, t), (w.forest.size, (⟨.whitespace, "\n"⟩ : Token))],
      (w.forest.addLeaf ⟨.whitespace, "\n"⟩).1.token? x.1 = some x.2 := by
    simpa using ⟨Forest.token?_addLeaf_of_token? hi, Forest.token?_addLeaf_size _ _⟩
  refine ⟨_, ?_, String.toList_inj.1
    ((hsource.text_run hinserted (by simp [Change.opening])).trans ?_)⟩
  · rw [attempt, edit_eq h.documents, Document.insertAtStart_eq .file ps hd (i, t)]
    rfl
  · have hfront : (Change.opening d.root .file ps
        [(i, t), (w.forest.size, ⟨.whitespace, "\n"⟩)]).front = [] := rfl
    rw [hfront]
    simp [Change.opening, charsOf]

/-- Replacing a comment. -/
theorem Standing.text_replaceComment {x : ElementId × Token} {s : String}
    (h : w.Standing d (plug (c :: cs) (.leaf x.1 x.2))) (hd : d.writable = true)
    (hx : x.2.isComment = true) (ht : IsLineComment s t) :
    ∃ v, w.attempt 0 (.replaceComment x.1 s) = .ok v ∧
      (v.text 0).toList =
        (w.text 0).toList.take (charsOf (Place.before (c :: cs))).length ++ s.toList ++
          (w.text 0).toList.drop
            ((charsOf (Place.before (c :: cs))).length + x.2.text.toList.length) := by
  have hsource : w.Standing d (Change.replacement c cs x (w.forest.size, t)).source := by
    simpa using h
  have hinserted : ∀ y ∈ [(w.forest.size, t)],
      (w.forest.addLeaf t).1.token? y.1 = some y.2 := by
    simpa using Forest.token?_addLeaf_size w.forest t
  refine ⟨_, ?_, (hsource.text_run hinserted (by simp [Change.replacement])).trans ?_⟩
  · rw [attempt, edit_eq h.documents,
      Document.replaceComment_eq h.comprises.toHolds h.id_eq hd hx ht.1 ht.2]
    rfl
  · rw [Change.front_replacement]
    simp [Change.replacement, charsOf, ht.text_eq]

/-- At every place of a document that stands, edits of the tree are edits of the text. -/
theorem Standing.editsText (h : w.Standing d (plug cs q)) (hd : d.writable = true) :
    w.EditsText q.id (charsOf cs.before).length where
  slice := h.slice
  insertBefore := by
    intro hroot comment hleaf
    obtain ⟨t, ht⟩ := Option.isSome_iff_exists.1 hleaf
    obtain ⟨c, cs, rfl⟩ : ∃ c cs', cs = c :: cs' := by
      refine List.exists_cons_of_ne_nil fun hnil => hroot d (by simp [h.documents]) ?_
      rw [← h.id_eq, hnil, plug]
    obtain ⟨v, hv, htext⟩ := h.text_insertBefore hd ht
    have htake : (w.text 0).toList.take (charsOf (Place.before (c :: cs))).length =
        charsOf (Place.before (c :: cs)) := by
      rw [h.toList_text, Planted.leaves_plug]
      simp [charsOf]
    refine ⟨v, afterLineFeed (charsOf (Place.before (c :: cs))), hv, ?_, ?_⟩
    · rw [htake]
      exact lastLine_afterLineFeed _
    · have hown : w.forest.ownText comment = t.text := by rw [Forest.ownText, ht]; rfl
      rw [htext, hown, toList_lineBreak, toList_trailingIndent]
      simp only [List.append_assoc, List.cons_append]
  replaceComment := by
    intro hcomment s t ht
    obtain ⟨x, rfl, hx⟩ := h.comprises.toHolds.leaf_of_isComment hcomment
    obtain ⟨c, cs, rfl⟩ := List.exists_cons_of_ne_nil h.place_ne_nil_of_leaf
    have htext : (w.forest.text x.1).length = x.2.text.toList.length := by
      have hleaf : w.forest.text x.1 = _ := h.comprises.stores_at.text_eq h.comprises.nodup_at
      rw [← String.length_toList, hleaf, Planted.toList_tree_text]
      simp [Planted.leaves, charsOf]
    rw [Planted.id, htext]
    exact h.text_replaceComment hd hx ht

/-- **Edits of the tree are edits of the text**, in every state that calls and actions lead to.
Every element has an offset, at which the text has the text of the element, and where edits put
theirs; and inserting at the start puts a line in front of the text. -/
theorem Reached.edits_text {text name : String} (h : Reached text name true w) :
    (∀ e, w.ownerOf? e = some 0 →
      ∃ offset, w.forest.offset e = .ok offset ∧ w.EditsText e offset) ∧
    ∀ comment, w.forest.isLeaf comment = true → ∃ v, w.attempt 0 (.insertAtStart comment) = .ok v ∧
      v.text 0 = w.forest.ownText comment ++ "\n" ++ w.text 0 := by
  obtain ⟨log, hs⟩ := h.session
  obtain ⟨history, p, hp⟩ := hs.opened Session.records_edits
  refine ⟨fun e he => ?_, fun comment hleaf => ?_⟩
  · rw [hp.ownerOf?_eq] at he
    obtain ⟨cs, q, rfl, rfl⟩ := Planted.exists_place (by simpa using he)
    exact ⟨_, hp.comprises.toHolds.offset_eq, hp.editsText rfl⟩
  · obtain ⟨t, ht⟩ := Option.isSome_iff_exists.1 hleaf
    obtain ⟨v, hv, htext⟩ := hp.text_insertAtStart rfl ht
    exact ⟨v, hv, by rw [htext, Forest.ownText, ht]; rfl⟩

/-- A comment stands before an indented rule, so it copied the blanks of its line. The empty
expression in front of it has an offset as well, and the comment may be inserted once more. -/
theorem Reached.edits_text_of_inserted : ∃ w,
    Reached "foo ::= // bar\n  baz ::= qux\n" "g" true w ∧
    w.text 0 = "foo ::= // bar\n  // X\n  baz ::= qux\n" ∧ w.forest.text 6 = "" ∧
    (∃ offset, w.forest.offset 6 = .ok offset ∧ w.EditsText 6 offset) ∧
    ∃ v, w.attempt 0 (.insertAtStart 17) = .ok v ∧
      v.text 0 = w.forest.ownText 17 ++ "\n" ++ w.text 0 := by
  let start := empty.open "foo ::= // bar\n  baz ::= qux\n" "g" true
  let created := start.call 0 (.createComment "// X")
  have h₁ : Reached "foo ::= // bar\n  baz ::= qux\n" "g" true created :=
    .called .opened (by decide)
  let inserted := created.call 0 (.insertBefore 17 9)
  have h₂ : Reached "foo ::= // bar\n  baz ::= qux\n" "g" true inserted :=
    .called h₁ (by decide +kernel)
  exact ⟨inserted, h₂, by decide +kernel, by decide +kernel, h₂.edits_text.1 6 (by decide +kernel),
    h₂.edits_text.2 17 (by decide +kernel)⟩

end Workspace

end BnfSuppression
