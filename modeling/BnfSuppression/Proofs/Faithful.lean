import BnfSuppression.Proofs.Directive
import BnfSuppression.Proofs.Lexing.Written
import BnfSuppression.Proofs.Reading.Insertion
import BnfSuppression.Proofs.Shape.Kept

/-!
# Edited Trees Are Faithful

The tree of a document is edited in place and never read again. It is nevertheless the tree that is
read from its own leaves, in every state that actions and undo lead to, and its leaves are tokens of
the text that was opened with comments written among them.

## Main results

* `Planted.read_insertion`, `Planted.read_replacement`: the tree that an edit makes is the one that
  is read from its leaves.
* `Workspace.Takes.faithful`: **actions keep trees faithful**.
* `Session.faithful`: the tree of a document is faithful throughout a session.
-/

namespace BnfSuppression

open Planted (plug Place Change leafs)
open BnfSuppression.Tree (Reads)

namespace Tree

/-- A tree that is read from its own leaves. -/
def IsRead (T : Tree) : Prop := parseFile T.leaves = T

/-- A file is read from its own leaves exactly if its children are what reading makes of them. -/
theorem isRead_file_iff {Ts : List Tree} : IsRead (node .file Ts) ↔ Reads Ts := by
  simp [IsRead, parseFile, leaves, Reads]

/-- What is read is a file. -/
theorem IsRead.type?_eq {T : Tree} (h : IsRead T) : T.type? = some .file := by
  rw [← h]
  rfl

/-- The texts of comments may be exchanged. -/
theorem IsRead.of_mute {T U : Tree} (h : IsRead T) (hm : U.mute = T.mute) : IsRead U := by
  cases T with
  | leaf t => simpa [type?] using h.type?_eq
  | node type Ts =>
      obtain rfl : type = .file := by simpa [type?] using h.type?_eq
      cases U with
      | leaf u => simp [mute] at hm
      | node type' Us =>
          rw [mute, mute, Tree.node.injEq] at hm
          obtain ⟨rfl, hm⟩ := hm
          exact isRead_file_iff.2 ((isRead_file_iff.1 h).of_mute hm)

end Tree

namespace Planted

variable {c e : Crumb} {cs : Place} {q : Planted} {x b : ElementId × Token}

/-! ### Insertions -/

/-- The three places where a comment is inserted: before a rule, before an attribute of a block
outside rules, and before one of a rule's block. -/
theorem insertion_cases (h : (plug (c :: cs) q).tree.WellShaped)
    (hr : (plug (c :: cs) q).tree.IsRead)
    (hq : q.tree.type? = some .rule ∨ q.tree.type? = some .attr) :
    (∃ ds, q.tree = .node .rule ds ∧ c.type = .file ∧ cs = []) ∨
    (∃ ds id t rest, q.tree = .node .attr ds ∧ c.type = .attrs ∧ c.left = .leaf id t :: rest ∧
      ((∃ e, cs = [e] ∧ e.type = .file) ∨
        ∃ e f, cs = [e, f] ∧ e.type = .rule ∧ f.type = .file)) := by
  have hnode : ∀ type, q.tree.type? = some type → ∃ ds, q.tree = .node type ds := by
    intro type ht
    cases hT : q.tree with
    | leaf t => simp [hT, Tree.type?] at ht
    | node type' ds =>
        rw [hT, Tree.type?, Option.some.injEq] at ht
        exact ⟨ds, by rw [ht]⟩
  rcases hq with hq | hq
  · obtain ⟨ds, hds⟩ := hnode _ hq
    obtain ⟨hc, hcs⟩ := parent_of_rule h hq
    exact .inl ⟨ds, hds, hc, hcs⟩
  · obtain ⟨ds, hds⟩ := hnode _ hq
    obtain ⟨hc, id, t, rest, hl⟩ := parent_of_attr h hq
    refine .inr ⟨ds, id, t, rest, hds, hc, hl, ?_⟩
    have hblock : (plug cs (.node c.id c.type (c.left ++ q :: c.right))).tree.WellShaped := h
    cases cs with
    | nil =>
        have := hr.type?_eq
        simp [plug, tree, Tree.type?, hc] at this
    | cons e es =>
        have hm := mayHold_at hblock (congrArg some hc)
        have houter : (plug es (.node e.id e.type (e.left ++
          .node c.id c.type (c.left ++ q :: c.right) :: e.right))).tree.WellShaped := hblock
        have he : e.type = .file ∨ e.type = .rule := by
          cases he : e.type <;> simp [he, Tree.mayHold] at hm <;> simp
        rcases he with he | he
        · obtain rfl := place_of_file houter (congrArg some he)
          exact .inl ⟨e, rfl, he⟩
        · cases es with
          | nil =>
              have := hr.type?_eq
              simp [plug, tree, Tree.type?, he] at this
          | cons f fs =>
              obtain ⟨hf, rfl⟩ := parent_of_rule houter (congrArg some he)
              exact .inr ⟨e, f, rfl, he, hf⟩

/-- **Where a comment is inserted, the tree is the one that is read from its leaves.** -/
theorem read_insertion (h : (plug (c :: cs) q).tree.WellShaped)
    (hr : (plug (c :: cs) q).tree.IsRead)
    (hq : q.tree.type? = some .rule ∨ q.tree.type? = some .attr) (hx : x.2.isComment = true)
    (hb : b.2.isTrivia = true) : (Change.insertion c cs q [x, b]).target.tree.IsRead := by
  rw [Change.target_insertion]
  rcases insertion_cases h hr hq with
    ⟨ds, hds, hc, rfl⟩ | ⟨ds, id, t, rest, hds, hc, hl, ⟨e, rfl, he⟩ | ⟨e, f, rfl, he, hf⟩⟩
  · simp only [plug, tree, hc, treesOf_append, treesOf, hds, Tree.isRead_file_iff, leafs,
      List.map_cons, List.map_nil, List.cons_append, List.nil_append] at hr ⊢
    exact hr.insert_rule hx hb
  · simp only [plug, tree, hc, hl, he, treesOf_append, treesOf, hds, Tree.isRead_file_iff, leafs,
      List.map_cons, List.map_nil, List.cons_append, List.nil_append] at hr ⊢
    exact hr.insert_attr hx hb
  · simp only [plug, tree, hc, hl, he, hf, treesOf_append, treesOf, hds, Tree.isRead_file_iff,
      leafs, List.map_cons, List.map_nil, List.cons_append, List.nil_append] at hr ⊢
    exact hr.insert_attr_of_rule hx hb

/-- What a comment is inserted before starts with an identifier. -/
theorem exists_name (h : (plug (c :: cs) q).tree.WellShaped) (hr : (plug (c :: cs) q).tree.IsRead)
    (hq : q.tree.type? = some .rule ∨ q.tree.type? = some .attr) :
    ∃ x xs, q.leaves = x :: xs ∧ x.2.isIdentifier = true := by
  have hsolid : ∃ x xs, q.leaves = x :: xs ∧ x.2.isTrivia = false := by
    rcases hq with ht | ht
    · exact leaves_of_isSolid (wellShaped_at h) ht rfl
    · exact leaves_of_isSolid (wellShaped_at h) ht rfl
  obtain ⟨x, xs, hxs, -⟩ := hsolid
  have hleaves : q.tree.leaves = x.2 :: xs.map Prod.snd := by
    rw [leaves_tree, hxs, List.map_cons]
  refine ⟨x, xs, hxs, ?_⟩
  rcases insertion_cases h hr hq with
    ⟨ds, hds, hc, rfl⟩ | ⟨ds, id, t, rest, hds, hc, hl, ⟨e, rfl, he⟩ | ⟨e, f, rfl, he, hf⟩⟩
  · simp only [plug, tree, hc, treesOf_append, treesOf, hds, Tree.isRead_file_iff] at hr
    exact hr.isIdentifier_of_rule (hds ▸ hleaves)
  · simp only [plug, tree, hc, hl, he, treesOf_append, treesOf, hds, Tree.isRead_file_iff,
      List.cons_append] at hr
    exact hr.isIdentifier_of_attr (hds ▸ hleaves)
  · simp only [plug, tree, hc, hl, he, hf, treesOf_append, treesOf, hds, Tree.isRead_file_iff,
      List.cons_append] at hr
    exact hr.isIdentifier_of_attr_of_rule (hds ▸ hleaves)

/-! ### Replacements and openings -/

/-- Muting sees the subtree at a place only muted. -/
theorem mute_plug {q' : Planted} (h : q'.tree.mute = q.tree.mute) (cs : Place) :
    (plug cs q').tree.mute = (plug cs q).tree.mute := by
  induction cs generalizing q q' with
  | nil => exact h
  | cons c cs ih =>
      refine ih ?_
      simp only [tree, treesOf_append, treesOf, Tree.mute, Tree.muteAll_append, Tree.muteAll, h]

/-- **Where a comment is replaced, the tree is the one that is read from its leaves.** -/
theorem read_replacement {y : ElementId × Token}
    (hr : (plug (c :: cs) (.leaf x.1 x.2)).tree.IsRead) (hxy : y.2.mute = x.2.mute) :
    (Change.replacement c cs x y).target.tree.IsRead := by
  have hleaf : (leaf y.1 y.2).tree.mute = (leaf x.1 x.2).tree.mute := by
    simp [tree, Tree.mute, hxy]
  rw [Change.target_replacement]
  exact hr.of_mute (mute_plug hleaf (c :: cs))

/-- **Where a comment is put at the start, the tree is the one that is read from its leaves.** -/
theorem read_opening {id : ElementId} {ps : List Planted} (hr : (node id .file ps).tree.IsRead)
    (hx : x.2.isTrivia = true) (hb : b.2.isTrivia = true) :
    (Change.opening id .file ps [x, b]).target.tree.IsRead := by
  rw [Change.target_opening]
  simp only [tree, treesOf, Tree.isRead_file_iff, leafs, List.map_cons, List.map_nil,
    List.cons_append, List.nil_append] at hr ⊢
  exact (hr.cons_trivia hb).cons_trivia hx

/-! ### Faithful trees -/

/-- A tree such as reading makes of a text, with comments written into it since. -/
structure Faithful (original : List Token) (p : Planted) : Prop where
  shaped : p.tree.WellShaped
  read : p.tree.IsRead
  written : Token.Written original (p.leaves.map Prod.snd)

/-- The leaves of a tree that is read are the tokens of the text. -/
theorem map_snd_leaves_plantedFrom (text : String) (next : ElementId) :
    ((Tree.parse text).plantedFrom next).leaves.map Prod.snd = tokenize text := by
  rw [← leaves_tree, Tree.tree_plantedFrom, Tree.parse, Tree.leaves_parseFile]

end Planted

namespace Token

variable {text : String} {t b : Token}

/-- A comment that a text is read as is whole. -/
theorem endsBefore_of_tokenize (h : tokenize text = [t]) : t.EndsBefore [] := by
  have hs : Spelled (tokenize text) := spelled_tokens _
  rw [h] at hs
  exact hs.1

/-- A text that is read as one line comment, and white space that starts with a line feed, make up a
line. -/
theorem isLine_of_tokenize (h : tokenize text = [t]) (ht : t.type = .lineComment)
    (hb : b.type = .whitespace)
    (hbt : ∃ cs, b.text.toList = '\n' :: cs ∧ ∀ d ∈ cs, Text.isBlank d = true) : IsLine t b :=
  ⟨ht, endsBefore_of_tokenize h, hb, hbt⟩

/-- A line comment of a text is read as one on its own. -/
theorem isLineComment_of_mem_tokenize (h : t ∈ tokenize text) (ht : t.type = .lineComment) :
    Workspace.IsLineComment t.text t := by
  obtain ⟨rest, hends⟩ := (spelled_tokens text.toList).endsBefore_of_mem h
  obtain ⟨ds, htext, hline, -⟩ := (endsBefore_iff_of_lineComment ht).1 hends
  have hwhole : t.EndsBefore [] := (endsBefore_iff_of_lineComment ht).2 ⟨ds, htext, hline, by simp⟩
  have hread : tokens (spell [t]) = [t] := tokens_spell_iff.2 ⟨hwhole, trivial⟩
  exact ⟨by simpa [tokenize] using hread, ht⟩

end Token

namespace Workspace

variable {w v : Workspace} {d : Document} {s : Settings} {a : Action} {cs : Place} {q : Planted}
  {original : List Token}

/-- A text that is one line comment stays on one line. -/
theorem IsLineComment.isOneLine {text : String} {t : Token} (h : IsLineComment text t) :
    Directive.IsOneLine text := by
  obtain ⟨ds, htext, hline, -⟩ :=
    (Token.endsBefore_iff_of_lineComment h.2).1 (Token.endsBefore_of_tokenize h.1)
  rw [h.text_eq] at htext
  intro c hc
  rw [htext, List.mem_cons, List.mem_cons] at hc
  rcases hc with rfl | rfl | hc
  · decide
  · decide
  · exact hline c hc

/-- A directive that leads a container is a line comment: a block comment is no directive. -/
theorem lineComment_of_directive? {verb : String} {x : ElementId × Token} {dir : Directive}
    (hw : Token.Written original ((plug cs q).leaves.map Prod.snd))
    (hx : Leaves.directive? verb (Leaves.trailingComments cs.before) = some (x, dir)) :
    x ∈ (plug cs q).leaves ∧ x.2.type = .lineComment := by
  obtain ⟨hmem, hdir⟩ := Leaves.of_directive?_eq_some hx
  obtain ⟨hmem, hc⟩ := Leaves.mem_of_mem_trailingComments hmem
  have hleaf : x ∈ (plug cs q).leaves := by simp [Planted.leaves_plug, hmem]
  refine ⟨hleaf, ?_⟩
  cases ht : x.2.type with
  | lineComment => rfl
  | blockComment =>
      obtain ⟨ds, hds⟩ := hw.block x.2 (List.mem_map_of_mem hleaf) ht
      simp [Directive.parse?, Directive.afterMarker?, Directive.markers, hds] at hdir
  | _ => simp [Token.isComment, TokenType.isComment, ht] at hc

/-- Replacing a line comment by another one keeps a tree faithful to the text. -/
theorem faithful_replacement {b : Crumb} {bs : Place} {x : ElementId × Token} {t : Token}
    {text : String} (hp : (plug (b :: bs) (.leaf x.1 x.2)).Faithful original)
    (hx : x.2.type = .lineComment) (ht : IsLineComment text t) (id : ElementId) :
    (Change.replacement b bs x (id, t)).target.Faithful original := by
  have hc := Token.isComment_of_lineComment hx
  have htc := Token.isComment_of_lineComment ht.2
  refine ⟨Planted.wellShaped_replacement hp.shaped hc htc,
    Planted.read_replacement hp.read (Token.mute_eq_of_lineComment ht.2 hx), ?_⟩
  have hw := hp.written
  rw [← Change.source_replacement b bs x (id, t), Change.leaves_source] at hw
  rw [Change.leaves_target]
  simp only [Change.replacement, List.map_append, List.map_cons, List.append_assoc,
    List.singleton_append] at hw ⊢
  exact hw.replace hx ht.2 (Token.endsBefore_of_tokenize ht.1)

/-- Inserting a line comment and a line break before a rule or an attribute keeps a tree faithful to
the text. -/
theorem faithful_insertion {c : Crumb} {text : String} {t : Token}
    (hp : (plug (c :: cs) q).Faithful original)
    (hq : q.tree.type? = some .rule ∨ q.tree.type? = some .attr) (ht : IsLineComment text t)
    (i j : ElementId) :
    (Change.insertion c cs q [(i, t), (j, Document.lineBreak (c :: cs))]).target.Faithful
      original := by
  have htc := Token.isComment_of_lineComment ht.2
  refine ⟨Planted.wellShaped_insertion hp.shaped hq _,
    Planted.read_insertion hp.shaped hp.read hq htc rfl, ?_⟩
  obtain ⟨x, xs, hxs, hx⟩ := Planted.exists_name hp.shaped hp.read hq
  have hline : Token.IsLine t (Document.lineBreak (c :: cs)) := by
    refine Token.isLine_of_tokenize ht.1 ht.2 rfl ⟨_, by simp [Document.lineBreak]; rfl, ?_⟩
    simpa using Forest.isBlank_trailingIndent (Forest.charsOf (Place.before (c :: cs)))
  have hw := hp.written
  rw [← Change.source_insertion c cs q [(i, t), (j, Document.lineBreak (c :: cs))],
    Change.leaves_source] at hw
  rw [Change.leaves_target]
  simp only [Change.insertion, Change.back, Planted.leavesOf, hxs, List.map_append, List.map_cons,
    List.append_assoc, List.cons_append, List.nil_append] at hw ⊢
  exact hw.insert hx hline

/-- Inserting a line comment and a line feed at the start of a file keeps it faithful to the
text. -/
theorem faithful_opening {ps : List Planted} {root : ElementId} {text : String} {t : Token}
    (hp : (Planted.node root .file ps).Faithful original) (ht : IsLineComment text t)
    (i j : ElementId) :
    (Change.opening root .file ps [(i, t), (j, ⟨.whitespace, "\n"⟩)]).target.Faithful original := by
  have htc := Token.isComment_of_lineComment ht.2
  refine ⟨Planted.wellShaped_opening hp.shaped _,
    Planted.read_opening hp.read (Token.isTrivia_of_isComment htc) rfl, ?_⟩
  have hline : Token.IsLine t ⟨.whitespace, "\n"⟩ :=
    Token.isLine_of_tokenize ht.1 ht.2 rfl ⟨[], rfl, by simp⟩
  have hw := hp.written
  rw [Change.target_opening]
  simp only [Planted.leaves, Planted.leavesOf, leafs, List.map_cons, List.map_nil, List.cons_append,
    List.nil_append] at hw ⊢
  exact hw.prepend hline

/-- **Actions keep trees faithful.** -/
theorem Takes.faithful (h : w.Takes d s a cs q v) (hw : w.Standing d (plug cs q))
    (hp : (plug cs q).Faithful original) (hq : q.tree.kind = a.scope) :
    ∃ d' p', v.Standing d' p' ∧ p'.Faithful original := by
  cases h with
  | listed => exact ⟨d, _, hw, hp⟩
  | @merged x dir b bs t _ ha hx _ ht hplug hm =>
      have hline := (lineComment_of_directive? hp.written hx).2
      rw [hplug] at hp
      exact ⟨_, _, hm.standing, faithful_replacement hp hline ht _⟩
  | inserted ha _ ht hcs hm =>
      subst hcs
      exact ⟨_, _, hm.standing, faithful_insertion hp (type?_of_scope hq ha) ht _ _⟩
  | opened _ ht hplug hm =>
      rw [hplug] at hp
      exact ⟨_, _, hm.standing, faithful_opening hp ht _ _⟩

end Workspace

/-- **The tree of a document is faithful** in every state that actions and undo lead to. -/
theorem Session.faithful {text name : String} {writable : Bool} {w : Workspace}
    {log : Session.Log}
    (h : Session Workspace.Applies (Workspace.empty.open text name writable) w log) :
    ∃ d p, w.Standing d p ∧ p.Faithful (tokenize text) := by
  refine h.kept (P := fun w => ∃ d p, w.Standing d p ∧ p.Faithful (tokenize text)) records_applies
    ⟨_, _, Workspace.standing_open text name writable, ?_⟩ ?_ ?_
  · refine ⟨?_, ?_, ?_⟩
    · rw [Tree.tree_plantedFrom]
      exact Tree.wellShaped_parse text
    · rw [Tree.tree_plantedFrom, Tree.IsRead, Tree.parse, Tree.leaves_parseFile]
    · rw [Planted.map_snd_leaves_plantedFrom]
      exact Token.written_tokenize text
  · rintro u v - ⟨d, p, hu, hp⟩ ⟨hv, hne⟩
    rcases hu.takes_of_apply hv with ⟨-, rfl⟩ | ⟨cs, q, rfl, -, hq, ht⟩
    · exact absurd rfl hne
    · exact ht.faithful hu hp hq
  · rintro u v - ⟨d, p, hu, hp⟩ huv
    exact ⟨d, p, hu.extends huv, hp⟩

end BnfSuppression
