import BnfSuppression.Proofs.Atomic
import BnfSuppression.Proofs.Effect

/-!
# Writing Suppressions Changes Nothing Else

However many suppression actions are taken on a document, each leaves it alone or makes one recorded
edit of its list of leaves: a comment and a line break are put in next to each other, or a directive
among the comments before the container is exchanged for one that lists the id as well. All other
leaves stay, with their tokens and in their order, so the code in the document is that of the text
that was opened.

## Main definitions

* `Forest.spelled`: the leaves of an element with their tokens.
* `Suppression`: an action that is taken for an element; `Workspace.suppressAll` is what a sequence
  of them leaves.
* `Workspace.Exchanges`: one recorded edit puts leaves in the place of others.
* `Workspace.Writes`: what a suppression does to the leaves of a document.

## Main results

* `Workspace.Bears.writes`: the step, for a document whose tree has the shape of what is read.
* `Workspace.suppressAll_writes`: **in a run of suppressions each is one of the writes, and the code
  is that of the original text**.
-/

namespace BnfSuppression

open Planted (plug Place Change leafs)

/-- The leaves of an element with their tokens, in the order of the text. -/
def Forest.spelled (f : Forest) (id : ElementId) : List (ElementId × Token) :=
  (f.leaves id).filterMap fun i => (f.token? i).map fun t => (i, t)

/-- The tokens of a document that are neither white space nor comments. -/
def Document.code (d : Document) (f : Forest) : List Token :=
  ((f.spelled d.root).map Prod.snd).filter fun t => !t.isTrivia

/-- The leaves of a stored tree are spelled as in the tree. -/
theorem Forest.Stores.spelled_eq {f : Forest} {outer? : Option ElementId} {p : Planted}
    (h : f.Stores outer? p) (hn : p.ids.Nodup) : f.spelled p.id = p.leaves := by
  rw [spelled, h.leaves_eq hn, List.filterMap_map]
  refine (List.filterMap_congr fun x hx => ?_).trans List.filterMap_some
  rw [Function.comp_apply, h.token?_of_mem hx, Option.map_some]

/-! ### Suppressions -/

/-- A suppression action that is taken for an element, with the settings of the time. -/
structure Suppression where
  settings : Settings
  action : Action
  element? : Option ElementId

namespace Suppression

/-- What is left of a workspace, whether the action fails or not. -/
def after (r : Suppression) (w : Workspace) : Workspace :=
  (Procedure.apply r.settings r.action r.element?).after w

/-- The element is the container that the action is for: the nearest of its kind. -/
def IsFor (r : Suppression) (w : Workspace) (k : ElementId) : Prop :=
  ∃ x ∈ r.element?, w.forest.Nearest r.action.scope x k

/-- The tokens are a line comment, and white space that starts with a line feed and has only blanks
behind it. -/
structure IsLine (c b : ElementId × Token) : Prop where
  comment : c.2.type = .lineComment
  whitespace : b.2.type = .whitespace
  lineFeed : ∃ cs, b.2.text.toList = '\n' :: cs ∧ ∀ c ∈ cs, Text.isBlank c = true

/-- With the usual marker and with ids, the text is a directive for what the old one lists, in the
old order, and for the check behind it, each once. -/
def Appends (r : Suppression) (dir : Directive) (text : String) : Prop :=
  r.settings.marker = "//" → Directive.IsId r.settings.verb → Directive.IsId r.action.check →
    Directive.parse? text r.settings.verb =
        some ⟨r.settings.verb, dir.ids ++ [r.action.check]⟩ ∧
      (dir.ids ++ [r.action.check]).Nodup

end Suppression

namespace Workspace

/-- What suppressions leave, taken one after the other. -/
def suppressAll (w : Workspace) (rs : List Suppression) : Workspace :=
  rs.foldl (fun w r => r.after w) w

/-- One recorded edit of the only document puts leaves in the place of others. The leaves on both
sides stay. -/
structure Exchanges (w : Workspace) (d : Document)
    (front removed inserted back : List (ElementId × Token)) (v : Workspace) : Prop where
  recorded : ∃ e : Edit, v.documents = #[d.recorded e] ∧ e.removed = removed.map Prod.fst ∧
    e.inserted = inserted.map Prod.fst
  source : w.forest.spelled d.root = front ++ removed ++ back
  target : v.forest.spelled d.root = front ++ inserted ++ back

/-- What a suppression does to the leaves of the only document. -/
inductive Writes (w : Workspace) (d : Document) (r : Suppression) : Workspace → Prop
  /-- The document is untouched. -/
  | untouched {v : Workspace} : w.Untouched v →
    v.forest.spelled d.root = w.forest.spelled d.root → Writes w d r v
  /-- A comment and a line break are inserted right before the first leaf of the container. -/
  | inserted {v : Workspace} {k : ElementId} {before after : List (ElementId × Token)}
    {c b : ElementId × Token} :
    r.action.scope ≠ .document → r.IsFor w k →
    w.forest.spelled d.root = before ++ w.forest.spelled k ++ after → w.forest.spelled k ≠ [] →
    Suppression.IsLine c b →
    w.Exchanges d before [] [c, b] (w.forest.spelled k ++ after) v → Writes w d r v
  /-- A comment and a line break are inserted before every leaf. -/
  | opened {v : Workspace} {k : ElementId} {c b : ElementId × Token} :
    r.action.scope = .document → r.IsFor w k → Suppression.IsLine c b →
    w.Exchanges d [] [] [c, b] (w.forest.spelled d.root) v → Writes w d r v
  /-- A directive, with only white space and comments between it and the container, is replaced by
  a line comment. -/
  | merged {v : Workspace} {k : ElementId} {front gap after : List (ElementId × Token)}
    {x c : ElementId × Token} {dir : Directive} :
    r.action.scope ≠ .document → r.IsFor w k → w.forest.spelled k ≠ [] →
    x.2.isComment = true → Directive.parse? x.2.text r.settings.verb = some dir →
    (∀ y ∈ gap, y.2.isTrivia = true) → c.2.type = .lineComment → r.Appends dir c.2.text →
    w.Exchanges d front [x] [c] (gap ++ w.forest.spelled k ++ after) v → Writes w d r v

/-! ### The step -/

variable {w v : Workspace} {d : Document} {p q : Planted} {cs : Place} {c : Change}
  {r : Suppression} {code : List Token} {front removed inserted back : List (ElementId × Token)}

/-- White space and comments are no code. -/
theorem Exchanges.code_eq (h : w.Exchanges d front removed inserted back v)
    (hr : ∀ x ∈ removed, x.2.isTrivia = true) (hi : ∀ x ∈ inserted, x.2.isTrivia = true) :
    d.code v.forest = d.code w.forest := by
  have hnone : ∀ xs : List (ElementId × Token), (∀ x ∈ xs, x.2.isTrivia = true) →
      ((xs.map Prod.snd).filter fun t => !t.isTrivia) = [] := by
    intro xs hxs
    rw [List.filter_eq_nil_iff]
    intro t ht
    obtain ⟨x, hx, rfl⟩ := List.mem_map.1 ht
    simp [hxs x hx]
  rw [Document.code, Document.code, h.source, h.target]
  simp only [List.map_append, List.filter_append, hnone _ hr, hnone _ hi]

/-- A line that is written consists of a comment and white space. -/
theorem isTrivia_of_isLine {c b : ElementId × Token} (h : Suppression.IsLine c b) :
    ∀ x ∈ [c, b], x.2.isTrivia = true := by
  simp [Token.isTrivia, TokenType.isTrivia, h.comment, h.whitespace]

/-- **No suppression changes the code.** -/
theorem Writes.code_eq (h : w.Writes d r v) : d.code v.forest = d.code w.forest := by
  cases h with
  | untouched _ hs => rw [Document.code, Document.code, hs]
  | inserted _ _ _ _ hl hx => exact hx.code_eq (by simp) (isTrivia_of_isLine hl)
  | opened _ _ hl hx => exact hx.code_eq (by simp) (isTrivia_of_isLine hl)
  | merged _ _ _ hc _ _ ht _ hx =>
      refine hx.code_eq ?_ ?_
      · simpa using Token.isTrivia_of_isComment hc
      · simp [Token.isTrivia, TokenType.isTrivia, ht]

/-- The document stays the only one, with its root. -/
theorem Writes.root_eq (h : w.Writes d r v) (hw : w.documents = #[d]) {d' : Document}
    (hv : v.documents = #[d']) : d'.root = d.root := by
  have hrecorded : ∀ e : Edit, v.documents = #[d.recorded e] → d'.root = d.root := by
    intro e he
    obtain rfl : d' = d.recorded e := by simpa [hv] using he
    rfl
  cases h with
  | untouched hd _ =>
      obtain rfl : d' = d := by simpa [hv, hw] using hd.documents
      rfl
  | inserted _ _ _ _ _ hx => exact hrecorded _ hx.recorded.choose_spec.1
  | opened _ _ _ hx => exact hrecorded _ hx.recorded.choose_spec.1
  | merged _ _ _ _ _ _ _ _ hx => exact hrecorded _ hx.recorded.choose_spec.1

/-- The only document has a tree of the shape of what is read, in a forest in layers, and the code
is the given one. -/
structure Bears (w : Workspace) (code : List Token) (d : Document) (p : Planted) : Prop
    extends w.Standing d p where
  layered : w.Layered
  shaped : p.tree.WellShaped
  code_eq : d.code w.forest = code

/-- The leaves that the document spells are those of its tree, with their tokens. -/
theorem Standing.spelled_eq (h : w.Standing d p) : w.forest.spelled d.root = p.leaves := by
  rw [← h.id_eq, h.comprises.stores.spelled_eq h.comprises.nodup]

/-- The leaves before and after an element of the tree. -/
theorem Standing.spelled_at (h : w.Standing d (plug cs q)) :
    w.forest.spelled q.id = q.leaves ∧
      w.forest.spelled d.root = cs.before ++ w.forest.spelled q.id ++ cs.after := by
  have hq := h.comprises.stores_at.spelled_eq h.comprises.nodup_at
  exact ⟨hq, by rw [hq, h.spelled_eq, Planted.leaves_plug]⟩

/-- A recorded change exchanges what it removes for what it inserts. -/
theorem Makes.exchanges (h : w.Makes d c v) (hw : w.Standing d c.source) :
    w.Exchanges d c.front c.removed c.inserted c.back v where
  recorded := by
    obtain ⟨g, -, -, rfl⟩ := h.prepared
    exact ⟨c.edit, rfl, rfl, rfl⟩
  source := by rw [hw.spelled_eq, c.leaves_source]
  target := by rw [← Document.root_recorded d c.edit, h.standing.spelled_eq, c.leaves_target]

/-- A line comment makes up a line with the line break that an insertion puts behind it. -/
theorem isLine_lineBreak {t : Token} (ht : t.type = .lineComment) (i j : ElementId) (cs : Place) :
    Suppression.IsLine (i, t) (j, Document.lineBreak cs) where
  comment := ht
  whitespace := rfl
  lineFeed := ⟨_, by simp [Document.lineBreak]; rfl, by
    simpa using Forest.isBlank_trailingIndent (Forest.charsOf cs.before)⟩

/-- What a directive with one more id is read as. -/
theorem appends_withId {text : String} {dir : Directive} {t : Token}
    (hdir : Directive.parse? text r.settings.verb = some dir) (hi : r.action.check ∉ dir.ids)
    (ht : IsLineComment ((dir.withId r.action.check).render r.settings.marker) t) :
    r.Appends dir t.text := by
  intro hmarker _ hcheck
  have hread := Directive.parse?_render_withId Directive.slashes_mem_markers hcheck hdir
  have hwith : dir.withId r.action.check = ⟨r.settings.verb, dir.ids ++ [r.action.check]⟩ := by
    rw [← (Directive.of_parse?_eq_some hdir).1]
    simp [Directive.withId, hi]
  rw [ht.text_eq, hmarker, ← hwith]
  have hnodup := (Directive.of_parse?_eq_some hread).2.2.2
  rw [hwith] at hnodup
  exact ⟨hread, hnodup⟩

/-- The id for a rule or an attribute is that of the check. -/
theorem id_of_scope {a : Action} (ha : a.scope ≠ .document) (s : Settings) : a.id s = a.check :=
  if_neg ha

/-- What an action does to the tree, seen in the leaves. -/
theorem Takes.writes (ht : w.Takes d r.settings r.action cs q v) (h : w.Standing d (plug cs q))
    (hk : r.IsFor w q.id) (hp : (plug cs q).tree.WellShaped) (hq : q.tree.kind = r.action.scope) :
    Writes w d r v := by
  obtain ⟨hspelled, hroot⟩ := h.spelled_at
  have hne : r.action.scope ≠ .document → w.forest.spelled q.id ≠ [] := by
    intro ha
    obtain ⟨x, xs, hx, -⟩ := leaves_of_rule_or_attr hp (type?_of_scope hq ha)
    simp [hspelled, hx]
  cases ht with
  | listed => exact .untouched (.refl w) rfl
  | @merged x dir b bs t v ha hx hi ht hplug hm =>
      obtain ⟨hmem, hdir⟩ := Leaves.of_directive?_eq_some hx
      obtain ⟨gap, hbefore, hgap⟩ := h.exists_gap hmem hplug
      have hexchanges := hm.exchanges (by simpa [← hplug] using h)
      have hback : (Change.replacement b bs x (w.forest.size, t)).back =
          gap ++ w.forest.spelled q.id ++ cs.after := by
        have hsource := hexchanges.source.symm.trans (hroot.trans (congrArg (· ++ _ ++ _) hbefore))
        rw [List.append_assoc _ gap, List.append_assoc _ (gap ++ _)] at hsource
        exact List.append_cancel_left hsource
      rw [hback] at hexchanges
      rw [id_of_scope ha] at hi ht
      exact .merged ha hk (hne ha) (Leaves.mem_of_mem_trailingComments hmem).2 hdir hgap ht.2
        (appends_withId hdir hi ht) hexchanges
  | @inserted b bs t v ha hx ht hcs hm =>
      subst hcs
      have hexchanges := hm.exchanges (by simpa using h)
      have hback : (Change.insertion b bs q [(w.forest.size, t),
          (w.forest.size + 1, Document.lineBreak (b :: bs))]).back =
          w.forest.spelled q.id ++ Place.after (b :: bs) := by
        simp [Change.insertion, Change.back, Planted.leavesOf, hspelled, Place.after]
      rw [hback] at hexchanges
      exact .inserted ha hk hroot (hne ha) (isLine_lineBreak ht.2 _ _ _) hexchanges
  | @opened ps t v ha ht hplug hm =>
      have hexchanges := hm.exchanges (by simpa [← hplug] using h)
      have hback : (Change.opening d.root .file ps [(w.forest.size, t),
          (w.forest.size + 1, ⟨.whitespace, "\n"⟩)]).back = w.forest.spelled d.root :=
        hexchanges.source.symm
      rw [hback] at hexchanges
      exact .opened ha hk ⟨ht.2, rfl, [], by simp, by simp⟩ hexchanges

/-- **One suppression writes what it is to write**, and the document keeps its shape and its
code. -/
theorem Bears.writes (h : w.Bears code d p) (r : Suppression) :
    Writes w d r (r.after w) ∧ ∃ d' p', (r.after w).Bears code d' p' := by
  have hperforms := Procedure.performs_apply w r.settings r.action r.element?
  have hlayered := h.layered.after hperforms fun v => h.layered.apply
  suffices hwrites : Writes w d r (r.after w) ∧
      ∃ d' p', (r.after w).Standing d' p' ∧ p'.tree.WellShaped by
    obtain ⟨hw, d', p', hs, hp⟩ := hwrites
    have hcode : d'.code (r.after w).forest = d.code w.forest := by
      rw [← hw.code_eq, Document.code, Document.code, hw.root_eq h.documents hs.documents]
    exact ⟨hw, d', p', hs, hlayered, hp, hcode.trans h.code_eq⟩
  have hafter : r.after w = (Procedure.apply r.settings r.action r.element?).after w := rfl
  rw [hafter, Procedure.after]
  cases hr : w.apply r.settings r.action r.element? with
  | error e =>
      -- the procedure created leaves at most
      rw [hr] at hperforms
      obtain ⟨v, hrun, hv⟩ := hperforms
      have hs := h.toStanding.extends hv
      rw [hrun]
      exact ⟨.untouched (h.layered.untouched hv) (by rw [hs.spelled_eq, h.spelled_eq]), d, p, hs,
        h.shaped⟩
  | ok v =>
      rw [hr] at hperforms
      have hrun : (Procedure.apply r.settings r.action r.element?).runs w = (.ok ⟨⟩, v) := hperforms
      rw [hrun]
      rcases h.takes_of_apply hr with ⟨-, rfl⟩ | ⟨cs, q, rfl, hk, hq, ht⟩
      · exact ⟨.untouched (.refl _) rfl, d, p, h.toStanding, h.shaped⟩
      · obtain ⟨x, hx, hk⟩ := Option.bind_eq_some_iff.1 hk
        exact ⟨ht.writes h.toStanding ⟨x, hx, h.layered.forest.enclosing?_eq_some_iff.1 hk⟩
          h.shaped hq, ht.wellShaped h.toStanding h.shaped hq⟩

/-- A text that was opened bears its own code. -/
theorem bears_open (text name : String) (writable : Bool) :
    (empty.open text name writable).Bears ((tokenize text).filter fun t => !t.isTrivia)
      ⟨name, writable, text, 0, []⟩ ((Tree.parse text).plantedFrom 0) where
  toStanding := standing_open text name writable
  layered := layered_empty.opened text name writable
  shaped := by
    rw [Tree.tree_plantedFrom]
    exact Tree.wellShaped_parse text
  code_eq := by
    rw [Document.code, (standing_open text name writable).spelled_eq, ← Planted.leaves_tree,
      Tree.tree_plantedFrom, Tree.parse, Tree.leaves_parseFile]

/-- A run of suppressions keeps the shape and the code. -/
theorem Bears.suppressAll (h : w.Bears code d p) (rs : List Suppression) :
    ∃ d' p', (w.suppressAll rs).Bears code d' p' := by
  induction rs generalizing w d p with
  | nil => exact ⟨d, p, h⟩
  | cons r rs ih =>
      obtain ⟨d', p', h'⟩ := (h.writes r).2
      exact ih h'

/-- **In a run of suppressions each is one of the writes, and the code is that of the original
text.** -/
theorem suppressAll_writes (text name : String) (writable : Bool) (rs : List Suppression)
    (r : Suppression) :
    ∃ d, ((empty.open text name writable).suppressAll rs).documents = #[d] ∧
      Writes ((empty.open text name writable).suppressAll rs) d r
        (r.after ((empty.open text name writable).suppressAll rs)) ∧
      d.code ((empty.open text name writable).suppressAll rs).forest =
        (tokenize text).filter fun t => !t.isTrivia := by
  obtain ⟨d, p, h⟩ := (bears_open text name writable).suppressAll rs
  exact ⟨d, h.documents, (h.writes r).1, h.code_eq⟩

end Workspace

end BnfSuppression
