import BnfSuppression.Proofs.Faithful
import BnfSuppression.Proofs.Resolver

/-!
# Saving and Opening Again

A document that was edited by actions can be saved and opened again. The tree that is read then is
the edited one with white space side by side joined, if and only if no comment stands right after a
stray slash. What is suppressed for which element is then the same, as are the solid tokens.

The answers are compared through `Workspace.verdicts`: what a document shows but for its white
space, in the order of the text. On the side of trees, `Tree.verdicts` computes them from what leads
an element on the way down to it.

## Main results

* `Workspace.Standing.verdicts_eq`: the answers of a document depend on its tree alone.
* `Tree.verdicts_joined`: joining white space leaves them alone.
* `Session.reads_back_iff`: **when the document is read back as it was edited**.
-/

namespace BnfSuppression

open Planted (plug Place)

/-! ### Leading comments without white space -/

namespace Token

/-- The tokens but for white space. -/
def bare (ts : List Token) : List Token := ts.filter fun t => !t.isWhitespace

/-- Leaving white space out of two lists of tokens leaves it out of each of them. -/
@[simp]
theorem bare_append (ts us : List Token) : bare (ts ++ us) = bare ts ++ bare us := by
  simp [bare]

/-- Whether one of the comments in front lists an id. -/
def opens (s : Settings) (id : String) (ts : List Token) : Bool :=
  (ts.takeWhile isComment).any fun t => s.mentions t.text id

/-- Without white space, the comments of a stretch of white space and comments are a stretch. -/
theorem filter_takeWhile_isTrivia (ts : List Token) :
    (ts.takeWhile isTrivia).filter isComment = (bare ts).takeWhile isComment := by
  induction ts with
  | nil => rfl
  | cons t ts ih =>
      cases hw : t.isWhitespace with
      | true =>
          have hc := isComment_of_isWhitespace hw
          rw [List.takeWhile_cons_of_pos (isTrivia_of_isWhitespace hw),
            List.filter_cons_of_neg (by simp [hc]), ih, bare, bare,
            List.filter_cons_of_neg (by simp [hw])]
      | false =>
          have ht : t.isTrivia = t.isComment := by
            rw [isTrivia, TokenType.isTrivia_eq]
            exact (congrArg (· || t.isComment) hw).trans (Bool.false_or _)
          have hb : bare (t :: ts) = t :: bare ts := List.filter_cons_of_pos (by simp [hw])
          rw [hb]
          cases hc : t.isComment with
          | true =>
              rw [List.takeWhile_cons_of_pos (ht.trans hc), List.filter_cons_of_pos hc, ih,
                List.takeWhile_cons_of_pos hc]
          | false =>
              rw [List.takeWhile_cons_of_neg (by simp [ht, hc]),
                List.takeWhile_cons_of_neg (by simp [hc])]
              rfl

end Token

namespace Leaves

open Token (bare opens)

variable (s : Settings) (id : String) (xs : List (ElementId × Token))

/-- What the comments at the start of a stretch list does not depend on the white space between
them. -/
theorem lists_filter_takeWhile :
    lists s id ((xs.takeWhile fun x => x.2.isTrivia).filter fun x => x.2.isComment) =
      opens s id (bare (xs.map Prod.snd)) := by
  have hmap : ((xs.map Prod.snd).takeWhile Token.isTrivia).filter Token.isComment =
      ((xs.takeWhile fun x => x.2.isTrivia).filter fun x => x.2.isComment).map Prod.snd := by
    rw [List.takeWhile_map, List.filter_map]
    rfl
  rw [opens, ← Token.filter_takeWhile_isTrivia, hmap, List.any_map]
  rfl

/-- What the first comments of some leaves list shows once white space is left out. -/
theorem lists_openingComments :
    lists s id (openingComments xs) = opens s id (bare (xs.map Prod.snd)) :=
  lists_filter_takeWhile s id xs

/-- What the last comments of some leaves list shows once white space is left out. -/
theorem lists_trailingComments :
    lists s id (trailingComments xs) = opens s id (bare (xs.map Prod.snd)).reverse := by
  rw [trailingComments, lists_filter_takeWhile, List.map_reverse]
  simp only [bare, List.filter_reverse]

end Leaves

/-! ### Answers of a document -/

/-- What a document shows at one element: the type of a composite or the token of a leaf, and
whether a check is suppressed for it. -/
abbrev Verdict := Option ElementType × Option Token × Except Fault Bool

namespace Workspace

/-- What a document shows at an element. -/
def verdict (w : Workspace) (s : Settings) (check : String) (i : ElementId) : Verdict :=
  (w.forest.type? i, w.forest.token? i, w.isSuppressed s i check)

/-- What a document shows but for its white space, in the order of the text. -/
def verdicts (w : Workspace) (d : Document) (s : Settings) (check : String) : List Verdict :=
  ((w.forest.below d.root).filter fun i => !(w.forest.token? i).any Token.isWhitespace).map
    (w.verdict s check)

end Workspace

namespace Tree

open Token (bare opens)

section

variable (s : Settings) (check : String) (file : Bool)

mutual

/-- What a tree shows but for its white space: `file` says whether the check is suppressed for the
whole file, `led` whether it is for what is around the tree, and `before` are the tokens before. -/
def verdicts (led : Bool) (before : List Token) : Tree → List Verdict
  | leaf t => if t.isWhitespace then [] else [(none, some t, .ok false)]
  | node type children =>
    (some type, none, .ok (type.kind.suppressible && (file || led))) ::
      verdictsAll led before children

/-- What trees side by side show, where `led` and `before` are those of the composite around. -/
def verdictsAll (led : Bool) (before : List Token) : List Tree → List Verdict
  | [] => []
  | T :: Ts =>
    verdicts (led || opens s check before.reverse) before T ++
      verdictsAll led (before ++ bare T.leaves) Ts

end

end

/-! ### Joining -/

/-- What is joined is white space in front of white space. -/
theorem join_cases (T : Tree) (Ts : List Tree) :
    join T Ts = T :: Ts ∨ ∃ t u Us, T = leaf t ∧ Ts = leaf u :: Us ∧ t.isWhitespace = true ∧
      u.isWhitespace = true ∧ join T Ts = leaf ⟨.whitespace, t.text ++ u.text⟩ :: Us := by
  cases T with
  | node type Us => exact .inl rfl
  | leaf t =>
      cases Ts with
      | nil => exact .inl rfl
      | cons U Us =>
          cases U with
          | node type Vs => exact .inl rfl
          | leaf u =>
              rw [join]
              split
              · next hws =>
                rw [Bool.and_eq_true] at hws
                exact .inr ⟨t, u, Us, rfl, rfl, hws.1, hws.2, rfl⟩
              · exact .inl rfl

/-- White space in front of tokens is left out. -/
theorem bare_cons_of_isWhitespace {t : Token} (h : t.isWhitespace = true) (ts : List Token) :
    bare (t :: ts) = bare ts :=
  List.filter_cons_of_neg (by simp [h])

/-- Joining white space changes no other token. -/
theorem bare_join (T : Tree) (Ts : List Tree) :
    bare (leavesOf (join T Ts)) = bare (leavesOf (T :: Ts)) := by
  rcases join_cases T Ts with hj | ⟨t, u, Us, rfl, rfl, ht, hu, hj⟩
  · rw [hj]
  · rw [hj]
    simp only [leavesOf, leaves, List.singleton_append]
    rw [bare_cons_of_isWhitespace rfl, bare_cons_of_isWhitespace ht, bare_cons_of_isWhitespace hu]

mutual

/-- Joining changes white space only. -/
theorem bare_joined : (T : Tree) → bare T.joined.leaves = bare T.leaves
  | leaf _ => rfl
  | node _ Ts => by rw [joined, leaves, leaves, bare_joinedAll Ts]

/-- Joining all white space side by side changes no other token. -/
theorem bare_joinedAll : (Ts : List Tree) → bare (leavesOf (joinedAll Ts)) = bare (leavesOf Ts)
  | [] => rfl
  | T :: Ts => by
    rw [joinedAll, bare_join, leavesOf, Token.bare_append, bare_joined T, bare_joinedAll Ts,
      leavesOf, Token.bare_append]

end

section

variable (s : Settings) (check : String) (file : Bool)

/-- What trees show but for white space is the same whether the first two are joined or not. -/
theorem verdictsAll_join (led : Bool) (before : List Token) (T : Tree) (Ts : List Tree) :
    verdictsAll s check file led before (join T Ts) =
      verdictsAll s check file led before (T :: Ts) := by
  rcases join_cases T Ts with hj | ⟨t, u, Us, rfl, rfl, ht, hu, hj⟩
  · rw [hj]
  · rw [hj]
    have hnil : ∀ v : Token, v.isWhitespace = true → bare [v] = [] := fun v hv =>
      bare_cons_of_isWhitespace hv []
    have hws : Token.isWhitespace ⟨.whitespace, t.text ++ u.text⟩ = true := rfl
    simp only [verdictsAll, verdicts, leaves, ht, hu, hws, hnil, if_true, List.nil_append,
      List.append_nil]

mutual

/-- **Joining white space leaves the answers alone.** -/
theorem verdicts_joined (led : Bool) (before : List Token) : (T : Tree) →
    verdicts s check file led before T.joined = verdicts s check file led before T
  | leaf _ => rfl
  | node _ Ts => by rw [joined, verdicts, verdicts, verdictsAll_joinedAll led before Ts]

/-- What trees show but for white space is the same once white space side by side is joined. -/
theorem verdictsAll_joinedAll (led : Bool) (before : List Token) : (Ts : List Tree) →
    verdictsAll s check file led before (joinedAll Ts) = verdictsAll s check file led before Ts
  | [] => rfl
  | T :: Ts => by
    rw [joinedAll, verdictsAll_join, verdictsAll, verdictsAll, verdicts_joined _ before T,
      bare_joined, verdictsAll_joinedAll led _ Ts]

end

end

end Tree

namespace Workspace.Standing

open Token (bare opens)

variable {w : Workspace} {d : Document} {p q : Planted} {cs : Place} {s : Settings}
  {check : String} {file : Bool}

/-- What a document shows at the elements of a subtree. -/
theorem verdicts_at (h : w.Standing d (plug cs q))
    (hfile : opens s (s.fileId check) (bare ((plug cs q).leaves.map Prod.snd)) = file) :
    ((q.ids.filter fun i => !(w.forest.token? i).any Token.isWhitespace).map (w.verdict s check)) =
      q.tree.verdicts s check file (Place.isLed s check cs) (bare (cs.before.map Prod.snd)) := by
  induction q using Planted.induction generalizing cs with
  | leaf id t =>
      have hstored := h.comprises.toHolds.stores_at
      have htoken := hstored.token?_eq
      have htype : w.forest.type? id = none := by
        have hget : w.forest.get? id = some ⟨.leaf t, cs.parent?⟩ := hstored
        simp [Forest.type?, hget]
      have hanswer : w.isSuppressed s id check = .ok false := h.isSuppressed_eq s check
      simp only [Planted.ids, Planted.tree, Tree.verdicts]
      cases hws : t.isWhitespace with
      | true => simp [htoken, hws]
      | false => simp [htoken, hws, verdict, htype, hanswer]
  | node id type children ih =>
      have hstored := h.comprises.toHolds.stores_at
      have htoken := hstored.token?_node
      have hanswer : w.isSuppressed s id check =
          .ok (type.kind.suppressible && (file || Place.isLed s check cs)) := by
        rw [← hfile, ← Leaves.lists_openingComments]
        exact h.isSuppressed_eq s check
      -- the children, from the left
      have hall : ∀ l r, children = l ++ r →
          (((Planted.idsOf r).filter fun i => !(w.forest.token? i).any Token.isWhitespace).map
            (w.verdict s check)) =
          Tree.verdictsAll s check file (Place.isLed s check cs)
            (bare ((cs.before ++ Planted.leavesOf l).map Prod.snd)) (Planted.treesOf r) := by
        intro l r hlr
        induction r generalizing l with
        | nil => rfl
        | cons p r ihr =>
            rw [hlr] at h hfile
            have hp : w.Standing d (plug (⟨id, type, l, r⟩ :: cs) p) := h
            have hrest := ihr (l ++ [p]) (by rw [hlr]; simp)
            have hled : Place.isLed s check (⟨id, type, l, r⟩ :: cs) =
                (Place.isLed s check cs || opens s check
                  (bare ((cs.before ++ Planted.leavesOf l).map Prod.snd)).reverse) := by
              rw [Place.isLed, Leaves.lists_trailingComments, Bool.or_comm]
              rfl
            rw [Planted.idsOf, List.filter_append, List.map_append,
              ih p (by simp [hlr]) hp hfile, hled, hrest, Planted.treesOf, Tree.verdictsAll]
            simp [Place.before, Planted.leavesOf, Planted.leaves_tree]
      have hchildren := hall [] children rfl
      rw [Planted.leavesOf, List.append_nil] at hchildren
      rw [Planted.ids, List.filter_cons_of_pos (by simp [htoken]), List.map_cons, hchildren,
        Planted.tree, Tree.verdicts, verdict, hstored.type?_node, htoken, hanswer]

/-- **The answers of a document depend on its tree alone.** -/
theorem verdicts_eq (h : w.Standing d p) (s : Settings) (check : String) :
    w.verdicts d s check =
      p.tree.verdicts s check (opens s (s.fileId check) (bare p.tree.leaves)) false [] := by
  have hroot : w.Standing d (plug [] p) := h
  have hfile : opens s (s.fileId check) (bare ((plug [] p).leaves.map Prod.snd)) =
      opens s (s.fileId check) (bare p.tree.leaves) := by
    rw [Planted.leaves_tree]
    rfl
  rw [Workspace.verdicts, h.below_eq, hroot.verdicts_at hfile]
  rfl

end Workspace.Standing

/-! ### Reading back -/

/-- The text of a tree, as its tokens spell it. -/
theorem Tree.toList_text (T : Tree) : T.text.toList = Token.spell T.leaves := by
  rw [text, String.toList_join, List.flatMap_map]
  rfl

namespace Planted.Faithful

variable {original : List Token} {p : Planted}

/-- Reading the text of a faithful tree again gives its tokens, with white space joined, exactly if
no comment is right after a stray slash. -/
theorem tokenize_iff (h : p.Faithful original) :
    tokenize p.tree.text = Token.joined p.tree.leaves ↔ Token.Clear p.tree.leaves := by
  have hwritten := h.written
  rw [← leaves_tree] at hwritten
  rw [tokenize, Tree.toList_text, hwritten.tokens_spell_iff]

/-- Reading the joined leaves gives the joined tree. -/
theorem parseFile_joined (h : p.Faithful original) :
    Tree.parseFile (Token.joined p.tree.leaves) = p.tree.joined := by
  have hwritten := h.written
  rw [← leaves_tree] at hwritten
  rw [Tree.parseFile_joined hwritten.separate, h.read]

/-- **A faithful tree is read back from its text, with white space side by side joined, if no
comment stands right after a stray slash**, and only then. -/
theorem parse_iff (h : p.Faithful original) :
    Tree.parse p.tree.text = p.tree.joined ↔ Token.Clear p.tree.leaves := by
  rw [← h.tokenize_iff, Tree.parse, ← h.parseFile_joined]
  constructor
  · intro hp
    rw [← Tree.leaves_parseFile (tokenize p.tree.text), hp, Tree.leaves_parseFile]
  · intro ht
    rw [ht]

/-- Stray slashes stem from the text that was opened. -/
theorem clear (h : p.Faithful original) (ho : ∀ t ∈ original, t.isStraySlash = false) :
    Token.Clear p.tree.leaves := by
  have hno : ∀ t ∈ p.tree.leaves, t.isStraySlash = false := by
    intro t ht
    cases htrivia : t.isTrivia with
    | true => exact Token.isStraySlash_of_isTrivia htrivia
    | false =>
        have hsolid : t ∈ p.tree.leaves.filter fun t => !t.isTrivia :=
          List.mem_filter.2 ⟨ht, by simp [htrivia]⟩
        rw [leaves_tree, h.written.solid] at hsolid
        exact ho t (List.mem_filter.1 hsolid).1
  refine (List.pairwise_of_forall_mem_list fun t ht u _ => ?_).isChain
  rw [Token.swallows, hno t ht, Bool.false_and]

end Planted.Faithful

namespace Workspace

/-- The workspace that a document's text is opened in again. -/
def reopened (w : Workspace) (d : Document) : Workspace :=
  empty.open (d.text w.forest) d.name d.writable

end Workspace

namespace Session

variable {text name : String} {writable : Bool} {w : Workspace} {log : Session.Log}

/-- **When an edited document is read back**: the tree that is read from its text is the edited one,
with white space side by side joined, exactly if no comment stands right after a stray slash. Its
solid tokens are then those of the text that was opened, and every element has the same answer for
every check. -/
theorem reads_back_iff
    (h : Session Workspace.Applies (Workspace.empty.open text name writable) w log) {d : Document}
    (hd : w.documents = #[d]) :
    (Tree.parse (d.text w.forest) = (w.forest.tree d.root).joined ↔
      Token.Clear (w.forest.tree d.root).leaves) ∧
    (Token.Clear (w.forest.tree d.root).leaves →
      (tokenize (d.text w.forest)).filter (fun t => !t.isTrivia) =
        (tokenize text).filter (fun t => !t.isTrivia) ∧
      ∃ d', (w.reopened d).documents = #[d'] ∧ ∀ s check,
        (w.reopened d).verdicts d' s check = w.verdicts d s check) := by
  obtain ⟨d₀, p, hw, hp⟩ := h.faithful
  obtain rfl : d₀ = d := by simpa [hd] using hw.documents.symm
  rw [hw.tree_eq, hw.text_eq]
  refine ⟨hp.parse_iff, fun hclear => ⟨?_, ?_⟩⟩
  · rw [hp.tokenize_iff.2 hclear, Token.filter_solid_joined, Planted.leaves_tree, hp.written.solid]
  · have hopen : (w.reopened d₀).Standing _ _ :=
      Workspace.standing_open (d₀.text w.forest) d₀.name d₀.writable
    refine ⟨_, hopen.documents, ?_⟩
    intro s check
    rw [hw.verdicts_eq, Workspace.Standing.verdicts_eq hopen, Tree.tree_plantedFrom, hw.text_eq,
      hp.parse_iff.2 hclear, Tree.verdicts_joined, Tree.bare_joined]

/-- A rule right behind a stray slash, and one that is not: of the two edited documents, the second
alone is read back. -/
theorem reads_back_iff_of_stray :
    (∃ w d log, Session Workspace.Applies (Workspace.empty.open "/foo ::= bar\n" "g" true) w log ∧
      w.documents = #[d] ∧ Tree.parse (d.text w.forest) ≠ (w.forest.tree d.root).joined) ∧
    ∃ w d log, Session Workspace.Applies (Workspace.empty.open "/ foo ::= bar\n" "g" true) w log ∧
      w.documents = #[d] ∧ Tree.parse (d.text w.forest) = (w.forest.tree d.root).joined ∧
        ∃ d', (w.reopened d).documents = #[d'] ∧
          (w.reopened d).verdicts d' .standard "X" = w.verdicts d .standard "X" := by
  constructor
  · let start := Workspace.empty.open "/foo ::= bar\n" "g" true
    let applied := result (start.apply .standard ⟨"X", .rule, rfl⟩ (some 2)) (by decide +kernel)
    have h : Session Workspace.Applies start applied [(start, applied)] :=
      of_result _ (by decide +kernel)
    obtain ⟨history, p, hw⟩ := h.opened records_applies
    have hstray : ¬Token.Clear (applied.forest.tree 0).leaves := by decide +kernel
    obtain ⟨hparse, -⟩ := h.reads_back_iff hw.documents
    exact ⟨applied, _, _, h, hw.documents, fun hp => hstray (hparse.1 hp)⟩
  · let start := Workspace.empty.open "/ foo ::= bar\n" "g" true
    let applied := result (start.apply .standard ⟨"X", .rule, rfl⟩ (some 3)) (by decide +kernel)
    have h : Session Workspace.Applies start applied [(start, applied)] :=
      of_result _ (by decide +kernel)
    obtain ⟨history, p, hw⟩ := h.opened records_applies
    have hclear : Token.Clear (applied.forest.tree 0).leaves := by decide +kernel
    obtain ⟨hparse, hrest⟩ := h.reads_back_iff hw.documents
    obtain ⟨-, d', hd', hverdicts⟩ := hrest hclear
    exact ⟨applied, _, _, h, hw.documents, hparse.2 hclear, d', hd', hverdicts _ _⟩

/-- **Without stray slashes, edited documents are read back.** -/
theorem reads_back_of_no_stray
    (h : Session Workspace.Applies (Workspace.empty.open text name writable) w log) {d : Document}
    (hd : w.documents = #[d]) (hs : ∀ t ∈ tokenize text, t.isStraySlash = false) :
    Tree.parse (d.text w.forest) = (w.forest.tree d.root).joined := by
  obtain ⟨d₀, p, hw, hp⟩ := h.faithful
  obtain rfl : d₀ = d := by simpa [hd] using hw.documents.symm
  rw [hw.tree_eq, hw.text_eq]
  exact hp.parse_iff.2 (hp.clear hs)

end Session

end BnfSuppression
