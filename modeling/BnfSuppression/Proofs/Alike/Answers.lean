import BnfSuppression.Proofs.Alike
import BnfSuppression.Proofs.Resolver

/-!
# Documents Alike Suppress Alike

Forests alike have the same structure under the same ids, so every walk through one is a walk
through the other. What a walk asks of the leaves it meets is whether they are white space or
comments, and of comments whether they list an id: leaves alike answer alike.

## Main results

* `Forest.Alike.leadingComments_eq`: leading comments are the same.
* `Workspace.isSuppressed_alike`: **documents of texts with tokens alike suppress the same checks for
  the same elements**.
-/

namespace BnfSuppression

namespace Forest.Alike

variable {verb : String} {f g : Forest}

/-! ### Structure -/

/-- An id has no element in either forest, or elements alike. -/
theorem get?_cases (h : f.Alike verb g) (i : ElementId) :
    (f.get? i = none ∧ g.get? i = none) ∨
      ∃ e d, f.get? i = some e ∧ g.get? i = some d ∧ e.Alike verb d := by
  have hi := h.get? i
  generalize f.get? i = e?, g.get? i = d? at hi ⊢
  cases hi with
  | none => exact .inl ⟨rfl, rfl⟩
  | some he => exact .inr ⟨_, _, rfl, rfl, he⟩

/-- In alike forests every element has the same children. -/
theorem children_eq (h : f.Alike verb g) : f.children = g.children := by
  funext i
  rcases h.get?_cases i with ⟨hf, hg⟩ | ⟨e, d, hf, hg, he⟩
  · simp [children, hf, hg]
  · cases he <;> simp [children, hf, hg, Shape.children]

/-- In alike forests every element has the same parent. -/
theorem parent?_eq (h : f.Alike verb g) : f.parent? = g.parent? := by
  funext i
  rcases h.get?_cases i with ⟨hf, hg⟩ | ⟨e, d, hf, hg, he⟩
  · simp [parent?, hf, hg]
  · cases he <;> simp [parent?, hf, hg]

/-- In alike forests every element has the same type. -/
theorem type?_eq (h : f.Alike verb g) : f.type? = g.type? := by
  funext i
  rcases h.get?_cases i with ⟨hf, hg⟩ | ⟨e, d, hf, hg, he⟩
  · simp [type?, hf, hg]
  · cases he <;> simp [type?, hf, hg]

/-- An id has no token in either forest, or tokens alike. -/
theorem token?_cases (h : f.Alike verb g) (i : ElementId) :
    (f.token? i = none ∧ g.token? i = none) ∨
      ∃ t u, f.token? i = some t ∧ g.token? i = some u ∧ t.Alike verb u := by
  rcases h.get?_cases i with ⟨hf, hg⟩ | ⟨e, d, hf, hg, he⟩
  · exact .inl ⟨by simp [token?, hf], by simp [token?, hg]⟩
  · cases he with
    | leaf parent? htu => exact .inr ⟨_, _, by simp [token?, hf], by simp [token?, hg], htu⟩
    | node => exact .inl ⟨by simp [token?, hf], by simp [token?, hg]⟩

/-- What is asked of tokens is asked of the same leaves, if tokens alike agree on it. -/
theorem any_token?_eq (h : f.Alike verb g) {c : Token → Bool}
    (hc : ∀ t u, t.Alike verb u → c t = c u) :
    (fun i => (f.token? i).any c) = fun i => (g.token? i).any c := by
  funext i
  rcases h.token?_cases i with ⟨hf, hg⟩ | ⟨t, u, hf, hg, htu⟩
  · rw [hf, hg]
  · rw [hf, hg, Option.any_some, Option.any_some, hc t u htu]

/-- In alike forests the same elements are trivia. -/
theorem isTrivia_eq (h : f.Alike verb g) : f.isTrivia = g.isTrivia :=
  h.any_token?_eq fun _ _ htu => htu.isTrivia_eq

/-- In alike forests the same elements are comments. -/
theorem isComment_eq (h : f.Alike verb g) : f.isComment = g.isComment :=
  h.any_token?_eq fun _ _ htu => htu.isComment_eq

/-- In alike forests the same elements are leaves. -/
theorem isLeaf_eq (h : f.Alike verb g) : f.isLeaf = g.isLeaf := by
  funext i
  rcases h.token?_cases i with ⟨hf, hg⟩ | ⟨t, u, hf, hg, -⟩
  · rw [isLeaf, isLeaf, hf, hg]
  · rw [isLeaf, isLeaf, hf, hg]
    rfl

/-- In alike forests every element has the same kind. -/
theorem kind_eq (h : f.Alike verb g) : f.kind = g.kind := by
  funext i
  rw [kind, kind, h.type?_eq]

/-- Comments alike list the same ids. -/
theorem mentions_eq (h : f.Alike verb g) {s : Settings} (hs : s.verb = verb) {i : ElementId}
    (hi : f.isComment i = true) (id : String) :
    s.mentions (f.ownText i) id = s.mentions (g.ownText i) id := by
  rcases h.token?_cases i with ⟨hf, -⟩ | ⟨t, u, hf, hg, htu⟩
  · rw [isComment, hf] at hi
    simp at hi
  · rw [isComment, hf, Option.any_some] at hi
    have hparse := htu.parse?_eq hi
    simp only [ownText, hf, hg, Option.map_some, Option.getD_some, Settings.mentions, isMentioned,
      hs, hparse]

/-! ### Walks -/

/-- In alike forests every element has the same leaves below it. -/
theorem leaves_eq (h : f.Alike verb g) : f.leaves = g.leaves := by
  have hbelow : ∀ depth, f.belowUpTo depth = g.belowUpTo depth := by
    intro depth
    induction depth with
    | zero => rfl
    | succ depth ih =>
        funext i
        rw [belowUpTo, belowUpTo, h.children_eq, ih]
  funext i
  rw [leaves, leaves, below, below, h.size_eq, hbelow, h.isLeaf_eq]

/-- In alike forests every element has the same first leaf. -/
theorem firstLeaf?_eq (h : f.Alike verb g) : f.firstLeaf? = g.firstLeaf? := by
  funext i
  rw [firstLeaf?, firstLeaf?, h.leaves_eq]

/-- In alike forests a step sideways ends at the same leaf, whichever the direction. -/
theorem nearestLeaf?_eq (h : f.Alike verb g) (direction : Direction) :
    f.nearestLeaf? direction = g.nearestLeaf? direction := by
  cases direction with
  | forward => exact h.firstLeaf?_eq
  | backward =>
      funext i
      simp only [nearestLeaf?, lastLeaf?, h.leaves_eq]

/-- In alike forests a walk over the leaves takes the same step from every element. -/
theorem step_eq (h : f.Alike verb g) (direction : Direction) (i : ElementId) :
    f.step direction i = g.step direction i := by
  have hup : ∀ height i, f.stepUpTo direction height i = g.stepUpTo direction height i := by
    intro height
    induction height with
    | zero => exact fun _ => rfl
    | succ height ih =>
        intro i
        simp only [stepUpTo, h.parent?_eq, h.children_eq, h.nearestLeaf?_eq, ih]
  rw [step, step, h.size_eq, hup]

/-- In alike forests a walk that goes on while a condition holds visits the same elements. -/
theorem walkWhile_eq (h : f.Alike verb g) (direction : Direction) (p : ElementId → Bool)
    (s : Step) : f.walkWhile direction p s = g.walkWhile direction p s := by
  have hup : ∀ count s, f.walkUpTo direction p count s = g.walkUpTo direction p count s := by
    intro count
    induction count with
    | zero => exact fun s => by cases s <;> rfl
    | succ count ih =>
        intro s
        cases s with
        | leaf i => simp only [walkUpTo, h.step_eq, ih]
        | edge => rfl
        | stray child parent => rfl
  rw [walkWhile, walkWhile, h.size_eq, hup]

/-- In alike forests every element has the same ancestors. -/
theorem ancestors_eq (h : f.Alike verb g) : f.ancestors = g.ancestors := by
  have hup : ∀ height, f.ancestorsUpTo height = g.ancestorsUpTo height := by
    intro height
    induction height with
    | zero => rfl
    | succ height ih =>
        funext i
        rw [ancestorsUpTo, ancestorsUpTo, h.parent?_eq, ih]
  funext i
  rw [ancestors, ancestors, h.size_eq, hup]

/-- In alike forests the descent along first children ends at the same element. -/
theorem descend?_eq (h : f.Alike verb g) : f.descend? = g.descend? := by
  funext i path
  induction path generalizing i with
  | nil => rfl
  | cons k path ih =>
      rw [descend?, descend?, h.children_eq]
      exact congrArg (Option.bind _) (funext ih)

/-- **Leading comments are the same.** -/
theorem leadingComments_eq (h : f.Alike verb g) (place : LeadingPlace) (anchor : ElementId) :
    f.leadingComments place anchor = g.leadingComments place anchor := by
  have hrun : f.leadingRun place anchor = g.leadingRun place anchor := by
    cases place with
    | documentStart => simp only [leadingRun, h.isTrivia_eq, h.firstLeaf?_eq, h.walkWhile_eq]
    | beforeNode => simp only [leadingRun, h.isTrivia_eq, h.step_eq, h.walkWhile_eq]
  simp only [leadingComments, hrun, h.isComment_eq]

/-! ### Answers -/

/-- Two requests that have the same result, if they have one, have it both or fail both. -/
theorem toOption_cases {α : Type _} {r r' : Except Fault α} (h : r.toOption = r'.toOption) :
    (∃ a, r = .ok a ∧ r' = .ok a) ∨ ∃ e e', r = .error e ∧ r' = .error e' := by
  cases r with
  | error e =>
      cases r' with
      | error e' => exact .inr ⟨e, e', rfl, rfl⟩
      | ok a' => simp [Except.toOption] at h
  | ok a =>
      cases r' with
      | error e' => simp [Except.toOption] at h
      | ok a' => exact .inl ⟨a, rfl, congrArg Except.ok (Option.some.inj h).symm⟩

/-- A leading run lists an id in both forests, or in neither. -/
theorem isSuppressedAt_eq (h : f.Alike verb g) {s : Settings} (hs : s.verb = verb)
    (place : LeadingPlace) (anchor : ElementId) (id : String) :
    (f.isSuppressedAt s place anchor id).toOption =
      (g.isSuppressedAt s place anchor id).toOption := by
  have hany : ((f.leadingComments place anchor).run.any fun c => s.mentions (f.ownText c) id) =
      (f.leadingComments place anchor).run.any fun c => s.mentions (g.ownText c) id := by
    rw [Bool.eq_iff_iff, List.any_eq_true, List.any_eq_true]
    refine exists_congr fun c => and_congr_right fun hc => ?_
    rw [h.mentions_eq hs (List.mem_filter.1 hc).2 id]
  have hfault : ∀ step, ((f.faultOf step).map fun _ => false).toOption =
      ((g.faultOf step).map fun _ => false).toOption := by
    intro step
    cases step <;> rfl
  rw [isSuppressedAt, isSuppressedAt, hany, h.leadingComments_eq]
  split
  · rfl
  · exact hfault _

/-- In alike forests the same elements have a comment before them that lists an id, for settings
with the verb in question. -/
theorem isSuppressedBefore_eq (h : f.Alike verb g) {s : Settings} (hs : s.verb = verb)
    (id : String) (es : List ElementId) :
    (f.isSuppressedBefore s id es).toOption = (g.isSuppressedBefore s id es).toOption := by
  induction es with
  | nil => rfl
  | cons e es ih =>
      rw [isSuppressedBefore, isSuppressedBefore]
      rcases toOption_cases (h.isSuppressedAt_eq hs .beforeNode e id) with
        ⟨b, hf, hg⟩ | ⟨e, e', hf, hg⟩
      · rw [hf, hg]
        cases b with
        | true => exact Eq.refl (some true)
        | false => exact ih
      · rw [hf, hg]
        exact Eq.refl none

end Forest.Alike

namespace Workspace

variable {verb : String} {w v : Workspace}

/-- Two workspaces have forests alike, and documents with the same roots. -/
structure Alike (verb : String) (w v : Workspace) : Prop where
  forest : w.forest.Alike verb v.forest
  roots : w.documents.map Document.root = v.documents.map Document.root

/-- In alike workspaces every element belongs to the same root. -/
theorem Alike.rootOf?_eq (h : w.Alike verb v) (i : ElementId) : w.rootOf? i = v.rootOf? i := by
  have hroots : ∀ u : Workspace, u.rootOf? i =
      ((u.documents.map Document.root).findIdx? (· == u.forest.top i)).bind fun d =>
        (u.documents.map Document.root)[d]? := by
    intro u
    simp only [rootOf?, ownerOf?, Array.findIdx?_map, Array.getElem?_map]
    rfl
  rw [hroots, hroots, h.roots, Forest.top, Forest.top, h.forest.ancestors_eq]

/-- The answer is the same, if there is one. -/
theorem Alike.isSuppressed_eq (h : w.Alike verb v) {s : Settings} (hs : s.verb = verb)
    (i : ElementId) (check : String) :
    (w.isSuppressed s i check).toOption = (v.isSuppressed s i check).toOption := by
  have hrest := h.forest.isSuppressedBefore_eq hs check
    ((v.forest.ancestors i).takeWhile fun e => v.rootOf? i != some e)
  rw [isSuppressed, isSuppressed, h.forest.kind_eq, h.rootOf?_eq, h.forest.ancestors_eq]
  cases hk : (v.forest.kind i).suppressible with
  | false => exact Eq.refl (some false)
  | true =>
      cases hr : v.rootOf? i with
      | none =>
          rw [hr] at hrest
          exact hrest
      | some root =>
          rw [hr] at hrest
          rcases Forest.Alike.toOption_cases
            (h.forest.isSuppressedAt_eq hs .documentStart root (s.fileId check)) with
            ⟨b, hf, hg⟩ | ⟨e, e', hf, hg⟩
          · simp only [hf, hg]
            cases b with
            | true => exact Eq.refl (some true)
            | false => exact hrest
          · simp only [hf, hg]
            exact Eq.refl none

/-- Opening a text in the empty workspace plants its parse in the empty forest. -/
theorem forest_open (text name : String) (writable : Bool) :
    (empty.open text name writable).forest = (Forest.empty.plant (Tree.parse text)).1 := rfl

/-- Documents opened on texts with tokens alike are alike. -/
theorem open_alike {text text' : String}
    (h : List.Forall₂ (Token.Alike verb) (tokenize text) (tokenize text')) (name name' : String)
    (writable writable' : Bool) :
    (empty.open text name writable).Alike verb (empty.open text' name' writable') where
  forest := by
    rw [forest_open, forest_open]
    exact Forest.plant_alike (Tree.parse_alike h)
  roots := by
    simp [(standing_open text name writable).documents,
      (standing_open text' name' writable').documents]

/-- **Only directives and line structure matter.** Two texts whose tokens are alike for a verb, one
by one, are read as trees of the same shape. The same paths lead to the same elements, and with any
settings that have the verb, every check has the same answer for every element. -/
theorem isSuppressed_alike {text text' : String}
    (h : List.Forall₂ (Token.Alike verb) (tokenize text) (tokenize text')) (name name' : String)
    (writable writable' : Bool) :
    (Tree.parse text).Alike verb (Tree.parse text') ∧
      (∀ path, (empty.open text name writable).forest.descend? 0 path =
        (empty.open text' name' writable').forest.descend? 0 path) ∧
      ∀ (s : Settings) (i : ElementId) (check : String), s.verb = verb →
        ∃ b, (empty.open text name writable).isSuppressed s i check = .ok b ∧
          (empty.open text' name' writable').isSuppressed s i check = .ok b := by
  have halike := open_alike h name name' writable writable'
  refine ⟨Tree.parse_alike h, fun path => by rw [halike.forest.descend?_eq], ?_⟩
  intro s i check hs
  have hw := standing_open text name writable
  have hp : ((Tree.parse text).plantedFrom 0).tree.WellShaped := by
    rw [Tree.tree_plantedFrom]
    exact Tree.wellShaped_parse text
  obtain ⟨b, hb, -⟩ := hw.isSuppressed_iff hp s i check
  have heq := halike.isSuppressed_eq hs i check
  rcases Forest.Alike.toOption_cases heq with ⟨b', hb', hv⟩ | ⟨e, e', he, -⟩
  · exact ⟨b', hb', hv⟩
  · rw [hb] at he
    simp at he

/-- Another indentation, and a directive that lists the same ids with other blanks. -/
theorem isSuppressed_alike_respaced :
    List.Forall₂ (Token.Alike "v") (tokenize "// v X,Y\na ::= b") (tokenize "//v X Y\n\n a ::= b") ∧
      ∃ b, (empty.open "// v X,Y\na ::= b" "g" true).isSuppressed ⟨"v", "F", "A", "//"⟩ 3 "X" =
          .ok b ∧
        (empty.open "//v X Y\n\n a ::= b" "h" false).isSuppressed ⟨"v", "F", "A", "//"⟩ 3 "X" =
          .ok b := by
  have h : List.Forall₂ (Token.Alike "v") (tokenize "// v X,Y\na ::= b")
      (tokenize "//v X Y\n\n a ::= b") := by
    decide +kernel
  exact ⟨h, (isSuppressed_alike h "g" "h" true false).2.2 _ _ _ rfl⟩

end Workspace

end BnfSuppression
