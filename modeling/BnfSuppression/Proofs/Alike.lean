import BnfSuppression.Directive
import BnfSuppression.Forest
import BnfSuppression.Proofs.Reading.Trivia
import Mathlib.Data.List.Forall2

/-!
# Texts That Suppress Alike

Two tokens are alike for a verb if they differ only in what neither reading nor suppression looks
at: how long white space is, and the wording of comments, as long as these say the same as
directives. Two texts whose tokens are alike, one by one, are read as trees of the same shape, and
two forests that store such trees store them under the same ids.

## Main results

* `Tree.parse_alike`: **texts with tokens alike are read as trees alike**.
* `Forest.plant_alike`: trees alike are stored alike.
-/

namespace BnfSuppression

/-! ### Tokens -/

/-- Tokens alike for a verb: they have one type, and one text unless they are white space or
comments; both or neither break the line if they are white space; and they are the same directive, or
none, if they are comments. -/
structure Token.Alike (verb : String) (t u : Token) : Prop where
  type_eq : t.type = u.type
  text_eq : t.isTrivia = false → t.text = u.text
  lineFeed_iff : t.isWhitespace = true → ('\n' ∈ t.text.toList ↔ '\n' ∈ u.text.toList)
  parse?_eq : t.isComment = true → Directive.parse? t.text verb = Directive.parse? u.text verb

instance (verb : String) : DecidableRel (Token.Alike verb) := fun t u =>
  decidable_of_iff
    (t.type = u.type ∧ (t.isTrivia = false → t.text = u.text) ∧
      (t.isWhitespace = true → ('\n' ∈ t.text.toList ↔ '\n' ∈ u.text.toList)) ∧
      (t.isComment = true → Directive.parse? t.text verb = Directive.parse? u.text verb))
    ⟨fun ⟨h₁, h₂, h₃, h₄⟩ => ⟨h₁, h₂, h₃, h₄⟩, fun ⟨h₁, h₂, h₃, h₄⟩ => ⟨h₁, h₂, h₃, h₄⟩⟩

namespace Token.Alike

variable {verb : String} {t u : Token}

/-- Alike tokens are both trivia or both not. -/
theorem isTrivia_eq (h : t.Alike verb u) : t.isTrivia = u.isTrivia := by
  rw [isTrivia, h.type_eq, isTrivia]

/-- Alike tokens are both comments or both not. -/
theorem isComment_eq (h : t.Alike verb u) : t.isComment = u.isComment := by
  rw [isComment, h.type_eq, isComment]

/-- Muting leaves nothing of the difference. -/
theorem mute_eq (h : t.Alike verb u) : t.mute = u.mute := by
  cases ht : t.isTrivia with
  | false =>
      rw [mute_of_solid ht, mute_of_solid (h.isTrivia_eq ▸ ht)]
      obtain ⟨type, text⟩ := t
      obtain ⟨type', text'⟩ := u
      rw [mk.injEq]
      exact ⟨h.type_eq, h.text_eq ht⟩
  | true =>
      cases hc : t.isComment with
      | true => rw [mute, mute, if_pos hc, if_pos (h.isComment_eq ▸ hc), h.type_eq]
      | false =>
          have hws : t.isWhitespace = true := by
            rw [isTrivia, TokenType.isTrivia_eq, Bool.or_eq_true] at ht
            exact ht.resolve_right (by simpa [isComment] using hc)
          have hws' : u.isWhitespace = true := by rwa [isWhitespace, ← h.type_eq]
          have hfeed : t.text.toList.contains '\n' = u.text.toList.contains '\n' := by
            rw [Bool.eq_iff_iff, List.contains_iff_mem, List.contains_iff_mem]
            exact h.lineFeed_iff hws
          rw [mute_of_isWhitespace hws, mute_of_isWhitespace hws', h.type_eq, hfeed]

end Token.Alike

/-! ### Trees -/

namespace Tree

mutual

/-- Two trees have the same composites, nested in the same way, and leaves with tokens alike. -/
def Alike (verb : String) : Tree → Tree → Prop
  | leaf t, leaf u => t.Alike verb u
  | node type Ts, node type' Us => type = type' ∧ AlikeAll verb Ts Us
  | _, _ => False

/-- Trees side by side are alike, one by one. -/
def AlikeAll (verb : String) : List Tree → List Tree → Prop
  | [], [] => True
  | T :: Ts, U :: Us => Alike verb T U ∧ AlikeAll verb Ts Us
  | _, _ => False

end

variable {verb : String}

/-- Lists of tokens alike, of which the first is split, are split alike. -/
theorem forall₂_append_inv {R : Token → Token → Prop} {ts ts' us us' : List Token}
    (h : List.Forall₂ R (ts ++ ts') (us ++ us')) (hl : ts.length = us.length) :
    List.Forall₂ R ts us ∧ List.Forall₂ R ts' us' := by
  have htake := List.forall₂_take ts.length h
  have hdrop := List.forall₂_drop ts.length h
  rw [List.take_left, hl, List.take_left] at htake
  rw [List.drop_left, hl, List.drop_left] at hdrop
  exact ⟨htake, hdrop⟩

mutual

/-- Trees are alike if muting leaves no difference and their leaves are alike. -/
theorem alike_of_mute : (T U : Tree) → T.mute = U.mute →
    List.Forall₂ (Token.Alike verb) T.leaves U.leaves → T.Alike verb U
  | leaf _, leaf _, _, hl => (List.forall₂_cons.1 hl).1
  | leaf _, node _ _, h, _ => by simp [mute] at h
  | node _ _, leaf _, h, _ => by simp [mute] at h
  | node _ Ts, node _ Us, h, hl => by
    obtain ⟨htype, hall⟩ := Tree.node.inj h
    exact ⟨htype, alikeAll_of_muteAll Ts Us hall hl⟩

/-- Lists of trees with the same shape once texts are muted, and with alike leaves, are alike tree
by tree. -/
theorem alikeAll_of_muteAll : (Ts Us : List Tree) → muteAll Ts = muteAll Us →
    List.Forall₂ (Token.Alike verb) (leavesOf Ts) (leavesOf Us) → AlikeAll verb Ts Us
  | [], [], _, _ => trivial
  | [], _ :: _, h, _ => by simp [muteAll] at h
  | _ :: _, [], h, _ => by simp [muteAll] at h
  | T :: Ts, U :: Us, h, hl => by
    obtain ⟨hT, hTs⟩ := List.cons.inj h
    have hlen : T.leaves.length = U.leaves.length := by
      have := congrArg (fun V => V.leaves.length) hT
      simpa [leaves_mute] using this
    obtain ⟨hlT, hlTs⟩ := forall₂_append_inv hl hlen
    exact ⟨alike_of_mute T U hT hlT, alikeAll_of_muteAll Ts Us hTs hlTs⟩

end

/-- Muting leaves no difference between tokens alike. -/
theorem map_mute_eq {ts us : List Token} (h : List.Forall₂ (Token.Alike verb) ts us) :
    ts.map Token.mute = us.map Token.mute := by
  induction h with
  | nil => rfl
  | cons htu _ ih => rw [List.map_cons, List.map_cons, htu.mute_eq, ih]

/-- **Texts with tokens alike are read as trees alike.** -/
theorem parse_alike {text text' : String}
    (h : List.Forall₂ (Token.Alike verb) (tokenize text) (tokenize text')) :
    (parse text).Alike verb (parse text') := by
  refine alike_of_mute _ _ ?_ ?_
  · simp only [parse, parseFile, mute, ← fileItems_mute, map_mute_eq h]
  · rwa [parse, leaves_parseFile, parse, leaves_parseFile]

end Tree

/-! ### Forests -/

/-- Elements that differ in the tokens of leaves alone, which are alike. -/
inductive Element.Alike (verb : String) : Element → Element → Prop
  | leaf {t u : Token} (parent? : Option ElementId) :
    t.Alike verb u → Alike verb ⟨.leaf t, parent?⟩ ⟨.leaf u, parent?⟩
  | node (type : ElementType) (children : List ElementId) (parent? : Option ElementId) :
    Alike verb ⟨.node type children, parent?⟩ ⟨.node type children, parent?⟩

/-- Two forests have elements alike under every id. -/
structure Forest.Alike (verb : String) (f g : Forest) : Prop where
  size_eq : f.size = g.size
  get? : ∀ i, Option.Rel (Element.Alike verb) (f.get? i) (g.get? i)

namespace Tree

variable {verb : String}

mutual

/-- Alike trees have equally many nodes. -/
theorem Alike.size_eq : {T U : Tree} → T.Alike verb U → T.size = U.size
  | leaf _, leaf _, _ => rfl
  | node _ Ts, node _ Us, h => by
    rw [size, size, AlikeAll.sizeOf_eq h.2]

/-- Alike lists of trees have equally many nodes. -/
theorem AlikeAll.sizeOf_eq : {Ts Us : List Tree} → AlikeAll verb Ts Us →
    Tree.sizeOf Ts = Tree.sizeOf Us
  | [], [], _ => rfl
  | T :: Ts, U :: Us, h => by
    rw [Tree.sizeOf, Tree.sizeOf, Alike.size_eq h.1, AlikeAll.sizeOf_eq h.2]

end

/-- Trees alike side by side start at the same ids. -/
theorem AlikeAll.startsFrom_eq {Ts Us : List Tree} (h : AlikeAll verb Ts Us) (id : ElementId) :
    startsFrom id Ts = startsFrom id Us := by
  induction Ts generalizing Us id with
  | nil =>
      cases Us with
      | nil => rfl
      | cons U Us => exact h.elim
  | cons T Ts ih =>
      cases Us with
      | nil => exact h.elim
      | cons U Us => rw [startsFrom, startsFrom, Alike.size_eq h.1, ih h.2]

mutual

/-- Trees alike are laid out alike. -/
theorem Alike.layout (parent? : Option ElementId) (id : ElementId) : {T U : Tree} →
    T.Alike verb U →
    List.Forall₂ (Element.Alike verb) (T.layout parent? id) (U.layout parent? id)
  | leaf _, leaf _, h => .cons (.leaf parent? h) .nil
  | node type Ts, node _ Us, h => by
    obtain ⟨rfl, hall⟩ := h
    rw [Tree.layout, Tree.layout, hall.startsFrom_eq]
    exact .cons (.node _ _ _) (AlikeAll.layoutOf id (id + 1) hall)

/-- Alike lists of trees are laid out as elements that are alike one by one. -/
theorem AlikeAll.layoutOf (parent id : ElementId) : {Ts Us : List Tree} → AlikeAll verb Ts Us →
    List.Forall₂ (Element.Alike verb) (Tree.layoutOf parent id Ts) (Tree.layoutOf parent id Us)
  | [], [], _ => .nil
  | T :: Ts, U :: Us, h => by
    rw [Tree.layoutOf, Tree.layoutOf, Alike.size_eq h.1]
    exact List.rel_append (Alike.layout (some parent) id h.1)
      (AlikeAll.layoutOf parent (id + U.size) h.2)

end

end Tree

/-- Lists of elements alike hold elements alike at every place. -/
theorem rel_getElem? {verb : String} {es ds : List Element}
    (h : List.Forall₂ (Element.Alike verb) es ds) (i : Nat) :
    Option.Rel (Element.Alike verb) es[i]? ds[i]? := by
  induction h generalizing i with
  | nil => exact .none
  | cons he _ ih =>
      cases i with
      | zero => exact .some he
      | succ i => exact ih i

/-- **Trees alike are stored alike.** -/
theorem Forest.plant_alike {verb : String} {T U : Tree} (h : T.Alike verb U) :
    (empty.plant T).1.Alike verb (empty.plant U).1 where
  size_eq := by simp [plant, empty, size, Tree.length_layout, h.size_eq]
  get? := by
    intro i
    have hrel := rel_getElem? (h.layout none empty.size) i
    simpa [plant, empty, Forest.get?] using hrel

end BnfSuppression
