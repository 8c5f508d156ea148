import BnfSuppression.Tree.Parser

/-!
# The Shape of Syntax Trees

What a composite may hold depends on its type: rules and attribute blocks stand right below the
file, attributes in blocks, and whatever a rule, a block or an attribute starts with is no white
space and no comment. A tree of this shape is `Tree.WellShaped`, and every text is read into one.

## Main results

* `Tree.wellShaped_parse`: **the tree of a text is well shaped**.
-/

namespace BnfSuppression

namespace Tree

/-- The type of a composite. -/
def type? : Tree → Option ElementType
  | leaf _ => none
  | node type _ => some type

/-- The kind of a composite is that of its type. -/
theorem kind_of_type? {t : Tree} {type : ElementType} (h : t.type? = some type) :
    t.kind = type.kind := by
  cases t with
  | leaf t => simp [type?] at h
  | node type' ts => simp_all [type?, kind]

/-- The composites that checks can be suppressed for. -/
theorem type?_of_suppressible {t : Tree} (h : t.kind.suppressible = true) :
    t.type? = some .rule ∨ t.type? = some .attr ∨ t.type? = some .file := by
  cases t with
  | leaf t => simp [kind, NodeKind.suppressible] at h
  | node type ts =>
      revert h
      cases type <;> simp [type?, kind, ElementType.kind, NodeKind.suppressible]

/-- Whether composites of a type may stand right below those of another. -/
def mayHold : ElementType → ElementType → Bool
  | .file, .rule | .file, .attrs => true
  | .rule, .modifiers | .rule, .expression | .rule, .attrs => true
  | .attrs, .attr => true
  | .attr, .attrPattern | .attr, .value => true
  | _, _ => false

/-- Whether composites of a type start with a token that is neither white space nor a comment. -/
def isSolid : ElementType → Bool
  | .rule | .attrs | .attr => true
  | _ => false

/-- Whether trees side by side start with white space or a comment, if they have leaves. -/
def front? (ts : List Tree) : Option Bool := (leavesOf ts).head?.map Token.isTrivia

/-- The children are such as a composite of the type has. -/
structure Fits (type : ElementType) (ts : List Tree) : Prop where
  held : ∀ t ∈ ts, ∀ inner, t.type? = some inner → mayHold type inner = true
  solid : isSolid type = true → front? ts = some false
  brace : type = .attrs → ∃ t rest, ts = leaf t :: rest

mutual

/-- Every composite of the tree has such children as its type asks for. -/
def WellShaped : Tree → Prop
  | leaf _ => True
  | node type children => Fits type children ∧ WellShapedAll children

/-- The trees are well shaped, each for itself. -/
def WellShapedAll : List Tree → Prop
  | [] => True
  | t :: ts => WellShaped t ∧ WellShapedAll ts

end

/-- Trees side by side are well shaped exactly if each of them is. -/
theorem wellShapedAll_iff {ts : List Tree} : WellShapedAll ts ↔ ∀ t ∈ ts, t.WellShaped := by
  induction ts with
  | nil => simp [WellShapedAll]
  | cons t ts ih => simp [WellShapedAll, ih]

/-- Two lists of trees are well shaped together exactly if each of them is. -/
theorem wellShapedAll_append {ts us : List Tree} :
    WellShapedAll (ts ++ us) ↔ WellShapedAll ts ∧ WellShapedAll us := by
  simp only [wellShapedAll_iff, List.mem_append, or_imp, forall_and]

/-- Leaves are well shaped. -/
theorem wellShapedAll_map_leaf (ts : List Token) : WellShapedAll (ts.map leaf) := by
  rw [wellShapedAll_iff]
  intro t ht
  obtain ⟨_, -, rfl⟩ := List.mem_map.1 ht
  trivial

/-- Tokens side by side are held by every composite. -/
theorem type?_of_mem_map_leaf {ts : List Token} {t : Tree} (h : t ∈ ts.map leaf) :
    t.type? = none := by
  obtain ⟨_, -, rfl⟩ := List.mem_map.1 h
  rfl

/-- A composite of tokens alone is well shaped, if its type asks for nothing. -/
theorem wellShaped_node_leaves {type : ElementType} (h : isSolid type = false) (ts : List Token) :
    WellShaped (node type (ts.map leaf)) := by
  refine ⟨⟨?_, by simp [h], ?_⟩, wellShapedAll_map_leaf ts⟩
  · intro t ht inner hi
    rw [type?_of_mem_map_leaf ht] at hi
    simp at hi
  · rintro rfl
    simp [isSolid] at h

/-! ### Reading -/

/-- An identifier is neither white space nor a comment. -/
theorem isTrivia_of_isIdentifier {t : Token} (h : t.isIdentifier = true) : t.isTrivia = false := by
  simp only [Token.isIdentifier, beq_iff_eq] at h
  simp [Token.isTrivia, h, TokenType.isTrivia]

/-- An operator is neither white space nor a comment. -/
theorem isTrivia_of_isOperator {t : Token} {spelling : String} (h : t.isOperator spelling = true) :
    t.isTrivia = false := by
  simp only [Token.isOperator, Bool.and_eq_true, beq_iff_eq] at h
  simp [Token.isTrivia, h.1, TokenType.isTrivia]

/-- Trees that a composite of a type may hold, and that are well shaped. -/
def Admitted (type : ElementType) (ts : List Tree) : Prop :=
  ∀ t ∈ ts, t.WellShaped ∧ ∀ inner, t.type? = some inner → mayHold type inner = true

/-- Composites of every type may hold leaves. -/
theorem admitted_leaves (type : ElementType) (ts : List Token) : Admitted type (ts.map leaf) := by
  intro t ht
  refine ⟨wellShapedAll_iff.1 (wellShapedAll_map_leaf ts) t ht, fun inner hi => ?_⟩
  rw [type?_of_mem_map_leaf ht] at hi
  simp at hi

/-- Composites of every type may hold a leaf. -/
theorem admitted_leaf (type : ElementType) (t : Token) : Admitted type [leaf t] :=
  admitted_leaves type [t]

/-- Composites of every type may hold nothing. -/
theorem admitted_nil (type : ElementType) : Admitted type [] := by
  simp [Admitted]

/-- A composite may hold two lists of trees together exactly if it may hold each of them. -/
theorem admitted_append {type : ElementType} {ts us : List Tree} :
    Admitted type (ts ++ us) ↔ Admitted type ts ∧ Admitted type us :=
  List.forall_mem_append

/-- A composite may hold some trees exactly if it may hold the first of them and the others. -/
theorem admitted_cons {type : ElementType} {t : Tree} {ts : List Tree} :
    Admitted type (t :: ts) ↔ Admitted type [t] ∧ Admitted type ts := by
  rw [← List.singleton_append, admitted_append]

/-- A composite may hold a well-shaped one of a type that may stand right below its own. -/
theorem admitted_node {type inner : ElementType} {ts : List Tree}
    (h : WellShaped (node inner ts)) (hm : mayHold type inner = true) :
    Admitted type [node inner ts] := by
  intro t ht
  obtain rfl := List.mem_singleton.1 ht
  refine ⟨h, fun i hi => ?_⟩
  simp only [type?, Option.some.injEq] at hi
  exact hi ▸ hm

/-- A composite is well shaped if it may hold its children, and starts as its type asks for. -/
theorem wellShaped_of_admitted (type : ElementType) {ts : List Tree} (h : Admitted type ts)
    (hs : isSolid type = true → front? ts = some false)
    (hb : type = .attrs → ∃ t rest, ts = leaf t :: rest) : WellShaped (node type ts) :=
  ⟨⟨fun t ht => (h t ht).2, hs, hb⟩, wellShapedAll_iff.2 fun t ht => (h t ht).1⟩

/-- An attribute may hold what is read as its pattern. -/
theorem admitted_parsePattern (ts : List Token) : Admitted .attr (parsePattern ts).1 := by
  unfold parsePattern
  split
  · rw [admitted_append]
    exact ⟨admitted_leaves _ _, admitted_node (wellShaped_node_leaves rfl _) rfl⟩
  · exact admitted_nil _

/-- An attribute may hold what is read as its value. -/
theorem admitted_parseValue (ts : List Token) : Admitted .attr (parseValue ts).1 := by
  unfold parseValue
  split
  · exact admitted_nil _
  · rw [admitted_append]
    exact ⟨admitted_leaves _ _, admitted_node (wellShaped_node_leaves rfl _) rfl⟩

/-- An attribute starts with its name. -/
theorem wellShaped_parseAttr {name : Token} (h : name.isIdentifier = true) (ts : List Token) :
    (parseAttr name ts).1.WellShaped := by
  refine wellShaped_of_admitted .attr ?_ (fun _ => ?_) (fun he => by simp at he)
  · rw [List.append_assoc, List.cons_append, admitted_cons, admitted_append, admitted_append]
    exact ⟨admitted_leaf _ _, admitted_parsePattern _, admitted_parseValue _, admitted_leaves _ _⟩
  · simp [front?, leavesOf, leaves, isTrivia_of_isIdentifier h]

/-- An attribute starts with an identifier. -/
theorem isIdentifier_of_startsAttr {t : Token} {ts : List Token}
    (h : startsAttr (t :: ts) = true) : t.isIdentifier = true := by
  simp only [startsAttr, Bool.and_eq_true] at h
  exact h.1

/-- A block may hold what is read as its items. -/
theorem admitted_blockItems (ts : List Token) : Admitted .attrs (blockItems ts).1 := by
  fun_induction blockItems ts with
  | case1 => exact admitted_nil _
  | case2 t ts _ => exact admitted_leaf _ _
  | case3 t ts _ h ih =>
      exact admitted_cons.2
        ⟨admitted_node (wellShaped_parseAttr (isIdentifier_of_startsAttr h) ts) rfl, ih⟩
  | case4 t ts _ _ ih => exact admitted_cons.2 ⟨admitted_leaf _ _, ih⟩

/-- A block starts with its brace. -/
theorem wellShaped_parseBlock {brace : Token} (h : brace.isOperator openBrace = true)
    (ts : List Token) : (parseBlock brace ts).1.WellShaped := by
  refine wellShaped_of_admitted .attrs ?_ (fun _ => ?_) (fun _ => ⟨_, _, rfl⟩)
  · exact admitted_cons.2 ⟨admitted_leaf _ _, admitted_blockItems _⟩
  · simp [front?, leavesOf, leaves, isTrivia_of_isOperator h]

/-- A rule may hold what is read as its block. -/
theorem admitted_parseRuleBlock (ts : List Token) : Admitted .rule (parseRuleBlock ts).1 := by
  unfold parseRuleBlock
  split
  · exact admitted_nil _
  · next brace rest _ =>
    split
    · next h =>
      rw [admitted_append]
      exact ⟨admitted_leaves _ _, admitted_node (wellShaped_parseBlock h rest) rfl⟩
    · exact admitted_nil _

/-- A rule may hold what is read behind its name. -/
theorem admitted_parseRuleBody (ts : List Token) : Admitted .rule (parseRuleBody ts).1 := by
  simp only [parseRuleBody]
  rw [List.append_assoc, List.cons_append, admitted_append, admitted_cons, admitted_append]
  exact ⟨admitted_leaves _ _, admitted_node (wellShaped_node_leaves rfl _) rfl,
    admitted_parseRuleBlock _, admitted_leaves _ _⟩

/-- A rule may hold what is read as its modifiers. -/
theorem admitted_modifierItems (modifiers : List Token) :
    Admitted .rule (modifierItems modifiers) := by
  unfold modifierItems
  split
  · exact admitted_nil _
  · exact admitted_cons.2
      ⟨admitted_node (wellShaped_node_leaves rfl _) rfl, admitted_leaf _ _⟩

/-- A rule starts at an identifier. -/
theorem isIdentifier_of_ruleHead? {t : Token} {ts modifiers named : List Token}
    (h : ruleHead? (t :: ts) = some (modifiers, named)) : t.isIdentifier = true := by
  cases ts with
  | nil => simp [ruleHead?] at h
  | cons next ts =>
      cases hi : t.isIdentifier with
      | true => rfl
      | false => simp [ruleHead?, hi] at h

/-- A rule starts with its first modifier or its name. -/
theorem wellShaped_parseRule {t : Token} {ts modifiers rest : List Token} {name : Token}
    (h : ruleHead? (t :: ts) = some (modifiers, name :: rest)) :
    (parseRule modifiers name rest).1.WellShaped := by
  refine wellShaped_of_admitted .rule ?_ (fun _ => ?_) (fun he => by simp at he)
  · rw [admitted_append, admitted_cons]
    exact ⟨admitted_modifierItems _, admitted_leaf _ _, admitted_parseRuleBody _⟩
  · have ha := ruleHead?_append h
    have hi := isTrivia_of_isIdentifier (isIdentifier_of_ruleHead? h)
    rw [front?, leavesOf_append, leavesOf_modifierItems, leavesOf, leaves]
    cases modifiers with
    | nil =>
        obtain ⟨rfl, -⟩ := List.cons.inj ha
        simp [hi]
    | cons m ms =>
        obtain ⟨rfl, -⟩ := List.cons.inj ha
        simp [hi]

/-- A file may hold what is read as its items. -/
theorem admitted_fileItems (ts : List Token) : Admitted .file (fileItems ts) := by
  fun_induction fileItems ts with
  | case1 => exact admitted_nil _
  | case2 t ts h ih =>
      exact admitted_cons.2 ⟨admitted_node (wellShaped_parseBlock h ts) rfl, ih⟩
  | case3 t ts _ modifiers name rest h ih =>
      exact admitted_cons.2 ⟨admitted_node (wellShaped_parseRule h) rfl, ih⟩
  | case4 t ts _ _ ih => exact admitted_cons.2 ⟨admitted_leaf _ _, ih⟩

/-- Whatever the tokens are, the file that is read from them is well shaped. -/
theorem wellShaped_parseFile (ts : List Token) : (parseFile ts).WellShaped :=
  wellShaped_of_admitted .file (admitted_fileItems ts) (fun h => by simp [isSolid] at h)
    (fun h => by simp at h)

/-- **The tree of a text is well shaped.** -/
theorem wellShaped_parse (text : String) : (parse text).WellShaped := wellShaped_parseFile _

end Tree

end BnfSuppression
