import BnfSuppression.Proofs.Reading.Grammar

/-!
# The Composites of a Tree

The composites of a tree, each before those it holds, come with the indices of their first leaves.
Which composites a tree has follows from its form: rules stand right below the file, attributes in
blocks.

## Main definitions

* `Tree.composites`: the composites with their indices.
* `Tree.nameAt?`: the name of a composite with its index.

## Main results

* `Tree.IsBlock.cases_of_mem`, `Tree.IsRule.cases_of_mem`: what blocks and rules hold.
* `Tree.of_mem_composites_parse`: **every rule and every attribute of a text has the form of one**.
-/

namespace BnfSuppression

namespace Tree

mutual

/-- The composites of a tree, each before those below it and with the index of its first leaf,
where `k` is the index of the first leaf of the tree. -/
def composites (k : Nat) : Tree → List (Nat × Tree)
  | leaf _ => []
  | node type Ts => (k, node type Ts) :: compositesOf k Ts

/-- The composites of trees that stand side by side. -/
def compositesOf (k : Nat) : List Tree → List (Nat × Tree)
  | [] => []
  | T :: Ts => composites k T ++ compositesOf (k + T.leaves.length) Ts

end

/-- The first identifier among trees side by side, with its index, where `k` is the index of their
first leaf. -/
def nameAmong? (k : Nat) : List Tree → Option (Nat × Token)
  | [] => none
  | leaf t :: Ts => if t.isIdentifier then some (k, t) else nameAmong? (k + 1) Ts
  | node _ Us :: Ts => nameAmong? (k + (leavesOf Us).length) Ts

/-- The first identifier directly below a composite, with its index. -/
def nameAt? (k : Nat) (T : Tree) : Option (Nat × Token) := nameAmong? k T.children

variable {t : Token} {ts rest : List Token} {Ts Us : List Tree} {T : Tree} {type : ElementType}
  {k : Nat} {c : Nat × Tree}

/-- The composites of a type. -/
def compositesOfType (type : ElementType) (k : Nat) (Ts : List Tree) : List (Nat × Tree) :=
  (compositesOf k Ts).filter fun c => c.2.type? == some type

/-- No trees have no composites. -/
@[simp]
theorem compositesOf_nil (k : Nat) : compositesOf k [] = [] := rfl

/-- A leaf in front of other trees is no composite, and shifts the indices by one. -/
@[simp]
theorem compositesOf_cons_leaf (k : Nat) (t : Token) (Ts : List Tree) :
    compositesOf k (leaf t :: Ts) = compositesOf (k + 1) Ts := rfl

/-- A composite comes before those below it, and these before the ones after it. -/
@[simp]
theorem compositesOf_cons_node (k : Nat) (type : ElementType) (Us Ts : List Tree) :
    compositesOf k (node type Us :: Ts) = (k, node type Us) ::
      (compositesOf k Us ++ compositesOf (k + (leavesOf Us).length) Ts) := rfl

/-- The composites of two lists of trees are those of the one, then those of the other, with shifted
indices. -/
@[simp]
theorem compositesOf_append (k : Nat) (Ts Us : List Tree) : compositesOf k (Ts ++ Us) =
    compositesOf k Ts ++ compositesOf (k + (leavesOf Ts).length) Us := by
  induction Ts generalizing k with
  | nil => rfl
  | cons T Ts ih => simp [compositesOf, leavesOf, ih, Nat.add_assoc]

/-- Leaves hold no composites. -/
@[simp]
theorem compositesOf_map_leaf (k : Nat) (ts : List Token) : compositesOf k (ts.map leaf) = [] := by
  induction ts generalizing k with
  | nil => rfl
  | cons t ts ih => exact ih (k + 1)

/-- The name of a composite is that of the first identifier directly below it. -/
theorem name?_eq (k : Nat) (T : Tree) : T.name? = (T.nameAt? k).map fun x => x.2.text := by
  cases T with
  | leaf t => rfl
  | node type Ts =>
      rw [nameAt?, children, name?]
      induction Ts generalizing k with
      | nil => rfl
      | cons T Ts ih =>
          cases T with
          | leaf t =>
              rw [List.findSome?_cons, nameAmong?]
              cases ht : t.isIdentifier with
              | true => simp [ht]
              | false => simpa [ht] using ih (k + 1)
          | node type Us => exact ih _

/-- The composites of a type are those of the one list, then those of the other, with shifted
indices. -/
theorem compositesOfType_append (type : ElementType) (k : Nat) (Ts Us : List Tree) :
    compositesOfType type k (Ts ++ Us) =
      compositesOfType type k Ts ++ compositesOfType type (k + (leavesOf Ts).length) Us := by
  rw [compositesOfType, compositesOf_append, List.filter_append]
  rfl

/-- The composites of a type in a tree are the tree itself, if it has the type, and those below
it. -/
theorem compositesOfType_node (type inner : ElementType) (k : Nat) (Us : List Tree) :
    compositesOfType type k [node inner Us] =
      (if inner = type then [(k, node inner Us)] else []) ++ compositesOfType type k Us := by
  simp only [compositesOfType, compositesOf, composites, List.append_nil, List.filter_cons, type?,
    beq_iff_eq, Option.some.injEq]
  split <;> rfl

/-- A single tree has its own leaves. -/
theorem leavesOf_singleton (T : Tree) : leavesOf [T] = T.leaves := List.append_nil _

/-! ### What forms hold -/

/-- What stands below a block: attributes, and the patterns and values that these hold. -/
def IsInner (T : Tree) : Prop := IsAttr T ∨ T.type? = some .attrPattern ∨ T.type? = some .value

/-- What has the form of an attribute has this type. -/
theorem IsAttr.type?_eq (h : IsAttr T) : T.type? = some .attr := by
  cases h
  rfl

/-- What has the form of a rule has this type. -/
theorem IsRule.type?_eq (h : IsRule rest T) : T.type? = some .rule := by
  cases h
  rfl

/-- What stands below a block is neither a block nor a rule. -/
theorem IsInner.type?_ne (h : IsInner T) : T.type? ≠ some .attrs ∧ T.type? ≠ some .rule := by
  have htype : T.type? = some .attr ∨ T.type? = some .attrPattern ∨ T.type? = some .value :=
    h.imp_left IsAttr.type?_eq
  rcases htype with ht | ht | ht <;> rw [ht] <;> decide

/-- The composites of an attribute are the attribute itself, its pattern and its value. -/
theorem IsAttr.inner_of_mem (h : IsAttr T) (hc : c ∈ composites k T) : IsInner c.2 := by
  have hattr := h
  obtain ⟨-, hp, hv, -, -⟩ := h
  rcases List.mem_cons.1 hc with rfl | hc
  · exact .inl hattr
  · right
    cases hp <;> cases hv <;> simp at hc
    case none.value => exact .inr (hc ▸ rfl)
    case pattern.none => exact .inl (hc ▸ rfl)
    case pattern.value =>
      rcases hc with rfl | rfl
      · exact .inl rfl
      · exact .inr rfl

/-- The composites among the items of a block are attributes, patterns and values. -/
theorem inner_of_blockItems (h : ∀ T ∈ Ts, IsBlockItem T) (hc : c ∈ compositesOf k Ts) :
    IsInner c.2 := by
  induction Ts generalizing k with
  | nil => simp at hc
  | cons T Ts ih =>
      obtain ⟨hT, hTs⟩ := List.forall_mem_cons.1 h
      rw [compositesOf, List.mem_append] at hc
      rcases hc with hc | hc
      · cases hT with
        | token _ => simp [composites] at hc
        | attr hT => exact hT.inner_of_mem hc
      · exact ih hTs hc

/-- No attribute takes a closing brace. -/
theorem IsAttr.free (h : IsAttr T) : ∀ u ∈ T.leaves, u.isOperator closeBrace = false := by
  have htrivia : ∀ {us : List Token}, AreTrivia us → ∀ u ∈ us, u.isOperator closeBrace = false :=
    fun hus u hu => isOperator_of_isTrivia (hus u hu) _
  obtain ⟨hname, hp, hv, -, hclose⟩ := h
  simp only [leaves, leavesOf, List.cons_append, leavesOf_append, leavesOf_map_leaf,
    List.nil_append, List.append_assoc, List.forall_mem_cons, List.forall_mem_append]
  refine ⟨isOperator_of_isIdentifier hname _, ?_, ?_, fun u hu => ?_⟩
  · cases hp with
    | none => simp [leavesOf]
    | pattern hspace hpattern =>
        obtain ⟨hopen, hfree, -⟩ := hpattern
        simp only [leavesOf_append, leavesOf_map_leaf, leavesOf_singleton, leaves,
          List.forall_mem_append, List.forall_mem_cons]
        exact ⟨htrivia hspace, isOperator_of_ne hopen (by decide), hfree⟩
  · cases hv with
    | none => simp [leavesOf]
    | value hspace hsign hgap hvalue =>
        simp only [leavesOf_append, leavesOf_map_leaf, leavesOf_singleton, leaves,
          List.forall_mem_append, List.forall_mem_cons]
        exact ⟨⟨htrivia hspace, isOperator_of_ne hsign (by decide), htrivia hgap.areTrivia⟩,
          hvalue.free⟩
  · rcases hclose.isTrivia_or (fun _ => isTrivia_of_isInlineSpace) hu with ht | ht
    · exact isOperator_of_isTrivia ht _
    · exact isOperator_of_ne ht (by decide)

/-- No token of the items of a block is a closing brace. -/
theorem free_of_blockItems (h : ∀ T ∈ Ts, IsBlockItem T) :
    ∀ u ∈ leavesOf Ts, u.isOperator closeBrace = false := by
  induction Ts with
  | nil => simp [leavesOf]
  | cons T Ts ih =>
      obtain ⟨hT, hTs⟩ := List.forall_mem_cons.1 h
      rw [leavesOf, List.forall_mem_append]
      refine ⟨?_, ih hTs⟩
      cases hT with
      | token ht => simpa [leaves] using ht
      | attr hT => exact hT.free

/-- A block starts with its brace, and below it stands nothing else than below blocks. -/
theorem IsBlock.exists_items (h : IsBlock rest T) :
    ∃ opening Us, T = node .attrs (leaf opening :: Us) ∧ opening.isOperator openBrace = true ∧
      ∀ k, ∀ c ∈ compositesOf k (leaf opening :: Us), IsInner c.2 := by
  cases h with
  | @closed opening closing items hopening hitems _ =>
      refine ⟨opening, items ++ [leaf closing], rfl, hopening, fun k c hc => ?_⟩
      rw [compositesOf_cons_leaf, compositesOf_append, compositesOf_cons_leaf, compositesOf_nil,
        List.append_nil] at hc
      exact inner_of_blockItems hitems hc
  | @unclosed opening items hopening hitems _ =>
      exact ⟨opening, items, rfl, hopening, fun k c hc => inner_of_blockItems hitems hc⟩

/-- A composite of a block is the block or stands below it, so none is a rule. -/
theorem IsBlock.cases_of_mem (h : IsBlock rest T) (hc : c ∈ composites k T) :
    c.2.type? = some .attrs ∨ IsInner c.2 := by
  obtain ⟨opening, Us, rfl, -, hinner⟩ := h.exists_items
  rcases List.mem_cons.1 hc with rfl | hc
  · exact .inl rfl
  · exact .inr (hinner k c hc)

/-- A rule holds modifiers, an expression and a block, and what stands below that. -/
theorem IsRule.cases_of_mem (h : IsRule rest T) (hc : c ∈ composites k T) :
    c.2 = T ∨ (c.2.type? = some .modifiers ∨ c.2.type? = some .expression) ∨
      c.2.type? = some .attrs ∨ IsInner c.2 := by
  cases h with
  | @intro modifiers block _ _ _ _ _ _ hm _ _ _ _ _ hb _ =>
      have hmodifiers : ∀ j, c ∈ compositesOf j modifiers → c.2.type? = some .modifiers := by
        intro j hj
        cases hm with
        | none => simp at hj
        | modifiers => simp_all [type?]
      have hblock : ∀ j, c ∈ compositesOf j block → c.2.type? = some .attrs ∨ IsInner c.2 := by
        intro j hj
        cases hb with
        | none => simp at hj
        | block _ hT =>
            rw [compositesOf_append, compositesOf_map_leaf, List.nil_append, compositesOf,
              compositesOf_nil, List.append_nil] at hj
            exact hT.cases_of_mem hj
      rcases List.mem_cons.1 hc with rfl | hc
      · exact .inl rfl
      · right
        simp only [compositesOf_append, compositesOf_cons_leaf, compositesOf_cons_node,
          compositesOf_map_leaf, List.nil_append, List.append_nil, List.mem_append,
          List.mem_cons] at hc
        rcases hc with hc | rfl | hc
        · exact .inl (.inl (hmodifiers _ hc))
        · exact .inl (.inr rfl)
        · exact .inr (hblock _ hc)

/-- In a file, rules and attributes have the form of one. -/
theorem AreFileItems.of_mem (h : AreFileItems Ts) (hc : c ∈ compositesOf k Ts) :
    (c.2.type? = some .rule → ∃ rest, IsRule rest c.2) ∧ (c.2.type? = some .attr → IsAttr c.2) := by
  have hinner : IsInner c.2 →
      (c.2.type? = some .rule → ∃ rest, IsRule rest c.2) ∧ (c.2.type? = some .attr → IsAttr c.2) :=
    fun hi => ⟨fun ht => absurd ht hi.type?_ne.2, fun ht => hi.resolve_right (by simp [ht])⟩
  induction h generalizing k with
  | nil => simp at hc
  | token _ ih => exact ih hc
  | @block T Ts hT _ ih =>
      rcases List.mem_append.1 hc with hc | hc
      · rcases hT.cases_of_mem hc with ht | hi
        · simp [ht]
        · exact hinner hi
      · exact ih hc
  | @rule T Ts hT _ ih =>
      rcases List.mem_append.1 hc with hc | hc
      · rcases hT.cases_of_mem hc with he | (ht | ht) | ht | hi
        · rw [he]
          exact ⟨fun _ => ⟨_, hT⟩, fun ht => by simp [hT.type?_eq] at ht⟩
        · simp [ht]
        · simp [ht]
        · simp [ht]
        · exact hinner hi
      · exact ih hc

/-- **Every rule and every attribute of a text has the form of one.** -/
theorem of_mem_composites_parse {text : String} (hc : c ∈ (parse text).composites k) :
    (c.2.type? = some .rule → ∃ rest, IsRule rest c.2) ∧ (c.2.type? = some .attr → IsAttr c.2) := by
  rcases List.mem_cons.1 hc with rfl | hc
  · simp [type?]
  · exact (areFileItems_fileItems _).of_mem hc

end Tree

end BnfSuppression
