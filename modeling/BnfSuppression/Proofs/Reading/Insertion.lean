import BnfSuppression.Proofs.Reading.Ahead
import BnfSuppression.Proofs.Shape

/-!
# Reading What Was Written into a Tree

Where a comment and white space are put before a rule or before an attribute, the tree with the two
leaves in that place is the tree that is read from its tokens. The items before the place are read
as before since nothing they look ahead for has changed; the composites around the place are put
together again from the inside out.

## Main results

* `Tree.Reads.exchange`: what follows in a file may be exchanged.
* `Tree.Reads.insert_rule`, `Tree.Reads.insert_attr`, `Tree.Reads.insert_attr_of_rule`: **a comment
  may be written before a rule and before an attribute**.
-/

namespace BnfSuppression

namespace Tree

variable {c b t y brace : Token} {B B' ts us rest : List Token} {As Bs Ts Us ds L Q : List Tree}

/-! ### Ways to go on -/

/-- No attribute starts at a token other than an identifier. -/
theorem startsAttr_of_not_identifier (h : t.isIdentifier = false) (ts : List Token) :
    startsAttr (t :: ts) = false := by
  simp [startsAttr, h]

/-- No rule starts at a token other than an identifier. -/
theorem startsRule_of_not_identifier (h : t.isIdentifier = false) (ts : List Token) :
    startsRule (t :: ts) = false := by
  simp [startsRule, ruleHead?_of_not_identifier h]

/-- A comment and white space may stand before an identifier. -/
theorem Ahead.inserted (hc : c.isComment = true) (hb : b.isTrivia = true)
    (hy : y.isIdentifier = true) (B : List Token) : Ahead y (y :: B) (c :: b :: y :: B) where
  head := ⟨B, rfl⟩
  solid := isTrivia_of_isIdentifier hy
  operator := fun spelling _ => isOperator_of_isIdentifier hy spelling
  next := by
    rw [skipTrivia_of_isTrivia (Token.isTrivia_of_isComment hc), skipTrivia_of_isTrivia hb,
      skipTrivia_of_solid (isTrivia_of_isIdentifier hy)]
    rfl
  space := by
    have hspace : c.isInlineSpace = false := by
      obtain ⟨type, text⟩ := c
      cases type <;>
        simp_all [Token.isComment, TokenType.isComment, Token.isInlineSpace, Token.isWhitespace]
    rw [Tree.inlineSpace, if_neg (by simp [hspace])]
  value := fun first depth h => by
    -- the value is not at its first token, for an identifier there is part of it
    rw [Tree.valueSpan, if_neg (by simp [isTrivia_of_isIdentifier hy])] at h
    have hnone : (Tree.valueSpan false depth (y :: B)).1 = [] := by
      rw [Tree.valueSpan, if_neg (by simp [isTrivia_of_isIdentifier hy])]
      split at h
      · next hstop =>
        rw [if_pos]
        simp only [isOperator_of_isIdentifier hy, Bool.false_or, Bool.and_eq_true] at hstop ⊢
        exact ⟨hstop.1, by simpa using hstop.2.2⟩
      · simp at h
    have hnone' : (Tree.valueSpan false depth (b :: y :: B)).1 = [] := by
      rw [valueSpan_of_isTrivia hb, if_pos hnone]
    rw [valueSpan_of_isTrivia (Token.isTrivia_of_isComment hc), if_pos hnone']
  rule := fun h => by
    have hi := isIdentifier_of_isTrivia (Token.isTrivia_of_isComment hc)
    rw [startsRule_of_not_identifier hi] at h
    simp at h

/-- What follows behind the next token may differ, if that does not matter to what starts with the
token. -/
theorem Ahead.behind (hy : y.isTrivia = false)
    (ho : ∀ spelling, spelling ≠ openBrace → y.isOperator spelling = false)
    (ha : startsAttr (y :: B') = startsAttr (y :: B))
    (hr : startsRule (y :: B') = startsRule (y :: B)) : Ahead y (y :: B) (y :: B') where
  head := ⟨B, rfl⟩
  solid := hy
  operator := ho
  next := by
    rw [skipTrivia_of_solid hy]
    rfl
  space := by
    have hspace : y.isInlineSpace = false := by
      rw [Token.isTrivia, TokenType.isTrivia_eq, Bool.or_eq_false_iff] at hy
      simp [Token.isInlineSpace, Token.isWhitespace, hy.1]
    rw [Tree.inlineSpace, if_neg (by simp [hspace])]
  value := fun first depth h => by
    rw [Tree.valueSpan, if_neg (by simp [hy])] at h ⊢
    rw [ha]
    split at h
    · next hstop => rw [if_pos hstop]
    · simp at h
  rule := fun h => hr ▸ h

/-- What follows behind the brace of a block may differ. -/
theorem Ahead.of_brace (h : brace.isOperator openBrace = true) (B B' : List Token) :
    Ahead brace (brace :: B) (brace :: B') := by
  have hi := isIdentifier_of_isOperator h
  refine .behind (isTrivia_of_isOperator h) (fun s hs => isOperator_of_ne h hs) ?_ ?_
  · rw [startsAttr_of_not_identifier hi, startsAttr_of_not_identifier hi]
  · rw [startsRule_of_not_identifier hi, startsRule_of_not_identifier hi]

/-! ### Blocks -/

/-- White space and comments among the items of a block are items of their own. -/
theorem blockItems_of_isTrivia (h : t.isTrivia = true) (ts : List Token) :
    blockItems (t :: ts) = (leaf t :: (blockItems ts).1, (blockItems ts).2) := by
  rw [blockItems.eq_2, if_neg (by simp [isOperator_of_isTrivia h]),
    if_neg (by simp [startsAttr_of_not_identifier (isIdentifier_of_isTrivia h)])]

/-- The items of a block behind one that is not the last are read in the same way without it. -/
theorem blockItems_tail {A : Tree} (h : blockItems ts = (A :: As, rest)) (hne : As ≠ []) :
    blockItems (leavesOf As ++ rest) = (As, rest) := by
  cases ts with
  | nil => simp [blockItems] at h
  | cons t ts =>
      rw [blockItems.eq_2] at h
      split at h
      · simp only [Prod.mk.injEq, List.cons.injEq] at h
        exact absurd h.1.2.symm hne
      · split at h
        · simp only [Prod.mk.injEq, List.cons.injEq] at h
          obtain ⟨⟨-, rfl⟩, rfl⟩ := h
          rw [blockItems_append]
        · simp only [Prod.mk.injEq, List.cons.injEq] at h
          obtain ⟨⟨-, rfl⟩, rfl⟩ := h
          rw [blockItems_append]

/-- The last items of a block are read the same way without those before them. -/
theorem blockItems_right (h : blockItems ts = (As ++ Bs, rest)) (hne : Bs ≠ []) :
    blockItems (leavesOf Bs ++ rest) = (Bs, rest) := by
  induction As generalizing ts with
  | nil =>
      have happ := blockItems_append ts
      rw [h] at happ
      rw [List.nil_append] at h happ
      rw [happ, h]
  | cons A As ih => exact ih (blockItems_tail h (by simp [hne]))

/-- A block starts with an attribute where one starts. -/
theorem exists_name_of_blockItems (h : blockItems ts = (node .attr ds :: Bs, rest)) :
    ∃ y us, ts = y :: us ∧ y.isIdentifier = true := by
  cases ts with
  | nil => simp [blockItems] at h
  | cons t ts =>
      rw [blockItems.eq_2] at h
      split at h
      · simp at h
      · split at h
        · next ha => exact ⟨t, ts, rfl, isIdentifier_of_startsAttr ha⟩
        · simp at h

/-- **A comment may be written before an attribute of a block.** -/
theorem blockItems_insert (hc : c.isComment = true) (hb : b.isTrivia = true)
    (h : blockItems ts = (As ++ node .attr ds :: Bs, rest)) :
    blockItems (leavesOf As ++ c :: b :: (leavesOf (node .attr ds :: Bs) ++ rest)) =
      (As ++ leaf c :: leaf b :: node .attr ds :: Bs, rest) := by
  have hright := blockItems_right h (by simp)
  obtain ⟨y, us, hK, hy⟩ := exists_name_of_blockItems hright
  have happ := blockItems_append ts
  rw [h, leavesOf_append, List.append_assoc] at happ
  rw [← happ, hK] at h
  rw [hK] at hright ⊢
  have hitems : (blockItems (leavesOf As ++ y :: us)).1 = As ++ (blockItems (y :: us)).1 := by
    rw [h, hright]
  have hinserted := (Ahead.inserted hc hb hy us).blockItems_items hitems
  rw [hinserted, blockItems_of_isTrivia (Token.isTrivia_of_isComment hc),
    blockItems_of_isTrivia hb, hright]

/-- A block consists of its brace and its items. -/
theorem parseBlock_eq_iff : parseBlock brace ts = (node .attrs (leaf t :: As), rest) ↔
    brace = t ∧ blockItems ts = (As, rest) := by
  rw [parseBlock, Prod.mk.injEq, Tree.node.injEq, List.cons.injEq, Tree.leaf.injEq]
  constructor
  · rintro ⟨⟨-, ht, hitems⟩, hrest⟩
    exact ⟨ht, Prod.ext hitems hrest⟩
  · rintro ⟨ht, hitems⟩
    exact ⟨⟨rfl, ht, congrArg Prod.fst hitems⟩, congrArg Prod.snd hitems⟩

/-- A comment and a line break before an attribute of a block become two more items, and change no
other. -/
theorem parseBlock_insert (hc : c.isComment = true) (hb : b.isTrivia = true)
    (h : parseBlock brace ts = (node .attrs (leaf brace :: (As ++ node .attr ds :: Bs)), rest)) :
    parseBlock brace (leavesOf As ++ c :: b :: (leavesOf (node .attr ds :: Bs) ++ rest)) =
      (node .attrs (leaf brace :: (As ++ leaf c :: leaf b :: node .attr ds :: Bs)), rest) := by
  rw [parseBlock_eq_iff] at h ⊢
  exact ⟨rfl, blockItems_insert hc hb h.2⟩

/-! ### Files -/

/-- **What follows in a file may be exchanged.** -/
theorem Reads.exchange {Us' : List Tree} (h : Reads (Ts ++ Us)) (h' : Reads Us')
    (H : Ahead y (leavesOf Us) (leavesOf Us')) (hstop : (expressionSpan (leavesOf Us')).1 = []) :
    Reads (Ts ++ Us') := by
  have hright : fileItems (leavesOf Us) = Us := h.right
  rw [Reads, leavesOf_append] at h
  have hitems : fileItems (leavesOf Ts ++ leavesOf Us) = Ts ++ fileItems (leavesOf Us) := by
    rw [h, hright]
  have hitems := H.fileItems_items hstop hitems
  rw [Reads, leavesOf_append, hitems, h']

/-- White space and comments may be put in front of what a file holds. -/
theorem Reads.append (h : Reads Us) (hts : ∀ t ∈ ts, t.isTrivia = true) :
    Reads (ts.map leaf ++ Us) := by
  rw [Reads, leavesOf_append, leavesOf_map_leaf, fileItems_append hts, h]

/-- White space and comments in front of the items of a file become items of their own. -/
theorem Reads.cons_trivia (h : Reads Us) (ht : t.isTrivia = true) : Reads (leaf t :: Us) :=
  h.append (show ∀ u ∈ [t], u.isTrivia = true by simpa using ht)

/-- A rule of a file starts with an identifier where a rule starts. -/
theorem Reads.exists_name (h : Reads (node .rule ds :: Us)) :
    ∃ y us, leavesOf (node .rule ds :: Us) = y :: us ∧ y.isIdentifier = true ∧
      startsRule (y :: us) = true := by
  have hitems : fileItems (leavesOf (node .rule ds :: Us)) = node .rule ds :: Us := h
  cases hL : leavesOf (node .rule ds :: Us) with
  | nil => simp [hL, fileItems] at hitems
  | cons y us =>
      rw [hL] at hitems
      have hrule := (startsRule_iff y us).2 ⟨ds, Us, hitems⟩
      refine ⟨y, us, rfl, ?_, hrule⟩
      by_contra hi
      rw [startsRule_of_not_identifier (by simpa using hi)] at hrule
      simp at hrule

/-- An expression ends before a rule. -/
theorem expressionSpan_of_startsRule (hy : y.isTrivia = false)
    (h : startsRule (y :: us) = true) : (expressionSpan (y :: us)).1 = [] := by
  rw [expressionSpan_eq_nil_iff (skipTrivia_of_solid hy us), h, Bool.or_true]

/-- **A comment may be written before a rule.** -/
theorem Reads.insert_rule (hc : c.isComment = true) (hb : b.isTrivia = true)
    (h : Reads (Ts ++ node .rule ds :: Us)) :
    Reads (Ts ++ leaf c :: leaf b :: node .rule ds :: Us) := by
  have hct := Token.isTrivia_of_isComment hc
  obtain ⟨y, us, hK, hy, hrule⟩ := h.right.exists_name
  have hK' : leavesOf (leaf c :: leaf b :: node .rule ds :: Us) = c :: b :: y :: us := by
    rw [leavesOf, leavesOf, hK]
    rfl
  have hstop := expressionSpan_of_startsRule (isTrivia_of_isIdentifier hy) hrule
  refine h.exchange ((h.right.cons_trivia hb).cons_trivia hct) (y := y) ?_ ?_
  · rw [hK, hK']
    exact .inserted hc hb hy us
  · rw [hK']
    exact expressionSpan_of_trivia (show ∀ u ∈ [c, b], u.isTrivia = true by simp [hct, hb]) hstop

/-- A block outside rules is read from its brace on. -/
theorem reads_block_iff : Reads (node .attrs (leaf brace :: As) :: Us) ↔
    brace.isOperator openBrace = true ∧ Reads Us ∧
      parseBlock brace (leavesOf As ++ leavesOf Us) =
        (node .attrs (leaf brace :: As), leavesOf Us) := by
  have hL : leavesOf (node .attrs (leaf brace :: As) :: Us) =
      brace :: (leavesOf As ++ leavesOf Us) := by
    simp [leavesOf, leaves]
  constructor
  · intro h
    have hitems : fileItems (leavesOf (node .attrs (leaf brace :: As) :: Us)) =
      node .attrs (leaf brace :: As) :: Us := h
    rw [hL] at hitems
    have happ := parseBlock_append brace (leavesOf As ++ leavesOf Us)
    rcases fileItems_cases brace (leavesOf As ++ leavesOf Us) with
      ⟨hb, he⟩ | ⟨m, n, r, -, -, he⟩ | ⟨-, -, he⟩
    · obtain ⟨hblock, -⟩ := List.cons.inj (he.symm.trans hitems)
      rw [hblock, ← hL, leavesOf] at happ
      exact ⟨hb, h.tail, Prod.ext hblock (List.append_cancel_left happ)⟩
    · simp [hitems, parseRule] at he
    · simp [hitems] at he
  · rintro ⟨hb, hUs, hblock⟩
    rw [Reads, hL, fileItems_block hb, hblock, hUs]

/-- **A comment may be written before an attribute** of a block outside rules. -/
theorem Reads.insert_attr (hc : c.isComment = true) (hb : b.isTrivia = true)
    (h : Reads (Ts ++ node .attrs (leaf brace :: (As ++ node .attr ds :: Bs)) :: Us)) :
    Reads (Ts ++
      node .attrs (leaf brace :: (As ++ leaf c :: leaf b :: node .attr ds :: Bs)) :: Us) := by
  obtain ⟨hbrace, hUs, hblock⟩ := reads_block_iff.1 h.right
  have hblock' := parseBlock_insert hc hb hblock
  refine h.exchange (reads_block_iff.2 ⟨hbrace, hUs, ?_⟩) (y := brace) ?_ ?_
  · rw [← hblock']
    simp [leavesOf, leaves]
  · exact .of_brace hbrace _ _
  · refine (expressionSpan_eq_nil_iff (skipTrivia_of_solid (isTrivia_of_isOperator hbrace) _)).2 ?_
    simp [hbrace]

/-! ### Blocks of rules -/

/-- A list is split in its second part at a member that is not in the first. -/
theorem split_of_notMem {P : List Tree} {x : Tree} (h : As ++ P = L ++ x :: Q) (hx : x ∉ As) :
    ∃ L', L = As ++ L' ∧ P = L' ++ x :: Q := by
  rcases List.append_eq_append_iff.1 h with hsplit | ⟨cs, rfl, hP⟩
  · exact hsplit
  · cases cs with
    | nil => exact ⟨[], by simp, hP.symm⟩
    | cons z cs =>
        obtain ⟨rfl, -⟩ := List.cons.inj hP
        simp at hx

/-- A list is split in its first part at a member that is not in the second. -/
theorem split_of_notMem_right {P : List Tree} {x : Tree} (h : As ++ P = L ++ x :: Q)
    (hx : x ∉ P) : ∃ Q', As = L ++ x :: Q' ∧ Q = Q' ++ P := by
  rcases List.append_eq_append_iff.1 h with ⟨cs, -, rfl⟩ | ⟨cs, hA, hQ⟩
  · simp at hx
  · cases cs with
    | nil =>
        rw [← List.nil_append (x :: Q), List.nil_append, List.nil_append] at hQ
        rw [← hQ] at hx
        simp at hx
    | cons z cs =>
        obtain ⟨rfl, rfl⟩ := List.cons.inj hQ
        exact ⟨cs, hA, rfl⟩

/-- No composite is among leaves. -/
theorem node_notMem_map_leaf (type : ElementType) (ds : List Tree) (ts : List Token) :
    node type ds ∉ ts.map leaf := by
  simp

/-- The block of a rule, if there is one, is all that stands behind white space and comments. -/
theorem of_parseRuleBlock (h : parseRuleBlock ts = (L ++ node .attrs ds :: Q, rest)) :
    ∃ brace us, brace.isOperator openBrace = true ∧ skipTrivia ts = brace :: us ∧
      L = (leadingTrivia ts).map leaf ∧ Q = [] ∧ parseBlock brace us = (node .attrs ds, rest) := by
  cases hs : skipTrivia ts with
  | nil =>
      rw [parseRuleBlock, hs] at h
      simp at h
  | cons brace us =>
      rw [parseRuleBlock_eq hs] at h
      split at h
      · next hb =>
        obtain ⟨hL, hrest⟩ := Prod.mk.inj h
        obtain ⟨L', rfl, hblock⟩ := split_of_notMem hL (node_notMem_map_leaf _ _ _)
        cases L' with
        | nil =>
            obtain ⟨hblock, hQ⟩ := List.cons.inj hblock
            exact ⟨brace, us, hb, rfl, by simp, hQ.symm, Prod.ext hblock hrest⟩
        | cons T L' => simp at hblock
      · simp at h

/-- **The block of a rule may be exchanged** for another one that ends at the same place. -/
theorem parseRuleBody_exchange (h : parseRuleBody ts = (L ++ node .attrs ds :: Q, rest)) :
    ∃ brace us, brace.isOperator openBrace = true ∧ ts = leavesOf L ++ brace :: us ∧
      parseBlock brace us = (node .attrs ds, leavesOf Q ++ rest) ∧
      ∀ us' ds', parseBlock brace us' = (node .attrs ds', leavesOf Q ++ rest) →
        parseRuleBody (leavesOf L ++ brace :: us') = (L ++ node .attrs ds' :: Q, rest) := by
  rcases hsign : (operator "::=" ts).getD ([], ts) with ⟨sign, rest₁⟩
  rcases hspace : inlineSpace rest₁ with ⟨space, rest₂⟩
  rcases hexpr : expressionSpan rest₂ with ⟨expression, rest₃⟩
  rcases hblock : parseRuleBlock rest₃ with ⟨block, rest₄⟩
  rcases hclose : semicolon Token.isWhitespace rest₄ with ⟨close, rest₅⟩
  simp only [parseRuleBody, hsign, hspace, hexpr, hblock, hclose] at h
  obtain ⟨hitems, rfl⟩ := Prod.mk.inj h
  -- among the children of the rule, only those of `block` include the block
  obtain ⟨Q', hitems', rfl⟩ := split_of_notMem_right hitems (node_notMem_map_leaf _ _ _)
  clear hitems
  obtain ⟨L₁, rfl, hitems⟩ := split_of_notMem hitems' (node_notMem_map_leaf _ _ _)
  clear hitems'
  rw [← List.singleton_append] at hitems
  obtain ⟨L₂, rfl, rfl⟩ := split_of_notMem hitems (by simp)
  clear hitems
  obtain ⟨brace, us, hb, hskip, rfl, rfl, hparse⟩ := of_parseRuleBlock hblock
  -- the text ends in the block and what follows it
  have happ₁ := operator_getD_append "::=" ts
  have happ₂ := inlineSpace_append rest₁
  have happ₃ := expressionSpan_append rest₂
  have happ₅ := semicolon_append Token.isWhitespace rest₄
  have htrivia : ∀ u ∈ leadingTrivia rest₃, u.isTrivia = true := fun u hu =>
    List.mem_takeWhile_imp hu
  have hlead := leadingTrivia_append rest₃
  rw [hsign] at happ₁
  rw [hspace] at happ₂
  rw [hexpr] at happ₃
  rw [hclose] at happ₅
  rw [hskip] at hlead
  generalize leadingTrivia rest₃ = lead at *
  obtain rfl := happ₅
  obtain rfl := hlead
  obtain rfl : rest₂ = (expression ++ lead) ++ brace :: us := by simpa using happ₃.symm
  obtain rfl : rest₁ = (space ++ (expression ++ lead)) ++ brace :: us := by simpa using happ₂.symm
  obtain rfl : ts = (sign ++ (space ++ (expression ++ lead))) ++ brace :: us := by
    simpa using happ₁.symm
  have hL : leavesOf ((sign ++ space).map leaf ++ ([node .expression (expression.map leaf)] ++
      lead.map leaf)) = sign ++ (space ++ (expression ++ lead)) := by
    simp [leavesOf, leaves]
  have hQ : leavesOf ([] ++ close.map leaf) = close := by simp
  rw [hL, hQ]
  refine ⟨brace, us, hb, rfl, hparse, fun us' ds' hparse' => ?_⟩
  have H := Ahead.of_brace hb us us'
  have hsolid := isTrivia_of_isOperator hb
  have hstop : (expressionSpan (lead ++ brace :: us')).1 = [] := by
    refine expressionSpan_of_trivia htrivia
      ((expressionSpan_eq_nil_iff (skipTrivia_of_solid hsolid us')).2 ?_)
    simp [hb]
  have hblock' : parseRuleBlock (lead ++ brace :: us') =
      (lead.map leaf ++ [node .attrs ds'], close ++ rest₅) := by
    rw [parseRuleBlock_eq (skipTrivia_append_solid htrivia hsolid us'), if_pos hb, hparse',
      leadingTrivia_append_solid htrivia hsolid]
  simp only [parseRuleBody, H.operator_getD (by decide) hsign, H.inlineSpace hspace,
    H.expressionSpan hexpr hstop, hblock', hclose]
  simp

/-- No block is among the modifiers and the name of a rule. -/
theorem attrs_notMem_modifierItems (m : List Token) (n : Token) :
    node .attrs ds ∉ modifierItems m ++ [leaf n] := by
  rw [modifierItems]
  split <;> simp

/-- What is read from some tokens reads, and has them as its leaves. -/
theorem reads_of_fileItems (h : fileItems ts = Us) : Reads Us ∧ leavesOf Us = ts := by
  have hL : leavesOf Us = ts := h ▸ leavesOf_fileItems ts
  exact ⟨by rw [Reads, hL, h], hL⟩

/-- A rule of a file is read from its head on. -/
theorem Reads.rule_eq (h : Reads (node .rule ds :: Us)) :
    ∃ m n r, ruleHead? (leavesOf (node .rule ds :: Us)) = some (m, n :: r) ∧
      modifierItems m ++ leaf n :: (parseRuleBody r).1 = ds ∧
      (parseRuleBody r).2 = leavesOf Us := by
  have hitems : fileItems (leavesOf (node .rule ds :: Us)) = node .rule ds :: Us := h
  obtain ⟨y, us, hL, -, -⟩ := h.exists_name
  rw [hL] at hitems ⊢
  rcases fileItems_cases y us with ⟨-, he⟩ | ⟨m, n, r, -, hr, he⟩ | ⟨-, -, he⟩
  · simp [hitems, parseBlock] at he
  · obtain ⟨hrule, -⟩ := List.cons.inj (he.symm.trans hitems)
    have happ := (parseRule_append m n r).trans (ruleHead?_append hr)
    rw [hrule, ← hL, leavesOf] at happ
    exact ⟨m, n, r, hr, (Tree.node.inj hrule).2, List.append_cancel_left happ⟩
  · simp [hitems] at he

/-- **The block of a rule of a file may be exchanged** for another one that ends at the same
place. -/
theorem Reads.exchange_block (h : Reads (Ts ++ node .rule (L ++ node .attrs ds :: Q) :: Us)) :
    ∃ brace us rest, parseBlock brace us = (node .attrs ds, rest) ∧
      ∀ us' ds', parseBlock brace us' = (node .attrs ds', rest) →
        Reads (Ts ++ node .rule (L ++ node .attrs ds' :: Q) :: Us) := by
  obtain ⟨m, n, r, hr, hds, hrest⟩ := h.right.rule_eq
  obtain ⟨y, us₀, hL, hy, hrule⟩ := h.right.exists_name
  rw [← List.singleton_append, ← List.append_assoc] at hds
  obtain ⟨L', rfl, hbody⟩ := split_of_notMem hds (attrs_notMem_modifierItems m n)
  obtain ⟨brace, us, hb, rfl, hblock, hexchange⟩ := parseRuleBody_exchange (Prod.ext hbody hrest)
  refine ⟨brace, us, _, hblock, fun us' ds' hblock' => ?_⟩
  -- the tokens of the rule before its block
  obtain ⟨S, hS⟩ : ∃ S, m ++ n :: leavesOf L' = y :: S := by
    have happ := ruleHead?_append hr
    rw [hL] at happ
    cases m with
    | nil => exact ⟨_, by rw [(List.cons.inj happ).1]; rfl⟩
    | cons u m => exact ⟨_, by rw [(List.cons.inj happ).1]; rfl⟩
  have hL' : us₀ = S ++ brace :: us := by
    have happ := ruleHead?_append hr
    rw [hL, ← List.cons_append, ← List.append_assoc, hS] at happ
    exact (List.cons.inj happ).2.symm
  subst hL'
  have H := Ahead.of_brace hb us us'
  rw [hL] at hr
  have hr' : ruleHead? (y :: (S ++ brace :: us')) = some (m, n :: (leavesOf L' ++ brace :: us')) :=
    (H.ruleHead? (y :: S) (by simp)).2 m (n :: leavesOf L') (by simp) hr
  have hrule' : startsRule (y :: (S ++ brace :: us')) = true := by simp [startsRule, hr']
  have hitems := fileItems_rule (isOperator_of_isIdentifier hy _) hr'
  rw [parseRule, hexchange us' ds' hblock', h.right.tail] at hitems
  obtain ⟨hreads, hK'⟩ := reads_of_fileItems hitems
  have hy' := isTrivia_of_isIdentifier hy
  have hnew : node .rule (modifierItems m ++ leaf n :: (L' ++ node .attrs ds' :: Q)) =
      node .rule ((modifierItems m ++ [leaf n]) ++ L' ++ node .attrs ds' :: Q) := by simp
  rw [hnew] at hreads hK'
  refine h.exchange hreads (y := y) ?_ ?_
  · rw [hL, hK']
    refine .behind hy' (fun spelling _ => isOperator_of_isIdentifier hy spelling)
      (H.startsAttr_cons y S) ?_
    rw [hrule, hrule']
  · rw [hK']
    exact expressionSpan_of_startsRule hy' hrule'

/-- **A comment may be written before an attribute** of a rule's block. -/
theorem Reads.insert_attr_of_rule (hc : c.isComment = true) (hb : b.isTrivia = true)
    (h : Reads (Ts ++ node .rule (L ++
      node .attrs (leaf brace :: (As ++ node .attr ds :: Bs)) :: Q) :: Us)) :
    Reads (Ts ++ node .rule (L ++
      node .attrs (leaf brace :: (As ++ leaf c :: leaf b :: node .attr ds :: Bs)) :: Q) :: Us) := by
  obtain ⟨brace', us, rest, hblock, hexchange⟩ := h.exchange_block
  obtain rfl : brace' = brace := (parseBlock_eq_iff.1 hblock).1
  exact hexchange _ _ (parseBlock_insert hc hb hblock)

/-! ### Names -/

/-- **A rule starts with an identifier.** -/
theorem Reads.isIdentifier_of_rule (h : Reads (Ts ++ node .rule ds :: Us))
    (hl : (node .rule ds).leaves = y :: us) : y.isIdentifier = true := by
  obtain ⟨z, vs, hz, hi, -⟩ := h.right.exists_name
  rw [leavesOf, hl] at hz
  rwa [(List.cons.inj hz).1]

/-- An attribute that was read in a block starts with an identifier. -/
theorem isIdentifier_of_parseBlock
    (h : parseBlock brace ts = (node .attrs (leaf brace :: (As ++ node .attr ds :: Bs)), rest))
    (hl : (node .attr ds).leaves = y :: us) : y.isIdentifier = true := by
  have hright := blockItems_right (parseBlock_eq_iff.1 h).2 (by simp)
  obtain ⟨z, vs, hz, hi⟩ := exists_name_of_blockItems hright
  rw [leavesOf, hl] at hz
  rwa [(List.cons.inj hz).1]

/-- **An attribute starts with an identifier**, outside rules. -/
theorem Reads.isIdentifier_of_attr
    (h : Reads (Ts ++ node .attrs (leaf brace :: (As ++ node .attr ds :: Bs)) :: Us))
    (hl : (node .attr ds).leaves = y :: us) : y.isIdentifier = true :=
  isIdentifier_of_parseBlock (reads_block_iff.1 h.right).2.2 hl

/-- **An attribute starts with an identifier**, in a rule. -/
theorem Reads.isIdentifier_of_attr_of_rule
    (h : Reads (Ts ++ node .rule (L ++
      node .attrs (leaf brace :: (As ++ node .attr ds :: Bs)) :: Q) :: Us))
    (hl : (node .attr ds).leaves = y :: us) : y.isIdentifier = true := by
  obtain ⟨brace', us, rest, hblock, -⟩ := h.exchange_block
  obtain rfl : brace' = brace := (parseBlock_eq_iff.1 hblock).1
  exact isIdentifier_of_parseBlock hblock hl

end Tree

end BnfSuppression
