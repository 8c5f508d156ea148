import BnfSuppression.Proofs.Reading

/-!
# What White Space and Comments Say Does Not Matter to Reading

Reading looks at the type of a comment, never at its text, and at white space only for whether it
breaks the line. Muting leaves out the rest: comments lose their texts, and white space all but a
line feed. Muting a sequence of tokens mutes the tree that is read. Two sequences that differ in
what is muted alone are therefore read as trees that differ in that alone.

## Main results

* `Tree.fileItems_mute`: reading commutes with muting.
* `Tree.Reads.of_mute`: **the text of a comment may be exchanged**, and so may white space.
-/

namespace BnfSuppression

namespace Token

/-- The token, without its text if it is a comment, and with no more than a line feed if it is white
space. -/
def mute (t : Token) : Token :=
  if t.isComment then ⟨t.type, ""⟩
  else if t.isWhitespace then ⟨t.type, if t.text.toList.contains '\n' then "\n" else ""⟩
  else t

variable (t : Token)

/-- Muting keeps the type of a token. -/
@[simp]
theorem type_mute : t.mute.type = t.type := by
  rw [mute]
  split
  · rfl
  · split <;> rfl

/-- Muting changes no solid token. -/
theorem mute_of_solid {t : Token} (h : t.isTrivia = false) : t.mute = t := by
  rw [isTrivia, TokenType.isTrivia_eq, Bool.or_eq_false_iff] at h
  rw [mute, isComment, if_neg (by simp [h.2]), isWhitespace, if_neg (by simp [h.1])]

/-- Muting makes no solid token trivia, nor the other way round. -/
@[simp]
theorem isTrivia_mute : t.mute.isTrivia = t.isTrivia := by
  rw [isTrivia, type_mute, isTrivia]

/-- Muting keeps identifiers identifiers, and makes no new ones. -/
@[simp]
theorem isIdentifier_mute : t.mute.isIdentifier = t.isIdentifier := by
  rw [isIdentifier, type_mute, isIdentifier]

/-- Muting keeps white space white space, and makes none of other tokens. -/
@[simp]
theorem isWhitespace_mute : t.mute.isWhitespace = t.isWhitespace := by
  rw [isWhitespace, type_mute, isWhitespace]

/-- Muting changes no identifier. -/
theorem mute_of_identifier {t : Token} (h : t.isIdentifier = true) : t.mute = t := by
  refine mute_of_solid ?_
  rw [isIdentifier, beq_iff_eq] at h
  simp [isTrivia, TokenType.isTrivia, h]

/-- What is no operator, a comment for one, has no spelling. -/
@[simp]
theorem isOperator_mute (spelling : String) :
    t.mute.isOperator spelling = t.isOperator spelling := by
  cases ht : t.isTrivia with
  | false => rw [mute_of_solid ht]
  | true => rw [Tree.isOperator_of_isTrivia ht, Tree.isOperator_of_isTrivia (by simpa using ht)]

/-- Muted white space is a line feed if it had one, and empty otherwise. -/
theorem mute_of_isWhitespace {t : Token} (h : t.isWhitespace = true) :
    t.mute = ⟨t.type, if t.text.toList.contains '\n' then "\n" else ""⟩ := by
  have hc : t.isComment ≠ true := by
    rw [isWhitespace, beq_iff_eq] at h
    rw [isComment, h]
    exact Bool.false_ne_true
  rw [mute, if_neg hc, if_pos h]

/-- White space keeps its line feed. -/
theorem contains_mute {t : Token} (h : t.isWhitespace = true) :
    t.mute.text.toList.contains '\n' = t.text.toList.contains '\n' := by
  rw [mute_of_isWhitespace h]
  cases t.text.toList.contains '\n' <;> simp

/-- Whether white space stays on its line shows after muting, which keeps a line feed. -/
@[simp]
theorem isInlineSpace_mute : t.mute.isInlineSpace = t.isInlineSpace := by
  rw [isInlineSpace, isInlineSpace, isWhitespace_mute]
  cases h : t.isWhitespace with
  | false => rfl
  | true => rw [contains_mute h]

end Token

namespace Tree

open Token (mute)

mutual

/-- The tree with its white space and comments muted. -/
def mute : Tree → Tree
  | leaf t => leaf t.mute
  | node type children => node type (muteAll children)

/-- The trees with their white space and comments muted. -/
def muteAll : List Tree → List Tree
  | [] => []
  | t :: ts => mute t :: muteAll ts

end

variable {t : Token} {ts : List Token}

/-- Muting two lists of trees together mutes each of them. -/
@[simp]
theorem muteAll_append (Ts Us : List Tree) : muteAll (Ts ++ Us) = muteAll Ts ++ muteAll Us := by
  induction Ts with
  | nil => rfl
  | cons T Ts ih => rw [List.cons_append, muteAll, muteAll, ih, List.cons_append]

/-- Muting leaves mutes their tokens. -/
@[simp]
theorem muteAll_map_leaf (ts : List Token) :
    muteAll (ts.map leaf) = (ts.map Token.mute).map leaf := by
  induction ts with
  | nil => rfl
  | cons t ts ih => rw [List.map_cons, muteAll, ih, mute, List.map_cons, List.map_cons]

mutual

/-- The leaves of a muted tree are its leaves, muted. -/
theorem leaves_mute : (T : Tree) → T.mute.leaves = T.leaves.map Token.mute
  | leaf _ => rfl
  | node _ Ts => by rw [mute, leaves, leaves, leavesOf_muteAll Ts]

/-- The leaves of muted trees are their leaves, muted. -/
theorem leavesOf_muteAll : (Ts : List Tree) → leavesOf (muteAll Ts) = (leavesOf Ts).map Token.mute
  | [] => rfl
  | T :: Ts => by
    rw [muteAll, leavesOf, leavesOf, leaves_mute T, leavesOf_muteAll Ts, List.map_append]

end

/-! ### Looking ahead -/

/-- The same tokens are skipped after muting. -/
@[simp]
theorem skipTrivia_mute (ts : List Token) :
    skipTrivia (ts.map Token.mute) = (skipTrivia ts).map Token.mute := by
  rw [skipTrivia, List.dropWhile_map, skipTrivia]
  congr 2
  funext t
  exact t.isTrivia_mute

/-- The same tokens lead the first solid one after muting. -/
@[simp]
theorem leadingTrivia_mute (ts : List Token) :
    leadingTrivia (ts.map Token.mute) = (leadingTrivia ts).map Token.mute := by
  rw [leadingTrivia, List.takeWhile_map, leadingTrivia]
  congr 2
  funext t
  exact t.isTrivia_mute

/-- Muted tokens start with the same operator. -/
@[simp]
theorem startsWith_mute (spelling : String) (ts : List Token) :
    startsWith spelling (ts.map Token.mute) = startsWith spelling ts := by
  cases ts with
  | nil => rfl
  | cons t ts => exact t.isOperator_mute spelling

/-- The head of a rule is found in muted tokens where it was found before. -/
@[simp]
theorem ruleHead?_mute (ts : List Token) : ruleHead? (ts.map Token.mute) =
    (ruleHead? ts).map fun head => (head.1.map Token.mute, head.2.map Token.mute) := by
  induction ts using ruleHead?.induct with
  | case1 => rfl
  | case2 => rfl
  | case3 name next ts h =>
      simp only [List.map_cons, ruleHead?, Token.isIdentifier_mute, h, if_true, Option.map_none]
  | case4 name next ts h hs =>
      have hs' := startsWith_mute "::=" (skipTrivia (next :: ts))
      rw [← skipTrivia_mute, List.map_cons] at hs'
      simp only [List.map_cons, ruleHead?, Token.isIdentifier_mute, h, hs', hs]
      rfl
  | case5 name next ts h hs hm ih =>
      have hs' := startsWith_mute "::=" (skipTrivia (next :: ts))
      rw [← skipTrivia_mute, List.map_cons] at hs'
      have hname := Token.mute_of_identifier (by simpa using h : name.isIdentifier = true)
      simp only [List.map_cons, ruleHead?, h, hs', hs, Token.isInlineSpace_mute, hname, hm, ih,
        if_true, Bool.false_eq_true, if_false, Option.map_map]
      simp only [Function.comp_def, List.map_cons, hname]
  | case6 name next ts h hs hm =>
      have hs' := startsWith_mute "::=" (skipTrivia (next :: ts))
      rw [← skipTrivia_mute, List.map_cons] at hs'
      have hname := Token.mute_of_identifier (by simpa using h : name.isIdentifier = true)
      simp only [List.map_cons, ruleHead?, h, hs', hs, Token.isInlineSpace_mute, hname, hm]
      rfl

/-- Rules start in muted tokens where they started before. -/
@[simp]
theorem startsRule_mute (ts : List Token) : startsRule (ts.map Token.mute) = startsRule ts := by
  rw [startsRule, ruleHead?_mute, Option.isSome_map, startsRule]

/-- Attributes start in muted tokens where they started before. -/
@[simp]
theorem startsAttr_mute (ts : List Token) : startsAttr (ts.map Token.mute) = startsAttr ts := by
  cases ts with
  | nil => rfl
  | cons t ts =>
      rw [List.map_cons, startsAttr, skipTrivia_mute, startsWith_mute, startsWith_mute,
        Token.isIdentifier_mute, startsAttr]

/-! ### Spans -/

/-- Both parts of some tokens, muted. -/
def mutePair (p : List Token × List Token) : List Token × List Token :=
  (p.1.map Token.mute, p.2.map Token.mute)

/-- White space after a sign ends in muted tokens where it ended before. -/
@[simp]
theorem inlineSpace_mute (ts : List Token) :
    inlineSpace (ts.map Token.mute) = mutePair (inlineSpace ts) := by
  cases ts with
  | nil => rfl
  | cons t ts =>
      rw [List.map_cons, inlineSpace, inlineSpace, Token.isInlineSpace_mute]
      split <;> rfl

/-- An expression ends in muted tokens where it ended before. -/
@[simp]
theorem expressionSpan_mute (ts : List Token) :
    expressionSpan (ts.map Token.mute) = mutePair (expressionSpan ts) := by
  induction ts with
  | nil => rfl
  | cons t ts ih =>
      cases ht : t.isTrivia with
      | true =>
          rw [List.map_cons, expressionSpan_of_isTrivia (by simpa using ht),
            expressionSpan_of_isTrivia ht, ih]
          by_cases hnil : (expressionSpan ts).1 = []
          · simp [hnil, mutePair]
          · simp [hnil, mutePair]
      | false =>
          have hrule := startsRule_mute (t :: ts)
          rw [List.map_cons] at hrule ⊢
          rw [expressionSpan, expressionSpan]
          simp only [Token.isTrivia_mute, ht, Token.isOperator_mute, hrule, Bool.false_eq_true,
            if_false, ih]
          split <;> rfl

/-- Muted tokens open and close the same brackets. -/
theorem depthAfter_mute (depth : Nat) (t : Token) :
    depthAfter depth t.mute = depthAfter depth t := by
  rw [depthAfter, Token.isOperator_mute, Token.isOperator_mute, depthAfter]

/-- A value ends in muted tokens where it ended before. -/
@[simp]
theorem valueSpan_mute (first : Bool) (depth : Nat) (ts : List Token) :
    valueSpan first depth (ts.map Token.mute) = mutePair (valueSpan first depth ts) := by
  induction ts generalizing first depth with
  | nil => rfl
  | cons t ts ih =>
      cases ht : t.isTrivia with
      | true =>
          rw [List.map_cons, valueSpan_of_isTrivia (by simpa using ht),
            valueSpan_of_isTrivia ht, ih]
          by_cases hnil : (valueSpan false depth ts).1 = []
          · simp [hnil, mutePair]
          · simp [hnil, mutePair]
      | false =>
          have hattr := startsAttr_mute (t :: ts)
          rw [List.map_cons] at hattr ⊢
          rw [valueSpan, valueSpan]
          simp only [Token.isTrivia_mute, ht, Token.isOperator_mute, hattr, Bool.false_eq_true,
            if_false, ih, depthAfter_mute]
          split <;> rfl

/-- A pattern ends in muted tokens where it ended before. -/
@[simp]
theorem patternSpan_mute (ts : List Token) :
    patternSpan (ts.map Token.mute) = mutePair (patternSpan ts) := by
  induction ts with
  | nil => rfl
  | cons t ts ih =>
      rw [List.map_cons, patternSpan, patternSpan, startsWith_mute, Token.isOperator_mute, ih]
      split <;> rfl

/-- The semicolon that closes an item is found in muted tokens where it was found before. -/
@[simp]
theorem semicolon_mute (between : Token → Bool) (hb : ∀ t, between t.mute = between t)
    (ts : List Token) :
    semicolon between (ts.map Token.mute) = mutePair (semicolon between ts) := by
  have hall : ((leadingTrivia ts).map Token.mute).all between = (leadingTrivia ts).all between := by
    rw [List.all_map]
    congr 1
    funext t
    exact hb t
  cases hs : skipTrivia ts with
  | nil =>
      rw [semicolon, semicolon, skipTrivia_mute, hs]
      rfl
  | cons t us =>
      have hs' : skipTrivia (ts.map Token.mute) = t.mute :: us.map Token.mute := by
        rw [skipTrivia_mute, hs, List.map_cons]
      rw [semicolon_eq hs', semicolon_eq hs, leadingTrivia_mute, hall,
        Token.isOperator_mute]
      split
      · simp [mutePair]
      · rfl

/-- An operator is found in muted tokens where it was found before. -/
@[simp]
theorem operator_mute (spelling : String) (ts : List Token) :
    operator spelling (ts.map Token.mute) = (operator spelling ts).map mutePair := by
  cases hs : skipTrivia ts with
  | nil =>
      rw [operator, operator, skipTrivia_mute, hs]
      rfl
  | cons t us =>
      have hs' : skipTrivia (ts.map Token.mute) = t.mute :: us.map Token.mute := by
        rw [skipTrivia_mute, hs, List.map_cons]
      rw [operator_eq hs', operator_eq hs, leadingTrivia_mute,
        Token.isOperator_mute]
      split
      · simp [mutePair]
      · rfl

/-! ### Items -/

/-- Trees and the tokens after them, muted. -/
def muteItems (p : List Tree × List Token) : List Tree × List Token :=
  (muteAll p.1, p.2.map Token.mute)

/-- A tree and the tokens after it, muted. -/
def muteItem (p : Tree × List Token) : Tree × List Token := (p.1.mute, p.2.map Token.mute)

/-- Reading the pattern of an attribute from muted tokens gives it muted. -/
@[simp]
theorem parsePattern_mute (ts : List Token) :
    parsePattern (ts.map Token.mute) = muteItems (parsePattern ts) := by
  rw [parsePattern, parsePattern, skipTrivia_mute, startsWith_mute, patternSpan_mute,
    leadingTrivia_mute]
  split
  · simp [muteItems, mutePair, muteAll, mute]
  · rfl

/-- Reading the value of an attribute from muted tokens gives it muted. -/
@[simp]
theorem parseValue_mute (ts : List Token) :
    parseValue (ts.map Token.mute) = muteItems (parseValue ts) := by
  rw [parseValue, parseValue, operator_mute]
  cases operator "=" ts with
  | none => rfl
  | some taken => simp [muteItems, mutePair, muteAll, mute]

/-- Reading an attribute from muted tokens gives it muted. -/
@[simp]
theorem parseAttr_mute (name : Token) (ts : List Token) :
    parseAttr name.mute (ts.map Token.mute) = muteItem (parseAttr name ts) := by
  simp [parseAttr, muteItem, muteItems, mutePair, muteAll, mute]

/-- Reading the items of a block from muted tokens gives them muted. -/
@[simp]
theorem blockItems_mute (ts : List Token) :
    blockItems (ts.map Token.mute) = muteItems (blockItems ts) := by
  fun_induction blockItems ts with
  | case1 => simp [blockItems, muteItems, muteAll]
  | case2 t ts h =>
      rw [List.map_cons, blockItems.eq_2, Token.isOperator_mute, if_pos h]
      rfl
  | case3 t ts h ha ih =>
      have ha' := startsAttr_mute (t :: ts)
      rw [List.map_cons] at ha' ⊢
      rw [blockItems.eq_2, Token.isOperator_mute, if_neg h, ha', if_pos ha, parseAttr_mute]
      simp only [muteItem, ih]
      rfl
  | case4 t ts h ha ih =>
      have ha' := startsAttr_mute (t :: ts)
      rw [List.map_cons] at ha' ⊢
      rw [blockItems.eq_2, Token.isOperator_mute, if_neg h, ha', if_neg ha, ih]
      rfl

/-- Reading a block from muted tokens gives it muted. -/
@[simp]
theorem parseBlock_mute (brace : Token) (ts : List Token) :
    parseBlock brace.mute (ts.map Token.mute) = muteItem (parseBlock brace ts) := by
  simp [parseBlock, muteItem, muteItems, muteAll, mute]

/-- Reading the block of a rule from muted tokens gives it muted. -/
@[simp]
theorem parseRuleBlock_mute (ts : List Token) :
    parseRuleBlock (ts.map Token.mute) = muteItems (parseRuleBlock ts) := by
  cases hs : skipTrivia ts with
  | nil =>
      rw [parseRuleBlock, parseRuleBlock, skipTrivia_mute, hs]
      rfl
  | cons t us =>
      have hs' : skipTrivia (ts.map Token.mute) = t.mute :: us.map Token.mute := by
        rw [skipTrivia_mute, hs, List.map_cons]
      rw [parseRuleBlock_eq hs', parseRuleBlock_eq hs, leadingTrivia_mute,
        Token.isOperator_mute, parseBlock_mute]
      split
      · simp [muteItem, muteItems, muteAll]
      · rfl

/-- Reading the modifiers of a rule from muted tokens gives them muted. -/
@[simp]
theorem modifierItems_mute (modifiers : List Token) :
    modifierItems (modifiers.map Token.mute) = muteAll (modifierItems modifiers) := by
  rw [modifierItems, modifierItems, List.getLast?_map]
  cases modifiers.getLast? with
  | none => rfl
  | some space => simp only [Option.map_some, ← List.map_dropLast, muteAll, mute, muteAll_map_leaf]

/-- Reading what follows the name of a rule from muted tokens gives it muted. -/
@[simp]
theorem parseRuleBody_mute (ts : List Token) :
    parseRuleBody (ts.map Token.mute) = muteItems (parseRuleBody ts) := by
  have hsign : ((operator "::=" ts).map mutePair).getD ([], ts.map Token.mute) =
      mutePair ((operator "::=" ts).getD ([], ts)) := by
    cases operator "::=" ts with
    | none => rfl
    | some taken => rfl
  simp [parseRuleBody, hsign, muteItems, mutePair, muteAll, mute]

/-- Reading a rule from muted tokens gives it muted. -/
@[simp]
theorem parseRule_mute (modifiers : List Token) (name : Token) (ts : List Token) :
    parseRule (modifiers.map Token.mute) name.mute (ts.map Token.mute) =
      muteItem (parseRule modifiers name ts) := by
  simp [parseRule, muteItem, muteItems, muteAll, mute]

/-- **Reading commutes with muting.** -/
theorem fileItems_mute (ts : List Token) :
    fileItems (ts.map Token.mute) = muteAll (fileItems ts) := by
  fun_induction fileItems ts with
  | case1 => simp [fileItems, muteAll]
  | case2 t ts h ih =>
      rw [List.map_cons, fileItems_block (by simpa using h), parseBlock_mute, muteItem, ih]
      rfl
  | case3 t ts h m n r hr ih =>
      have hr' := ruleHead?_mute (t :: ts)
      rw [hr, Option.map_some, List.map_cons, List.map_cons] at hr'
      rw [List.map_cons, fileItems_rule (by simpa using h) hr', parseRule_mute, muteItem, ih]
      rfl
  | case4 t ts h hr ih =>
      have hnone : ruleHead? (t :: ts) = none := by
        cases hh : ruleHead? (t :: ts) with
        | none => rfl
        | some head =>
            obtain ⟨m, named⟩ := head
            obtain ⟨n, r, rfl⟩ := exists_name_of_ruleHead? hh
            exact absurd hh (hr m n r)
      have hr' := ruleHead?_mute (t :: ts)
      rw [hnone, Option.map_none, List.map_cons] at hr'
      rw [List.map_cons, fileItems_leaf (by simpa using h) hr', ih]
      rfl

/-! ### Exchanging white space and comments -/

mutual

/-- A tree is what muting leaves of it, with the tokens it is made of. -/
theorem eq_of_mute : (T U : Tree) → T.mute = U.mute → T.leaves = U.leaves → T = U
  | leaf t, leaf u, _, hl => by rw [List.singleton_inj.1 hl]
  | leaf _, node _ _, h, _ => by simp [mute] at h
  | node _ _, leaf _, h, _ => by simp [mute] at h
  | node type Ts, node type' Us, h, hl => by
    obtain ⟨rfl, hall⟩ := Tree.node.inj h
    rw [eq_of_muteAll Ts Us hall hl]

/-- Lists of trees with the same shape once they are muted, and with the same leaves, are the
same. -/
theorem eq_of_muteAll : (Ts Us : List Tree) → muteAll Ts = muteAll Us →
    leavesOf Ts = leavesOf Us → Ts = Us
  | [], [], _, _ => rfl
  | [], _ :: _, h, _ => by simp [muteAll] at h
  | _ :: _, [], h, _ => by simp [muteAll] at h
  | T :: Ts, U :: Us, h, hl => by
    obtain ⟨hT, hTs⟩ := List.cons.inj h
    have hlen : T.leaves.length = U.leaves.length := by
      have := congrArg (fun V => V.leaves.length) hT
      simpa [leaves_mute] using this
    obtain ⟨hlT, hlTs⟩ := List.append_inj hl hlen
    rw [eq_of_mute T U hT hlT, eq_of_muteAll Ts Us hTs hlTs]

end

/-- **The texts of comments may be exchanged**, and so may white space. -/
theorem Reads.of_mute {Ts Us : List Tree} (h : Reads Ts) (hm : muteAll Us = muteAll Ts) :
    Reads Us := by
  refine eq_of_muteAll _ _ ?_ (leavesOf_fileItems _)
  rw [← fileItems_mute, ← leavesOf_muteAll, hm, leavesOf_muteAll, fileItems_mute, h]

end Tree

end BnfSuppression
