import BnfSuppression.Proofs.Reading
import BnfSuppression.Proofs.Shape

/-!
# The Grammar of Trees

Reading never fails, but it does not make any tree either: a rule has its parts in one order, an
expression holds no braces, and a block goes on behind its last brace only where the text ends. This
module writes down the form of each composite as an inductive type, without a word about reading,
and shows that every function of the reader makes the form it is there for.

`rest` stands for the tokens after a composite: a block may lack its closing brace only where there
are none.

## Main definitions

* `Tree.IsRule`, `Tree.IsBlock`, `Tree.IsAttr`: the forms of rules, blocks and attributes.
* `Tree.IsFile`: the form of a whole tree.

## Main results

* `Tree.isAttr_parseAttr`, `Tree.isBlock_parseBlock`, `Tree.isRule_parseRule`: what is read for an
  item has the form of one.
* `Tree.isFile_parse`: **the tree of a text has the form of a file**.
-/

namespace BnfSuppression

namespace Tree

/-! ### Forms -/

/-- White space and comments, as many as there may be. -/
def AreTrivia (ts : List Token) : Prop := ∀ t ∈ ts, t.isTrivia = true

/-- Nothing, or white space without a line feed. -/
inductive IsGap : List Token → Prop
  | none : IsGap []
  | space {t : Token} : t.isInlineSpace = true → IsGap [t]

/-- Words that may stand in front of a rule's name, with white space without a line feed after each
but the last. -/
inductive IsModifiers : List Token → Prop
  | last {t : Token} : t.isIdentifier = true → t.text ∈ ruleModifiers → IsModifiers [t]
  | more {t space : Token} {ts : List Token} : t.isIdentifier = true → t.text ∈ ruleModifiers →
    space.isInlineSpace = true → IsModifiers ts → IsModifiers (t :: space :: ts)

/-- The last token, if there is one, is neither white space nor a comment. -/
def EndsSolid (ts : List Token) : Prop := ∀ t ∈ ts.getLast?, t.isTrivia = false

/-- The tokens of an expression: no semicolon and no brace. -/
structure IsExpression (ts : List Token) : Prop where
  free : ∀ t ∈ ts, t.isOperator ";" = false ∧ t.isOperator openBrace = false ∧
    t.isOperator closeBrace = false
  last : EndsSolid ts

/-- The tokens of a value: no closing brace. -/
structure IsValue (ts : List Token) : Prop where
  free : ∀ t ∈ ts, t.isOperator closeBrace = false
  last : EndsSolid ts

/-- The tokens of a pattern: an opening parenthesis first, no closing brace, and a closing
parenthesis at the end only. -/
inductive IsPattern : List Token → Prop
  | intro {opening : Token} {ts : List Token} : opening.isOperator "(" = true →
    (∀ t ∈ ts, t.isOperator closeBrace = false) → (∀ t ∈ ts.dropLast, t.isOperator ")" = false) →
    IsPattern (opening :: ts)

/-- Nothing, or a semicolon with tokens before it of which all are as asked. -/
inductive IsClose (between : Token → Bool) : List Token → Prop
  | none : IsClose between []
  | semicolon {space : List Token} {t : Token} : (∀ u ∈ space, between u = true) →
    t.isOperator ";" = true → IsClose between (space ++ [t])

/-- The children that a pattern gives an attribute. -/
inductive IsPatternPart : List Tree → Prop
  | none : IsPatternPart []
  | pattern {space ts : List Token} : AreTrivia space → IsPattern ts →
    IsPatternPart (space.map leaf ++ [node .attrPattern (ts.map leaf)])

/-- The children that a value gives an attribute. -/
inductive IsValuePart : List Tree → Prop
  | none : IsValuePart []
  | value {space gap ts : List Token} {sign : Token} : AreTrivia space →
    sign.isOperator "=" = true → IsGap gap → IsValue ts →
    IsValuePart ((space ++ sign :: gap).map leaf ++ [node .value (ts.map leaf)])

/-- An attribute: its name, a pattern, a value or both, and perhaps a semicolon on the same line. -/
inductive IsAttr : Tree → Prop
  | intro {name : Token} {pattern value : List Tree} {close : List Token} :
    name.isIdentifier = true → IsPatternPart pattern → IsValuePart value →
    (pattern = [] → value ≠ []) → IsClose Token.isInlineSpace close →
    IsAttr (node .attr (leaf name :: pattern ++ value ++ close.map leaf))

/-- What may stand in a block: an attribute, or any token but a closing brace. -/
inductive IsBlockItem : Tree → Prop
  | token {t : Token} : t.isOperator closeBrace = false → IsBlockItem (leaf t)
  | attr {T : Tree} : IsAttr T → IsBlockItem T

/-- A block: an opening brace, items, and a closing brace unless the text ends. -/
inductive IsBlock (rest : List Token) : Tree → Prop
  | closed {opening closing : Token} {items : List Tree} : opening.isOperator openBrace = true →
    (∀ T ∈ items, IsBlockItem T) → closing.isOperator closeBrace = true →
    IsBlock rest (node .attrs (leaf opening :: items ++ [leaf closing]))
  | unclosed {opening : Token} {items : List Tree} : opening.isOperator openBrace = true →
    (∀ T ∈ items, IsBlockItem T) → rest = [] → IsBlock rest (node .attrs (leaf opening :: items))

/-- The children that its modifiers give a rule. -/
inductive IsModifierPart : List Tree → Prop
  | none : IsModifierPart []
  | modifiers {ts : List Token} {space : Token} : IsModifiers ts → space.isInlineSpace = true →
    IsModifierPart [node .modifiers (ts.map leaf), leaf space]

/-- The children that a block gives a rule. -/
inductive IsBlockPart (rest : List Token) : List Tree → Prop
  | none : IsBlockPart rest []
  | block {space : List Token} {T : Tree} : AreTrivia space → IsBlock rest T →
    IsBlockPart rest (space.map leaf ++ [T])

/-- A rule: modifiers, a name, `::=`, an expression, a block and a semicolon, of which the
modifiers, the block and the semicolon may be missing. -/
inductive IsRule (rest : List Token) : Tree → Prop
  | intro {modifiers block : List Tree} {name sign : Token}
    {space gap expression close : List Token} : IsModifierPart modifiers →
    name.isIdentifier = true → AreTrivia space → sign.isOperator "::=" = true → IsGap gap →
    IsExpression expression → IsBlockPart (close ++ rest) block →
    IsClose Token.isWhitespace close →
    IsRule rest (node .rule (modifiers ++ leaf name :: ((space ++ sign :: gap).map leaf ++
      node .expression (expression.map leaf) :: block ++ close.map leaf)))

/-- What may stand in a file: tokens, blocks and rules. -/
inductive AreFileItems : List Tree → Prop
  | nil : AreFileItems []
  | token {t : Token} {Ts : List Tree} : AreFileItems Ts → AreFileItems (leaf t :: Ts)
  | block {T : Tree} {Ts : List Tree} : IsBlock (leavesOf Ts) T → AreFileItems Ts →
    AreFileItems (T :: Ts)
  | rule {T : Tree} {Ts : List Tree} : IsRule (leavesOf Ts) T → AreFileItems Ts →
    AreFileItems (T :: Ts)

/-- A file. -/
inductive IsFile : Tree → Prop
  | intro {Ts : List Tree} : AreFileItems Ts → IsFile (node .file Ts)

/-! ### Spans -/

variable {t : Token} {ts : List Token}

/-- What leads the first solid token is white space and comments. -/
theorem areTrivia_leadingTrivia (ts : List Token) : AreTrivia (leadingTrivia ts) := fun _ ht =>
  List.mem_takeWhile_imp ht

/-- The white space that is read after a sign is a gap: at most one token, and no line feed. -/
theorem isGap_inlineSpace (ts : List Token) : IsGap (inlineSpace ts).1 := by
  cases ts with
  | nil => exact .none
  | cons t ts =>
      rw [inlineSpace]
      split
      · next h => exact .space h
      · exact .none

/-- What closes an item is nothing, or a semicolon with such tokens before it as may be passed
over. -/
theorem isClose_semicolon (between : Token → Bool) (ts : List Token) :
    IsClose between (semicolon between ts).1 := by
  unfold semicolon
  split
  · exact .none
  · split
    · next h =>
      rw [Bool.and_eq_true, List.all_eq_true] at h
      exact .semicolon h.2 h.1
    · exact .none

/-- White space within a line is trivia. -/
theorem isTrivia_of_isInlineSpace (h : t.isInlineSpace = true) : t.isTrivia = true := by
  rw [Token.isInlineSpace, Bool.and_eq_true] at h
  exact Token.isTrivia_of_isWhitespace h.1

/-- A gap is made of white space. -/
theorem IsGap.areTrivia (h : IsGap ts) : AreTrivia ts := by
  cases h with
  | none => simp [AreTrivia]
  | space ht => simpa [AreTrivia] using isTrivia_of_isInlineSpace ht

/-- What ends an item is white space, or the semicolon itself. -/
theorem IsClose.isTrivia_or {between : Token → Bool} (h : IsClose between ts)
    (hbetween : ∀ u, between u = true → u.isTrivia = true) {u : Token} (hu : u ∈ ts) :
    u.isTrivia = true ∨ u.isOperator ";" = true := by
  cases h with
  | none => simp at hu
  | semicolon hspace ht =>
      rcases List.mem_append.1 hu with hu | hu
      · exact .inl (hbetween u (hspace u hu))
      · exact .inr (List.mem_singleton.1 hu ▸ ht)

/-- The empty list ends solid, since it has no last token. -/
theorem endsSolid_nil : EndsSolid [] := by simp [EndsSolid]

/-- A token in front of others that end solid matters only if it is the last itself. -/
theorem EndsSolid.cons (h : EndsSolid ts) (ht : ts = [] → t.isTrivia = false) :
    EndsSolid (t :: ts) := by
  cases ts with
  | nil => simpa [EndsSolid] using ht rfl
  | cons u ts => simpa [EndsSolid] using h

/-- What is read as an expression has the form of one. -/
theorem isExpression_expressionSpan (ts : List Token) : IsExpression (expressionSpan ts).1 := by
  fun_induction expressionSpan ts with
  | case1 => exact ⟨by simp, endsSolid_nil⟩
  | case2 => exact ⟨by simp, endsSolid_nil⟩
  | case3 t ts ht body rest hne h ih =>
      rw [h] at ih
      have hop := isOperator_of_isTrivia ht
      exact ⟨List.forall_mem_cons.2 ⟨⟨hop _, hop _, hop _⟩, ih.free⟩,
        ih.last.cons fun hnil => absurd hnil hne⟩
  | case4 => exact ⟨by simp, endsSolid_nil⟩
  | case5 t ts ht hstop ih =>
      simp only [Bool.or_eq_true, not_or, Bool.not_eq_true] at ht hstop
      exact ⟨List.forall_mem_cons.2 ⟨⟨hstop.1.1.1, hstop.1.1.2, hstop.1.2⟩, ih.free⟩,
        ih.last.cons fun _ => ht⟩

/-- What is read as a value has the form of one, at any depth of brackets. -/
theorem isValue_valueSpan (first : Bool) (depth : Nat) (ts : List Token) :
    IsValue (valueSpan first depth ts).1 := by
  fun_induction valueSpan first depth ts with
  | case1 => exact ⟨by simp, endsSolid_nil⟩
  | case2 => exact ⟨by simp, endsSolid_nil⟩
  | case3 _ _ t ts ht body rest hne h ih =>
      rw [h] at ih
      exact ⟨List.forall_mem_cons.2 ⟨isOperator_of_isTrivia ht _, ih.free⟩,
        ih.last.cons fun hnil => absurd hnil hne⟩
  | case4 => exact ⟨by simp, endsSolid_nil⟩
  | case5 _ _ t ts ht hstop ih =>
      simp only [Bool.or_eq_true, not_or, Bool.not_eq_true] at ht hstop
      exact ⟨List.forall_mem_cons.2 ⟨hstop.1, ih.free⟩, ih.last.cons fun _ => ht⟩

/-- A pattern goes on behind its first token to the first closing parenthesis, or to before a
closing brace. -/
theorem patternSpan_free (t : Token) (ts : List Token) :
    ∃ us, (patternSpan (t :: ts)).1 = t :: us ∧ (∀ u ∈ us, u.isOperator closeBrace = false) ∧
      ∀ u ∈ (t :: us).dropLast, u.isOperator ")" = false := by
  induction ts generalizing t with
  | nil => exact ⟨[], by rw [patternSpan, patternSpan]; split <;> rfl, by simp, by simp⟩
  | cons v ts ih =>
      rw [patternSpan]
      split
      · exact ⟨[], rfl, by simp, by simp⟩
      · next hgo =>
        simp only [startsWith, Bool.or_eq_true, not_or, Bool.not_eq_true] at hgo
        obtain ⟨us, hus, hbrace, hparen⟩ := ih v
        refine ⟨v :: us, by rw [hus], List.forall_mem_cons.2 ⟨hgo.2, hbrace⟩, ?_⟩
        rw [List.dropLast_cons_of_ne_nil (by simp)]
        exact List.forall_mem_cons.2 ⟨hgo.1, hparen⟩

/-- What is read as a pattern after an opening parenthesis has the form of one. -/
theorem isPattern_patternSpan (h : startsWith "(" ts = true) : IsPattern (patternSpan ts).1 := by
  cases ts with
  | nil => simp [startsWith] at h
  | cons t ts =>
      obtain ⟨us, hus, hbrace, hparen⟩ := patternSpan_free t ts
      rw [hus]
      refine .intro h hbrace fun u hu => ?_
      cases us with
      | nil => simp at hu
      | cons v us => exact hparen u (by simpa using .inr hu)

/-- An operator comes after white space and comments. -/
theorem exists_of_operator {spelling : String} {taken rest : List Token}
    (h : operator spelling ts = some (taken, rest)) :
    ∃ space sign, taken = space ++ [sign] ∧ AreTrivia space ∧ sign.isOperator spelling = true := by
  unfold operator at h
  split at h
  · simp at h
  · next t us _ =>
    split at h
    · next hsign =>
      obtain ⟨rfl, -⟩ := Prod.mk.inj (Option.some.inj h)
      exact ⟨_, _, rfl, areTrivia_leadingTrivia ts, hsign⟩
    · simp at h

/-- An operator is read exactly if it comes first once white space and comments are skipped. -/
theorem operator_isSome_iff (spelling : String) (ts : List Token) :
    (operator spelling ts).isSome = startsWith spelling (skipTrivia ts) := by
  unfold operator
  split
  · next hnil => rw [hnil]; rfl
  · next t us hcons =>
    rw [hcons, startsWith]
    split
    · next h => rw [h]; rfl
    · next h => simp only [Bool.not_eq_true] at h; rw [h]; rfl

/-! ### Items -/

/-- The pattern that is read of an attribute, if there is one, has its form. -/
theorem isPatternPart_parsePattern (ts : List Token) : IsPatternPart (parsePattern ts).1 := by
  unfold parsePattern
  split
  · next h => exact .pattern (areTrivia_leadingTrivia ts) (isPattern_patternSpan h)
  · exact .none

/-- The value that is read of an attribute, if there is one, has its form. -/
theorem isValuePart_parseValue (ts : List Token) : IsValuePart (parseValue ts).1 := by
  unfold parseValue
  split
  · exact .none
  · next sign rest h =>
    obtain ⟨space, equals, rfl, hspace, hequals⟩ := exists_of_operator h
    have := IsValuePart.value hspace hequals (isGap_inlineSpace rest)
      (isValue_valueSpan true 0 (inlineSpace rest).2)
    simpa using this

/-- An attribute that starts has a pattern or a value. -/
theorem parseValue_ne_nil (h : startsAttr (t :: ts) = true) (hp : (parsePattern ts).1 = []) :
    (parseValue (parsePattern ts).2).1 ≠ [] := by
  unfold parsePattern at hp ⊢
  split at hp
  · simp at hp
  · next hparen =>
    simp only [startsAttr, Bool.and_eq_true, Bool.or_eq_true] at h
    have hsign : startsWith "=" (skipTrivia ts) = true := h.2.resolve_right hparen
    rw [← operator_isSome_iff] at hsign
    obtain ⟨taken, htaken⟩ := Option.isSome_iff_exists.1 hsign
    simp [hparen, parseValue, htaken]

/-- **What is read for an attribute has the form of one.** -/
theorem isAttr_parseAttr (h : startsAttr (t :: ts) = true) : IsAttr (parseAttr t ts).1 :=
  .intro (isIdentifier_of_startsAttr h) (isPatternPart_parsePattern ts) (isValuePart_parseValue _)
    (parseValue_ne_nil h) (isClose_semicolon _ _)

/-- A block holds items, and a closing brace unless nothing is left over. -/
theorem blockItems_form (ts : List Token) :
    ∃ items close, (blockItems ts).1 = items ++ close ∧ (∀ T ∈ items, IsBlockItem T) ∧
      ((∃ closing, close = [leaf closing] ∧ closing.isOperator closeBrace = true) ∨
        close = [] ∧ (blockItems ts).2 = []) := by
  fun_induction blockItems ts with
  | case1 => exact ⟨[], [], rfl, by simp, .inr ⟨rfl, rfl⟩⟩
  | case2 t ts h => exact ⟨[], [leaf t], rfl, by simp, .inl ⟨t, rfl, h⟩⟩
  | case3 t ts _ h ih =>
      obtain ⟨items, close, hitems, hforms, hclose⟩ := ih
      exact ⟨_ :: items, close, by rw [hitems]; rfl,
        List.forall_mem_cons.2 ⟨.attr (isAttr_parseAttr h), hforms⟩, hclose⟩
  | case4 t ts hbrace _ ih =>
      obtain ⟨items, close, hitems, hforms, hclose⟩ := ih
      exact ⟨_ :: items, close, by rw [hitems]; rfl,
        List.forall_mem_cons.2 ⟨.token (by simpa using hbrace), hforms⟩, hclose⟩

/-- **What is read for a block has the form of one.** -/
theorem isBlock_parseBlock (h : t.isOperator openBrace = true) (ts : List Token) :
    IsBlock (parseBlock t ts).2 (parseBlock t ts).1 := by
  obtain ⟨items, close, hitems, hforms, ⟨closing, rfl, hclosing⟩ | ⟨rfl, hrest⟩⟩ :=
    blockItems_form ts
  · rw [parseBlock, hitems]
    exact .closed h hforms hclosing
  · rw [parseBlock, hitems, List.append_nil]
    exact .unclosed h hforms hrest

/-- The block that is read of a rule, if there is one, has its form. -/
theorem isBlockPart_parseRuleBlock (ts : List Token) :
    IsBlockPart (parseRuleBlock ts).2 (parseRuleBlock ts).1 := by
  unfold parseRuleBlock
  split
  · exact .none
  · split
    · next h => exact .block (areTrivia_leadingTrivia ts) (isBlock_parseBlock h _)
    · exact .none

/-- What stands before a rule's name: its modifiers, each with white space after it. -/
theorem isModifierPart_of_ruleHead? {modifiers named : List Token}
    (h : ruleHead? ts = some (modifiers, named)) : IsModifierPart (modifierItems modifiers) := by
  have hform : modifiers = [] ∨ ∃ ms space, modifiers = ms ++ [space] ∧ IsModifiers ms ∧
      space.isInlineSpace = true := by
    fun_induction ruleHead? ts generalizing modifiers named with
    | case1 => simp at h
    | case2 => simp at h
    | case3 => simp at h
    | case4 => exact .inl (by simpa using (Prod.mk.inj (Option.some.inj h)).1.symm)
    | case5 name next ts hid _ hmod ih =>
        simp only [Bool.not_eq_true', Bool.not_eq_false, Bool.and_eq_true,
          List.contains_eq_mem, decide_eq_true_eq] at hid hmod
        obtain ⟨⟨ms, ns⟩, hh, he⟩ := Option.map_eq_some_iff.1 h
        obtain ⟨rfl, -⟩ := Prod.mk.inj he
        rcases ih hh with rfl | ⟨ms, space, rfl, hms, hspace⟩
        · exact .inr ⟨[name], next, rfl, .last hid hmod.2, hmod.1⟩
        · exact .inr ⟨name :: next :: ms, space, rfl, .more hid hmod.2 hmod.1 hms, hspace⟩
    | case6 => simp at h
  rcases hform with rfl | ⟨ms, space, rfl, hms, hspace⟩
  · exact .none
  · simpa [modifierItems] using IsModifierPart.modifiers hms hspace

/-- A rule's name is an identifier that `::=` follows. -/
theorem of_ruleHead? {modifiers rest : List Token} {name : Token}
    (h : ruleHead? ts = some (modifiers, name :: rest)) :
    name.isIdentifier = true ∧ startsWith "::=" (skipTrivia rest) = true := by
  fun_induction ruleHead? ts generalizing modifiers name rest with
  | case1 => simp at h
  | case2 => simp at h
  | case3 => simp at h
  | case4 t next ts hid hsign =>
      obtain ⟨rfl, rfl⟩ : t = name ∧ next :: ts = rest := by
        simpa using (Prod.mk.inj (Option.some.inj h)).2
      exact ⟨by simpa using hid, hsign⟩
  | case5 t next ts _ _ _ ih =>
      obtain ⟨⟨ms, ns⟩, hh, he⟩ := Option.map_eq_some_iff.1 h
      obtain ⟨-, rfl⟩ := Prod.mk.inj he
      exact ih hh
  | case6 => simp at h

/-- **What is read for a rule has the form of one.** -/
theorem isRule_parseRule {modifiers rest : List Token} {name : Token}
    (h : ruleHead? ts = some (modifiers, name :: rest)) :
    IsRule (parseRule modifiers name rest).2 (parseRule modifiers name rest).1 := by
  obtain ⟨hname, hsign⟩ := of_ruleHead? h
  rw [← operator_isSome_iff] at hsign
  obtain ⟨⟨taken, after⟩, hop⟩ := Option.isSome_iff_exists.1 hsign
  obtain ⟨space, sign, rfl, hspace, hsign⟩ := exists_of_operator hop
  have hclose := semicolon_append Token.isWhitespace
    (parseRuleBlock (expressionSpan (inlineSpace after).2).2).2
  have hblock := isBlockPart_parseRuleBlock (expressionSpan (inlineSpace after).2).2
  rw [← hclose] at hblock
  have hrule := IsRule.intro (isModifierPart_of_ruleHead? h) hname hspace hsign
    (isGap_inlineSpace after) (isExpression_expressionSpan (inlineSpace after).2) hblock
    (isClose_semicolon _ _)
  simpa [parseRule, parseRuleBody, hop] using hrule

/-- What is read of any tokens as the items of a file has their form. -/
theorem areFileItems_fileItems (ts : List Token) : AreFileItems (fileItems ts) := by
  fun_induction fileItems ts with
  | case1 => exact .nil
  | case2 t ts h ih => exact .block (leavesOf_fileItems _ ▸ isBlock_parseBlock h ts) ih
  | case3 t ts _ modifiers name rest h ih =>
      exact .rule (leavesOf_fileItems _ ▸ isRule_parseRule h) ih
  | case4 t ts _ _ ih => exact .token ih

/-- **The tree of a text has the form of a file.** -/
theorem isFile_parse (text : String) : (parse text).IsFile := .intro (areFileItems_fileItems _)

end Tree

end BnfSuppression
