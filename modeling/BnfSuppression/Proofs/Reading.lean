import BnfSuppression.Tree.Parser
import Mathlib.Data.List.TakeWhile

/-!
# What Reading Makes of the Tokens in Front

One equation for each function of the reader, by the first tokens that it meets; white space and
comments in front are looked through. A list of trees `Reads` if a file with their leaves holds just
these trees.

## Main results

* `Tree.fileItems_cases`: what a file holds is a block, a rule or a token, and what follows.
* `Tree.expressionSpan_eq_nil_iff`: where an expression ends.
* `Tree.Reads.tail`: what follows an item is read in the same way without it.
-/

namespace BnfSuppression

namespace Tree

variable {t : Token} {ts : List Token}

/-! ### One item at a time -/

/-- What is reached by skipping white space and comments is neither. -/
theorem isTrivia_of_skipTrivia {us : List Token} (h : skipTrivia ts = t :: us) :
    t.isTrivia = false := by
  have hhead := List.head?_dropWhile_not Token.isTrivia ts
  rw [← skipTrivia, h] at hhead
  simpa using hhead

/-- White space and comments at the start are skipped. -/
theorem skipTrivia_of_isTrivia (h : t.isTrivia = true) (ts : List Token) :
    skipTrivia (t :: ts) = skipTrivia ts :=
  List.dropWhile_cons_of_pos h

/-- Nothing is skipped in front of a solid token. -/
theorem skipTrivia_of_solid (h : t.isTrivia = false) (ts : List Token) :
    skipTrivia (t :: ts) = t :: ts :=
  List.dropWhile_cons_of_neg (by simp [h])

/-- Skipping white space and comments stops at the first solid token. -/
theorem skipTrivia_append_solid (hts : ∀ u ∈ ts, u.isTrivia = true) (h : t.isTrivia = false)
    (us : List Token) : skipTrivia (ts ++ t :: us) = t :: us := by
  rw [skipTrivia, List.dropWhile_append_of_pos hts, ← skipTrivia, skipTrivia_of_solid h]

/-- The white space and comments that lead are those before the first solid token. -/
theorem leadingTrivia_append_solid (hts : ∀ u ∈ ts, u.isTrivia = true) (h : t.isTrivia = false)
    (us : List Token) : leadingTrivia (ts ++ t :: us) = ts := by
  have happ := leadingTrivia_append (ts ++ t :: us)
  rw [skipTrivia_append_solid hts h] at happ
  exact List.append_cancel_right happ

/-- White space and comments are no operators. -/
theorem isOperator_of_isTrivia (h : t.isTrivia = true) (spelling : String) :
    t.isOperator spelling = false := by
  rw [Token.isOperator, Bool.and_eq_false_iff]
  left
  obtain ⟨type, text⟩ := t
  cases type <;> simp_all [Token.isTrivia, TokenType.isTrivia]

/-- White space and comments are no identifiers. -/
theorem isIdentifier_of_isTrivia (h : t.isTrivia = true) : t.isIdentifier = false := by
  obtain ⟨type, text⟩ := t
  cases type <;> simp_all [Token.isTrivia, TokenType.isTrivia, Token.isIdentifier]

/-- Identifiers are no operators. -/
theorem isOperator_of_isIdentifier (h : t.isIdentifier = true) (spelling : String) :
    t.isOperator spelling = false := by
  rw [Token.isIdentifier, beq_iff_eq] at h
  simp [Token.isOperator, h]

/-- An operator has one spelling. -/
theorem isOperator_of_ne {s spelling : String} (h : t.isOperator s = true) (hs : spelling ≠ s) :
    t.isOperator spelling = false := by
  rw [Token.isOperator, Bool.and_eq_true, beq_iff_eq, beq_iff_eq] at h
  simp [Token.isOperator, h.2, Ne.symm hs]

/-- Operators are no identifiers. -/
theorem isIdentifier_of_isOperator {s : String} (h : t.isOperator s = true) :
    t.isIdentifier = false := by
  rw [Token.isOperator, Bool.and_eq_true, beq_iff_eq] at h
  simp [Token.isIdentifier, h.1]

/-- A rule starts at an identifier. -/
theorem ruleHead?_of_not_identifier (h : t.isIdentifier = false) (ts : List Token) :
    ruleHead? (t :: ts) = none := by
  cases ts with
  | nil => rfl
  | cons u ts => simp [ruleHead?, h]

/-- What a rule's start leaves over begins with the rule's name. -/
theorem exists_name_of_ruleHead? {modifiers named : List Token}
    (h : ruleHead? ts = some (modifiers, named)) : ∃ name rest, named = name :: rest := by
  fun_induction ruleHead? ts generalizing modifiers named with
  | case1 => simp at h
  | case2 => simp at h
  | case3 => simp at h
  | case4 name next ts _ _ =>
      obtain ⟨-, rfl⟩ : [] = modifiers ∧ name :: next :: ts = named := by simpa using h
      exact ⟨_, _, rfl⟩
  | case5 name next ts _ _ _ ih =>
      obtain ⟨⟨ms, ns⟩, hh, he⟩ := Option.map_eq_some_iff.1 h
      obtain ⟨-, rfl⟩ := Prod.mk.inj he
      exact ih hh
  | case6 => simp at h

/-- At an opening brace a file goes on with a block. -/
theorem fileItems_block (h : t.isOperator openBrace = true) (ts : List Token) :
    fileItems (t :: ts) = (parseBlock t ts).1 :: fileItems (parseBlock t ts).2 := by
  rw [fileItems.eq_2, if_pos h]

/-- Where a rule's head stands, and no brace, a file goes on with the rule. -/
theorem fileItems_rule (h : t.isOperator openBrace = false) {modifiers rest : List Token}
    {name : Token} (hr : ruleHead? (t :: ts) = some (modifiers, name :: rest)) :
    fileItems (t :: ts) =
      (parseRule modifiers name rest).1 :: fileItems (parseRule modifiers name rest).2 := by
  rw [fileItems.eq_2, if_neg (by simp [h])]
  split
  · next m n r hh =>
    obtain ⟨rfl, hn⟩ := Prod.mk.inj (Option.some.inj (hr.symm.trans hh))
    obtain ⟨rfl, rfl⟩ := List.cons.inj hn
    rfl
  · next hno => exact absurd hr (hno _ _ _)

/-- Where neither a block nor a rule starts, a file takes the token as it is. -/
theorem fileItems_leaf (h : t.isOperator openBrace = false) (hr : ruleHead? (t :: ts) = none) :
    fileItems (t :: ts) = leaf t :: fileItems ts := by
  rw [fileItems.eq_2, if_neg (by simp [h])]
  split
  · next hh => simp [hr] at hh
  · rfl

/-- What a file holds is a block, a rule or a token, and what follows. -/
theorem fileItems_cases (t : Token) (ts : List Token) :
    (t.isOperator openBrace = true ∧
      fileItems (t :: ts) = (parseBlock t ts).1 :: fileItems (parseBlock t ts).2) ∨
    (∃ modifiers name rest, t.isOperator openBrace = false ∧
      ruleHead? (t :: ts) = some (modifiers, name :: rest) ∧ fileItems (t :: ts) =
        (parseRule modifiers name rest).1 :: fileItems (parseRule modifiers name rest).2) ∨
    (t.isOperator openBrace = false ∧ ruleHead? (t :: ts) = none ∧
      fileItems (t :: ts) = leaf t :: fileItems ts) := by
  cases hb : t.isOperator openBrace with
  | true => exact .inl ⟨rfl, fileItems_block hb ts⟩
  | false =>
      cases hr : ruleHead? (t :: ts) with
      | none => exact .inr (.inr ⟨rfl, rfl, fileItems_leaf hb hr⟩)
      | some head =>
          obtain ⟨modifiers, named⟩ := head
          obtain ⟨name, rest, rfl⟩ := exists_name_of_ruleHead? hr
          exact .inr (.inl ⟨modifiers, name, rest, rfl, rfl, fileItems_rule hb hr⟩)

/-- White space and comments before what a file holds are leaves. -/
theorem fileItems_append (h : ∀ t ∈ ts, t.isTrivia = true) (rest : List Token) :
    fileItems (ts ++ rest) = ts.map leaf ++ fileItems rest := by
  induction ts with
  | nil => rfl
  | cons t ts ih =>
      obtain ⟨ht, hts⟩ := List.forall_mem_cons.1 h
      rw [List.cons_append, fileItems_leaf (isOperator_of_isTrivia ht _)
        (ruleHead?_of_not_identifier (isIdentifier_of_isTrivia ht) _), ih hts]
      rfl

/-- What a file holds is a rule first if a rule starts there. -/
theorem startsRule_iff (t : Token) (ts : List Token) :
    startsRule (t :: ts) = true ↔ ∃ cs us, fileItems (t :: ts) = node .rule cs :: us := by
  rw [startsRule]
  rcases fileItems_cases t ts with ⟨hb, he⟩ | ⟨m, n, r, -, hr, he⟩ | ⟨-, hr, he⟩
  · have hi : t.isIdentifier = false := by
      rw [Token.isOperator, Bool.and_eq_true, beq_iff_eq] at hb
      simp [Token.isIdentifier, hb.1]
    rw [ruleHead?_of_not_identifier hi, he]
    simp [parseBlock]
  · rw [hr, he]
    simp [parseRule]
  · rw [hr, he]
    simp

/-- Trees that are read as what a file holds. -/
def Reads (Ts : List Tree) : Prop := fileItems (leavesOf Ts) = Ts

/-- What follows the first of the items of a file is read the same way without it. -/
theorem Reads.tail {T : Tree} {Ts : List Tree} (h : Reads (T :: Ts)) : Reads Ts := by
  have hleaves := leavesOf_fileItems (leavesOf (T :: Ts))
  have hT : fileItems (leavesOf (T :: Ts)) = T :: Ts := h
  cases hL : leavesOf (T :: Ts) with
  | nil => simp [hL, fileItems] at hT
  | cons t ts =>
      rw [hL] at hT
      -- what is left over after the first item
      have hrest : ∀ rest, T.leaves ++ rest = t :: ts → fileItems rest = Ts → Reads Ts := by
        intro rest happ hTs
        rw [leavesOf] at hL
        obtain rfl := List.append_cancel_left (hL.trans happ.symm)
        exact hTs
      rcases fileItems_cases t ts with ⟨-, he⟩ | ⟨m, n, r, -, hr, he⟩ | ⟨-, -, he⟩
      · obtain ⟨rfl, hTs⟩ := List.cons.inj (he.symm.trans hT)
        exact hrest _ (parseBlock_append t ts) hTs
      · obtain ⟨rfl, hTs⟩ := List.cons.inj (he.symm.trans hT)
        exact hrest _ ((parseRule_append m n r).trans (ruleHead?_append hr)) hTs
      · obtain ⟨rfl, hTs⟩ := List.cons.inj (he.symm.trans hT)
        exact hrest ts rfl hTs

/-- The last items of a file are read the same way without those before them. -/
theorem Reads.right {Ts Us : List Tree} (h : Reads (Ts ++ Us)) : Reads Us := by
  induction Ts with
  | nil => exact h
  | cons T Ts ih => exact ih h.tail

/-- White space and comments in front are part of a value if something of it follows. -/
theorem valueSpan_of_isTrivia {first : Bool} {depth : Nat} (h : t.isTrivia = true)
    (ts : List Token) :
    valueSpan first depth (t :: ts) = if (valueSpan false depth ts).1 = [] then ([], t :: ts)
      else (t :: (valueSpan false depth ts).1, (valueSpan false depth ts).2) := by
  rw [valueSpan, if_pos h]
  split
  · next hv => rw [hv, if_pos rfl]
  · next hne hv => rw [hv, if_neg hne]

/-- White space and comments in front are part of an expression if something of it follows. -/
theorem expressionSpan_of_isTrivia (h : t.isTrivia = true) (ts : List Token) :
    expressionSpan (t :: ts) = if (expressionSpan ts).1 = [] then ([], t :: ts)
      else (t :: (expressionSpan ts).1, (expressionSpan ts).2) := by
  rw [expressionSpan, if_pos h]
  split
  · next hv => rw [hv, if_pos rfl]
  · next hne hv => rw [hv, if_neg hne]

/-- What is made of the solid token in front. -/
theorem semicolon_eq {between : Token → Bool} {us : List Token} (h : skipTrivia ts = t :: us) :
    semicolon between ts =
      if (t.isOperator ";" && (leadingTrivia ts).all between) = true then
        (leadingTrivia ts ++ [t], us)
      else ([], ts) := by
  rw [semicolon]
  split
  · next hnil => simp [h] at hnil
  · next hcons =>
    obtain ⟨rfl, rfl⟩ := List.cons.inj (h.symm.trans hcons)
    rfl

/-- An operator is read exactly if it is the next solid token, with the trivia before it. -/
theorem operator_eq {spelling : String} {us : List Token} (h : skipTrivia ts = t :: us) :
    operator spelling ts =
      if t.isOperator spelling = true then some (leadingTrivia ts ++ [t], us) else none := by
  rw [operator]
  split
  · next hnil => simp [h] at hnil
  · next hcons =>
    obtain ⟨rfl, rfl⟩ := List.cons.inj (h.symm.trans hcons)
    rfl

/-- Reading an operator, if it is there, loses no token. -/
theorem operator_getD_append (spelling : String) (ts : List Token) :
    ((operator spelling ts).getD ([], ts)).1 ++ ((operator spelling ts).getD ([], ts)).2 = ts := by
  cases ho : operator spelling ts with
  | none => rfl
  | some taken => exact operator_append ho

/-- A rule has a block exactly if the next solid token opens one, which then takes the trivia before
it. -/
theorem parseRuleBlock_eq {us : List Token} (h : skipTrivia ts = t :: us) :
    parseRuleBlock ts =
      if t.isOperator openBrace = true then
        ((leadingTrivia ts).map leaf ++ [(parseBlock t us).1], (parseBlock t us).2)
      else ([], ts) := by
  rw [parseRuleBlock]
  split
  · next hnil => simp [h] at hnil
  · next hcons =>
    obtain ⟨rfl, rfl⟩ := List.cons.inj (h.symm.trans hcons)
    rfl

/-- Where an expression ends, by the solid token that follows. -/
theorem expressionSpan_eq_nil_iff {us : List Token} (h : skipTrivia ts = t :: us) :
    (expressionSpan ts).1 = [] ↔ (t.isOperator ";" || t.isOperator openBrace ||
      t.isOperator closeBrace || startsRule (t :: us)) = true := by
  induction ts with
  | nil => simp [skipTrivia] at h
  | cons u ts ih =>
      cases hu : u.isTrivia with
      | true =>
          rw [skipTrivia, List.dropWhile_cons_of_pos hu] at h
          rw [expressionSpan_of_isTrivia hu, ← ih h]
          split
          · next hnil => simp [hnil]
          · next hne => simp [hne]
      | false =>
          rw [skipTrivia, List.dropWhile_cons_of_neg (by simp [hu])] at h
          obtain ⟨rfl, rfl⟩ := List.cons.inj h
          rw [expressionSpan, if_neg (by simp [hu])]
          split
          · next hstop => simp [hstop]
          · next hstop => simp [hstop]

/-- White space and comments start no expression of their own. -/
theorem expressionSpan_of_trivia (h : ∀ t ∈ ts, t.isTrivia = true) {rest : List Token}
    (hrest : (expressionSpan rest).1 = []) : (expressionSpan (ts ++ rest)).1 = [] := by
  induction ts with
  | nil => exact hrest
  | cons t ts ih =>
      obtain ⟨ht, hts⟩ := List.forall_mem_cons.1 h
      rw [List.cons_append, expressionSpan_of_isTrivia ht, if_pos (ih hts)]

/-- What an expression leaves over starts no further one. -/
theorem expressionSpan_rest (ts : List Token) : (expressionSpan (expressionSpan ts).2).1 = [] := by
  induction ts with
  | nil => rfl
  | cons t ts ih =>
      cases ht : t.isTrivia with
      | true =>
          rw [expressionSpan_of_isTrivia ht]
          split
          · next hnil => rw [expressionSpan_of_isTrivia ht, if_pos hnil]
          · exact ih
      | false =>
          rw [expressionSpan, if_neg (by simp [ht])]
          split
          · next hstop => rw [expressionSpan, if_neg (by simp [ht]), if_pos hstop]
          · exact ih

/-- A block that is not at the end of the text takes something of it. -/
theorem length_blockItems_lt (t : Token) (ts : List Token) :
    (blockItems (t :: ts)).2.length < (t :: ts).length := by
  have hle : ∀ us : List Token, (blockItems us).2.length ≤ us.length := fun us => by
    have := congrArg List.length (blockItems_append us)
    rw [List.length_append] at this
    omega
  rw [blockItems.eq_2]
  split
  · exact Nat.lt_succ_self _
  · split
    · exact Nat.lt_succ_of_le ((hle _).trans (length_parseAttr_le t ts))
    · exact Nat.lt_succ_of_le (hle ts)

/-- From at least one token, at least one item of a block is read. -/
theorem blockItems_ne_nil (t : Token) (ts : List Token) : (blockItems (t :: ts)).1 ≠ [] := by
  rw [blockItems.eq_2]
  split
  · simp
  · split <;> simp

/-- A block starts with its opening brace. -/
theorem leaves_parseBlock (brace : Token) (ts : List Token) :
    ∃ us, (parseBlock brace ts).1.leaves = brace :: us := by
  simp [parseBlock, leaves, leavesOf]

/-- A rule starts with its modifiers and its name. -/
theorem leaves_parseRule (modifiers : List Token) (name : Token) (ts : List Token) :
    ∃ us, (parseRule modifiers name ts).1.leaves = modifiers ++ name :: us := by
  simp [parseRule, leaves, leavesOf, leavesOf_modifierItems]

/-- An attribute starts with its name. -/
theorem leaves_parseAttr (name : Token) (ts : List Token) :
    ∃ us, (parseAttr name ts).1.leaves = name :: us := by
  simp [parseAttr, leaves, leavesOf]

end Tree

end BnfSuppression
