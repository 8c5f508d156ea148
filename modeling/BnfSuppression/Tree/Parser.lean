import BnfSuppression.Token.Lexer
import BnfSuppression.Tree

/-!
# Reading a grammar

Reading never fails: a token that fits nowhere stays a leaf where it stands.

* A *file* is a sequence of attribute blocks, rules and other tokens.
* A *rule* is a run of modifiers on one line, a name, `::=`, an expression, an attribute block and
  a semicolon, of which the modifiers, the block and the semicolon may be missing.
* An *attribute block* lies between braces; it holds attributes and other tokens.
* An *attribute* is a name with a pattern in parentheses, a value after `=`, or both, and perhaps a
  semicolon on the same line.

White space and comments before an item are never part of it. Those after it are part of it only
where it breaks off: white space on the line of a `::=` or `=` that nothing follows, and what stands
at the end of a pattern or a block that is never closed.

## Main definitions

* `Tree.ruleHead?`, `Tree.startsAttr`: where a rule and where an attribute starts.
* `Tree.parseFile`: the tree of a sequence of tokens; `Tree.parse`: that of a text.

## Main results

* `Tree.leaves_parseFile`: the leaves of the tree are the tokens.
-/

namespace BnfSuppression

namespace Tree

/-! ### Looking ahead -/

/-- The tokens from the first that is neither white space nor a comment. -/
def skipTrivia (ts : List Token) : List Token := ts.dropWhile Token.isTrivia

/-- The brace that opens an attribute block. -/
def openBrace : String := "\x7b"

/-- The brace that closes an attribute block. -/
def closeBrace : String := "\x7d"

/-- The white space and comments in front. -/
def leadingTrivia (ts : List Token) : List Token := ts.takeWhile Token.isTrivia

/-- Tokens are their leading white space and comments followed by what is left after skipping
these. -/
theorem leadingTrivia_append (ts : List Token) : leadingTrivia ts ++ skipTrivia ts = ts :=
  List.takeWhile_append_dropWhile

/-- Whether the first token is the given operator. -/
def startsWith (spelling : String) : List Token → Bool
  | [] => false
  | t :: _ => t.isOperator spelling

/-- The words that may stand in front of a rule's name. -/
def ruleModifiers : List String :=
  ["private", "external", "meta", "inner", "left", "upper", "fake", "rule"]

/-- If a rule starts here: the modifiers with the white space after each, and the tokens from the
rule's name on. A rule starts at an identifier that `::=` follows, or at a modifier with such a
start after it on the same line. -/
def ruleHead? : List Token → Option (List Token × List Token)
  | [] | [_] => none
  | name :: next :: ts =>
    if !name.isIdentifier then none
    else if startsWith "::=" (skipTrivia (next :: ts)) then some ([], name :: next :: ts)
    else if next.isInlineSpace && ruleModifiers.contains name.text then
      (ruleHead? ts).map fun head => (name :: next :: head.1, head.2)
    else none

/-- Whether a rule starts here. -/
def startsRule (ts : List Token) : Bool := (ruleHead? ts).isSome

/-- Whether an attribute starts here: an identifier that `=` or `(` follows. -/
def startsAttr : List Token → Bool
  | [] => false
  | name :: ts =>
    name.isIdentifier && (startsWith "=" (skipTrivia ts) || startsWith "(" (skipTrivia ts))

/-! ### Spans of tokens -/

/-- White space without a line feed in front, and the tokens after it. It belongs to the sign before
it. -/
def inlineSpace : List Token → List Token × List Token
  | [] => ([], [])
  | t :: ts => if t.isInlineSpace then ([t], ts) else ([], t :: ts)

/-- The tokens of an expression and those after it. It ends before a semicolon, a brace or the next
rule, and the white space and comments there are left out. -/
def expressionSpan : List Token → List Token × List Token
  | [] => ([], [])
  | t :: ts =>
    if t.isTrivia then
      match expressionSpan ts with
      | ([], _) => ([], t :: ts)
      | (body, rest) => (t :: body, rest)
    else if t.isOperator ";" || t.isOperator openBrace || t.isOperator closeBrace ||
        startsRule (t :: ts) then
      ([], t :: ts)
    else ((t :: (expressionSpan ts).1), (expressionSpan ts).2)

/-- The bracket depth after a token; a bracket that closes nothing leaves the depth at zero. -/
def depthAfter (depth : Nat) (t : Token) : Nat :=
  if t.isOperator "[" then depth + 1 else if t.isOperator "]" then depth - 1 else depth

/-- The tokens of an attribute's value and those after it, at a depth of open brackets. It ends
before a closing brace, and outside brackets before a semicolon or the next attribute, except that
an attribute does not start at the value's own first token. White space and comments at the end
are left out. -/
def valueSpan (first : Bool) (depth : Nat) : List Token → List Token × List Token
  | [] => ([], [])
  | t :: ts =>
    if t.isTrivia then
      match valueSpan false depth ts with
      | ([], _) => ([], t :: ts)
      | (body, rest) => (t :: body, rest)
    else if t.isOperator closeBrace ||
        (depth == 0 && (t.isOperator ";" || (!first && startsAttr (t :: ts)))) then
      ([], t :: ts)
    else
      ((t :: (valueSpan false (depthAfter depth t) ts).1),
        (valueSpan false (depthAfter depth t) ts).2)

/-- The tokens of an attribute's pattern and those after it: the first token, and on to the first
`)`, or to before the first `}` after the first token. -/
def patternSpan : List Token → List Token × List Token
  | [] => ([], [])
  | t :: ts =>
    if t.isOperator ")" || startsWith closeBrace ts then ([t], ts)
    else ((t :: (patternSpan ts).1), (patternSpan ts).2)

/-- A semicolon in front with the white space before it, if `between` admits all of that; and the
tokens after it. -/
def semicolon (between : Token → Bool) (ts : List Token) : List Token × List Token :=
  match skipTrivia ts with
  | [] => ([], ts)
  | t :: rest =>
    if t.isOperator ";" && (leadingTrivia ts).all between then (leadingTrivia ts ++ [t], rest)
    else ([], ts)

/-- The operator in front with the white space and comments before it; and the tokens after it. -/
def operator (spelling : String) (ts : List Token) : Option (List Token × List Token) :=
  match skipTrivia ts with
  | [] => none
  | t :: rest => if t.isOperator spelling then some (leadingTrivia ts ++ [t], rest) else none

/-! ### Items -/

/-- The pattern of an attribute, if it has one: the children it gives the attribute, and the tokens
after it. -/
def parsePattern (ts : List Token) : List Tree × List Token :=
  if startsWith "(" (skipTrivia ts) then
    let (pattern, rest) := patternSpan (skipTrivia ts)
    ((leadingTrivia ts).map leaf ++ [node .attrPattern (pattern.map leaf)], rest)
  else ([], ts)

/-- The value of an attribute, if it has one: the children it gives the attribute, and the tokens
after it. -/
def parseValue (ts : List Token) : List Tree × List Token :=
  match operator "=" ts with
  | none => ([], ts)
  | some (sign, rest) =>
    let (space, rest) := inlineSpace rest
    let (value, rest) := valueSpan true 0 rest
    ((sign ++ space).map leaf ++ [node .value (value.map leaf)], rest)

/-- The attribute whose name is `name`, and the tokens after it. -/
def parseAttr (name : Token) (ts : List Token) : Tree × List Token :=
  let (pattern, ts) := parsePattern ts
  let (value, ts) := parseValue ts
  let (close, ts) := semicolon Token.isInlineSpace ts
  (node .attr (leaf name :: pattern ++ value ++ close.map leaf), ts)

/-- Taking white space from the start of tokens loses none of them. -/
theorem inlineSpace_append (ts : List Token) : (inlineSpace ts).1 ++ (inlineSpace ts).2 = ts := by
  cases ts with
  | nil => rfl
  | cons t ts => by_cases h : t.isInlineSpace = true <;> simp [inlineSpace, h]

/-- Taking an expression from the start of tokens loses none of them. -/
theorem expressionSpan_append (ts : List Token) :
    (expressionSpan ts).1 ++ (expressionSpan ts).2 = ts := by
  fun_induction expressionSpan ts with
  | case1 => rfl
  | case2 => rfl
  | case3 t ts _ body rest h ih => simp_all
  | case4 => rfl
  | case5 t ts _ _ ih => simp [ih]

/-- Taking a value from the start of tokens loses none of them, at whatever depth it starts. -/
theorem valueSpan_append (first : Bool) (depth : Nat) (ts : List Token) :
    (valueSpan first depth ts).1 ++ (valueSpan first depth ts).2 = ts := by
  fun_induction valueSpan first depth ts with
  | case1 => rfl
  | case2 => rfl
  | case3 _ _ t ts _ body rest h ih => simp_all
  | case4 => rfl
  | case5 _ _ t ts _ _ ih => simp [ih]

/-- Taking a pattern from the start of tokens loses none of them. -/
theorem patternSpan_append (ts : List Token) : (patternSpan ts).1 ++ (patternSpan ts).2 = ts := by
  fun_induction patternSpan ts with
  | case1 => rfl
  | case2 => rfl
  | case3 t ts _ ih => simp [ih]

/-- Taking a closing semicolon from the start of tokens loses none of them. -/
theorem semicolon_append (between : Token → Bool) (ts : List Token) :
    (semicolon between ts).1 ++ (semicolon between ts).2 = ts := by
  unfold semicolon
  split
  · rfl
  · next t rest h =>
    split
    · rw [List.append_assoc, List.singleton_append, ← h, leadingTrivia_append]
    · rfl

/-- Taking an operator from the start of tokens loses none of them. -/
theorem operator_append {spelling : String} {ts taken rest : List Token}
    (h : operator spelling ts = some (taken, rest)) : taken ++ rest = ts := by
  unfold operator at h
  split at h
  · simp at h
  · next t rest' h' =>
    split at h
    · simp only [Option.some.injEq, Prod.mk.injEq] at h
      rw [← h.1, ← h.2, List.append_assoc, List.singleton_append, ← h', leadingTrivia_append]
    · simp at h

/-- Reading the pattern of an attribute loses no token. -/
theorem parsePattern_append (ts : List Token) :
    leavesOf (parsePattern ts).1 ++ (parsePattern ts).2 = ts := by
  unfold parsePattern
  split
  · simp [leavesOf, leaves, patternSpan_append, leadingTrivia_append]
  · rfl

/-- Reading the value of an attribute loses no token. -/
theorem parseValue_append (ts : List Token) :
    leavesOf (parseValue ts).1 ++ (parseValue ts).2 = ts := by
  unfold parseValue
  split
  · rfl
  · next sign rest h =>
    simp [leavesOf, leaves, valueSpan_append, inlineSpace_append, operator_append h]

/-- The leaves of an attribute are the tokens it was read from. -/
theorem parseAttr_append (name : Token) (ts : List Token) :
    (parseAttr name ts).1.leaves ++ (parseAttr name ts).2 = name :: ts := by
  simp only [parseAttr, leaves, leavesOf, List.cons_append, leavesOf_append, leavesOf_map_leaf,
    List.append_assoc, semicolon_append, parseValue_append, parsePattern_append,
    List.nil_append]

/-- Reading an attribute never leaves more tokens than there were, which is why reading a block
ends. -/
theorem length_parseAttr_le (name : Token) (ts : List Token) :
    (parseAttr name ts).2.length ≤ ts.length := by
  have h := congrArg List.length (parseAttr_append name ts)
  have h' : 1 ≤ (parseAttr name ts).1.leaves.length := by simp [parseAttr, leaves, leavesOf]
  simp only [List.length_append, List.length_cons] at h
  omega

/-- What an attribute block holds after its opening brace, the closing brace included; and the
tokens after it. -/
def blockItems (ts : List Token) : List Tree × List Token :=
  match ts with
  | [] => ([], [])
  | t :: ts =>
    if t.isOperator closeBrace then ([leaf t], ts)
    else if startsAttr (t :: ts) then
      ((parseAttr t ts).1 :: (blockItems (parseAttr t ts).2).1, (blockItems (parseAttr t ts).2).2)
    else (leaf t :: (blockItems ts).1, (blockItems ts).2)
termination_by ts.length
decreasing_by
  · exact Nat.lt_succ_of_le (length_parseAttr_le t ts)
  · exact Nat.lt_succ_self _

/-- The attribute block that the brace `brace` opens, and the tokens after it. -/
def parseBlock (brace : Token) (ts : List Token) : Tree × List Token :=
  (node .attrs (leaf brace :: (blockItems ts).1), (blockItems ts).2)

/-- The attribute block of a rule, if it has one: the children it gives the rule, and the tokens
after it. -/
def parseRuleBlock (ts : List Token) : List Tree × List Token :=
  match skipTrivia ts with
  | [] => ([], ts)
  | brace :: rest =>
    if brace.isOperator openBrace then
      ((leadingTrivia ts).map leaf ++ [(parseBlock brace rest).1], (parseBlock brace rest).2)
    else ([], ts)

/-- The children that its modifiers give a rule. The white space after the last modifier is a child
of the rule itself. -/
def modifierItems (modifiers : List Token) : List Tree :=
  match modifiers.getLast? with
  | none => []
  | some space => [node .modifiers (modifiers.dropLast.map leaf), leaf space]

/-- What a rule holds from `::=` on, given the tokens after its name; and the tokens after it. -/
def parseRuleBody (ts : List Token) : List Tree × List Token :=
  let (sign, ts) := (operator "::=" ts).getD ([], ts)
  let (space, ts) := inlineSpace ts
  let (expression, ts) := expressionSpan ts
  let (block, ts) := parseRuleBlock ts
  let (close, ts) := semicolon Token.isWhitespace ts
  ((sign ++ space).map leaf ++ node .expression (expression.map leaf) :: block ++
    close.map leaf, ts)

/-- The rule with the given modifiers whose name is `name`, and the tokens after it. -/
def parseRule (modifiers : List Token) (name : Token) (ts : List Token) : Tree × List Token :=
  (node .rule (modifierItems modifiers ++ leaf name :: (parseRuleBody ts).1), (parseRuleBody ts).2)

/-- Reading the items of a block loses no token. -/
theorem blockItems_append (ts : List Token) :
    leavesOf (blockItems ts).1 ++ (blockItems ts).2 = ts := by
  fun_induction blockItems ts with
  | case1 => rfl
  | case2 t ts _ => rfl
  | case3 t ts _ _ ih => rw [leavesOf, List.append_assoc, ih, parseAttr_append]
  | case4 t ts _ _ ih => rw [leavesOf, List.append_assoc, ih, leaves, List.singleton_append]

/-- Reading a block loses no token, its opening brace included. -/
theorem parseBlock_append (brace : Token) (ts : List Token) :
    (parseBlock brace ts).1.leaves ++ (parseBlock brace ts).2 = brace :: ts := by
  simp [parseBlock, leaves, leavesOf, blockItems_append]

/-- Reading the block of a rule loses no token. -/
theorem parseRuleBlock_append (ts : List Token) :
    leavesOf (parseRuleBlock ts).1 ++ (parseRuleBlock ts).2 = ts := by
  unfold parseRuleBlock
  split
  · rfl
  · next brace rest h =>
    split
    · simp only [leavesOf_append, leavesOf_map_leaf, leavesOf, List.append_nil, List.append_assoc,
        parseBlock_append]
      rw [← h, leadingTrivia_append]
    · rfl

/-- The modifiers of a rule keep all their tokens, the last white space included. -/
theorem leavesOf_modifierItems (modifiers : List Token) :
    leavesOf (modifierItems modifiers) = modifiers := by
  unfold modifierItems
  split
  · next h => simpa [leavesOf] using (List.getLast?_eq_none_iff.1 h).symm
  · next space h =>
    obtain ⟨before, rfl⟩ := List.getLast?_eq_some_iff.1 h
    simp [leavesOf, leaves]

/-- Reading what follows the name of a rule loses no token. -/
theorem parseRuleBody_append (ts : List Token) :
    leavesOf (parseRuleBody ts).1 ++ (parseRuleBody ts).2 = ts := by
  have hsign : ((operator "::=" ts).getD ([], ts)).1 ++ ((operator "::=" ts).getD ([], ts)).2 =
      ts := by
    cases h : operator "::=" ts with
    | none => rfl
    | some p => exact @operator_append _ _ p.1 p.2 h
  simp only [parseRuleBody, List.map_append, List.append_assoc, List.cons_append,
    leavesOf_append, leavesOf_map_leaf, leavesOf, leaves, semicolon_append, parseRuleBlock_append,
    expressionSpan_append, inlineSpace_append, hsign]

/-- The leaves of a rule are the tokens it was read from. -/
theorem parseRule_append (modifiers : List Token) (name : Token) (ts : List Token) :
    (parseRule modifiers name ts).1.leaves ++ (parseRule modifiers name ts).2 =
      modifiers ++ name :: ts := by
  simp [parseRule, leaves, leavesOf, leavesOf_modifierItems, parseRuleBody_append]

/-- Splitting the head of a rule into modifiers and the rest loses no token. -/
theorem ruleHead?_append {ts modifiers named : List Token}
    (h : ruleHead? ts = some (modifiers, named)) : modifiers ++ named = ts := by
  fun_induction ruleHead? ts generalizing modifiers named with
  | case1 => simp at h
  | case2 => simp at h
  | case3 => simp at h
  | case4 name next ts _ _ =>
    simp only [Option.some.injEq, Prod.mk.injEq] at h
    rw [← h.1, ← h.2, List.nil_append]
  | case5 name next ts _ _ _ ih =>
    obtain ⟨head, hh, he⟩ := Option.map_eq_some_iff.1 h
    simp only [Prod.mk.injEq] at he
    rw [← he.1, ← he.2, List.cons_append, List.cons_append, @ih head.1 head.2 hh]
  | case6 => simp at h

/-- Reading a block never leaves more tokens than there were, which is why reading a file ends. -/
theorem length_parseBlock_le (brace : Token) (ts : List Token) :
    (parseBlock brace ts).2.length ≤ ts.length := by
  have h := congrArg List.length (parseBlock_append brace ts)
  have h' : 1 ≤ (parseBlock brace ts).1.leaves.length := by simp [parseBlock, leaves, leavesOf]
  simp only [List.length_append, List.length_cons] at h
  omega

/-- Reading a rule leaves fewer tokens than there were, since it takes its name. -/
theorem length_parseRule_lt {ts modifiers rest : List Token} {name : Token}
    (h : ruleHead? ts = some (modifiers, name :: rest)) :
    (parseRule modifiers name rest).2.length < ts.length := by
  have h₁ := congrArg List.length (parseRule_append modifiers name rest)
  have h₂ := congrArg List.length (ruleHead?_append h)
  have h₃ : 1 ≤ (parseRule modifiers name rest).1.leaves.length := by
    simp [parseRule, leaves, leavesOf]
    omega
  simp only [List.length_append, List.length_cons] at h₁ h₂
  omega

/-- What a file holds. -/
def fileItems (ts : List Token) : List Tree :=
  match ts with
  | [] => []
  | t :: ts =>
    if t.isOperator openBrace then (parseBlock t ts).1 :: fileItems (parseBlock t ts).2
    else match _h : ruleHead? (t :: ts) with
      | some (modifiers, name :: rest) =>
        (parseRule modifiers name rest).1 :: fileItems (parseRule modifiers name rest).2
      | _ => leaf t :: fileItems ts
termination_by ts.length
decreasing_by
  · exact Nat.lt_succ_of_le (length_parseBlock_le t ts)
  · exact length_parseRule_lt _h
  · exact Nat.lt_succ_self _

/-- The tree of a sequence of tokens. -/
def parseFile (ts : List Token) : Tree := node .file (fileItems ts)

/-- The tree of a text. -/
def parse (s : String) : Tree := parseFile (tokenize s)

/-- Reading the items of a file loses no token. -/
theorem leavesOf_fileItems (ts : List Token) : leavesOf (fileItems ts) = ts := by
  fun_induction fileItems ts with
  | case1 => rfl
  | case2 t ts _ ih => rw [leavesOf, ih, parseBlock_append]
  | case3 t ts _ modifiers name rest h ih =>
    rw [leavesOf, ih, parseRule_append, ruleHead?_append h]
  | case4 t ts _ _ ih => rw [leavesOf, ih, leaves, List.singleton_append]

/-- The leaves of a tree are the tokens it was read from. -/
theorem leaves_parseFile (ts : List Token) : (parseFile ts).leaves = ts :=
  leavesOf_fileItems ts

end Tree

end BnfSuppression
