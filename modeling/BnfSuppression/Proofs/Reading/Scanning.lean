import BnfSuppression.Proofs.Reading.Composites

/-!
# Blocks and Rules by Scanning

Which tokens are attribute blocks and which are names of rules can be told without reading: a block
goes from an opening brace to the next closing one, and a rule's name is an identifier outside of
all blocks that `::=` follows. Reading finds just these, whatever else the text holds, since no part
of a rule or of an attribute takes a closing brace or the name of another rule.

## Main definitions

* `Tree.blockSpans`, `Tree.ruleNames`: what scanning finds.
* `Tree.Finds`: trees hold what scanning finds in tokens before others.

## Main results

* `Tree.IsBlock.upToBrace_eq`: **a block ends with the first closing brace**.
* `Tree.finds_fileItems`: **a file holds the blocks and rules that scanning finds**.
* `Tree.parse_holds_scanned`: the same for texts, index by index.
-/

namespace BnfSuppression

namespace Tree

/-! ### Scanning -/

/-- The tokens up to the first closing brace, that included, and the tokens after it. -/
def upToBrace : List Token → List Token × List Token
  | [] => ([], [])
  | t :: ts =>
    if t.isOperator closeBrace then ([t], ts) else (t :: (upToBrace ts).1, (upToBrace ts).2)

/-- Cutting tokens behind the first closing brace loses none. -/
theorem upToBrace_append (ts : List Token) : (upToBrace ts).1 ++ (upToBrace ts).2 = ts := by
  induction ts with
  | nil => rfl
  | cons t ts ih =>
      rw [upToBrace]
      split
      · rfl
      · rw [List.cons_append, ih]

/-- Behind the first closing brace there are no more tokens than before the cut. -/
theorem length_upToBrace_le (ts : List Token) : (upToBrace ts).2.length ≤ ts.length := by
  have := congrArg List.length (upToBrace_append ts)
  rw [List.length_append] at this
  omega

/-- The spans of tokens that braces enclose, from the left: an opening brace outside the earlier
spans opens one, and it ends with the first closing brace after it or with the tokens. Each comes
with the index of its first token, where `k` is the index of the first token of all. -/
def blockSpans (k : Nat) : List Token → List (Nat × List Token)
  | [] => []
  | t :: ts =>
    if t.isOperator openBrace then
      (k, t :: (upToBrace ts).1) ::
        blockSpans (k + (t :: (upToBrace ts).1).length) (upToBrace ts).2
    else blockSpans (k + 1) ts
termination_by ts => ts.length
decreasing_by
  · exact Nat.lt_succ_of_le (length_upToBrace_le ts)
  · exact Nat.lt_succ_self _

/-- The index is none of the span. -/
def isOutside (k : Nat) (span : Nat × List Token) : Bool :=
  k < span.1 || span.1 + span.2.length ≤ k

/-- An identifier comes first, and `::=` is the next token that is neither white space nor a
comment. -/
def startsHeader : List Token → Bool
  | [] => false
  | t :: ts => t.isIdentifier && (ts.find? fun u => !u.isTrivia).any (·.isOperator "::=")

/-- The indices of the tokens that name rules: they are outside of all blocks, and `::=` follows. -/
def ruleNames (ts : List Token) : List Nat :=
  (List.range ts.length).filter fun k =>
    (blockSpans 0 ts).all (isOutside k) && startsHeader (ts.drop k)

section

variable {t : Token} {ts us rest : List Token} {Ts Us : List Tree} {T : Tree} {type : ElementType}
  {k : Nat}

/-! ### Where scanning goes on -/

/-- At an opening brace a block starts, and scanning goes on behind it. -/
theorem blockSpans_of_brace (h : t.isOperator openBrace = true) (k : Nat) (ts : List Token) :
    blockSpans k (t :: ts) = (k, t :: (upToBrace ts).1) ::
      blockSpans (k + (t :: (upToBrace ts).1).length) (upToBrace ts).2 := by
  rw [blockSpans, if_pos h]

/-- At any other token no block starts, and scanning goes on with the next one. -/
theorem blockSpans_of_not_brace (h : t.isOperator openBrace = false) (k : Nat) (ts : List Token) :
    blockSpans k (t :: ts) = blockSpans (k + 1) ts := by
  rw [blockSpans, if_neg (by simp [h])]

/-- Without a closing brace there is more to come. -/
theorem upToBrace_append_of_free (h : ∀ u ∈ us, u.isOperator closeBrace = false) (ts : List Token) :
    upToBrace (us ++ ts) = (us ++ (upToBrace ts).1, (upToBrace ts).2) := by
  induction us with
  | nil => rfl
  | cons u us ih =>
      obtain ⟨hu, hus⟩ := List.forall_mem_cons.1 h
      rw [List.cons_append, upToBrace, if_neg (by simp [hu]), ih hus]
      rfl

/-- The rules' names as scanning meets them, each with its index. -/
def headers (k : Nat) : List Token → List (Nat × Token)
  | [] => []
  | t :: ts =>
    if t.isOperator openBrace then
      headers (k + (t :: (upToBrace ts).1).length) (upToBrace ts).2
    else if startsHeader (t :: ts) then (k, t) :: headers (k + 1) ts
    else headers (k + 1) ts
termination_by ts => ts.length
decreasing_by
  · exact Nat.lt_succ_of_le (length_upToBrace_le ts)
  · exact Nat.lt_succ_self _
  · exact Nat.lt_succ_self _

/-- Within a block no rule is named, and scanning goes on behind it. -/
theorem headers_of_brace (h : t.isOperator openBrace = true) (k : Nat) (ts : List Token) :
    headers k (t :: ts) =
      headers (k + (t :: (upToBrace ts).1).length) (upToBrace ts).2 := by
  rw [headers, if_pos h]

/-- Outside of blocks a header names its rule by its first token. -/
theorem headers_of_header (h : t.isOperator openBrace = false) (hh : startsHeader (t :: ts) = true)
    (k : Nat) : headers k (t :: ts) = (k, t) :: headers (k + 1) ts := by
  rw [headers, if_neg (by simp [h]), if_pos hh]

/-- Where neither a block nor a header starts, scanning goes on with the next token. -/
theorem headers_of_not_header (h : t.isOperator openBrace = false)
    (hh : startsHeader (t :: ts) = false) (k : Nat) :
    headers k (t :: ts) = headers (k + 1) ts := by
  rw [headers, if_neg (by simp [h]), if_neg (by simp [hh])]

/-- No block starts before the place where scanning does. -/
theorem le_of_mem_blockSpans {span : Nat × List Token} (h : span ∈ blockSpans k ts) :
    k ≤ span.1 := by
  fun_induction blockSpans k ts with
  | case1 => simp at h
  | case2 k t ts _ ih =>
      rcases List.mem_cons.1 h with rfl | h
      · exact Nat.le_refl _
      · have := ih h
        omega
  | case3 k t ts _ ih =>
      have := ih h
      omega

/-! ### Tokens that scanning passes over -/

/-- Before the given tokens, the ones of a list neither open a block nor name a rule. -/
def Quiet : List Token → List Token → Prop
  | [], _ => True
  | t :: ts, rest => t.isOperator openBrace = false ∧ startsHeader (t :: (ts ++ rest)) = false ∧
      Quiet ts rest

/-- A header starts at an identifier with `::=` as the next solid token. -/
theorem startsHeader_cons (t : Token) (ts : List Token) :
    startsHeader (t :: ts) = (t.isIdentifier && startsWith "::=" (skipTrivia ts)) := by
  rw [startsHeader, skipTrivia, List.find?_eq_head?_dropWhile_not]
  simp only [Bool.not_not]
  cases ts.dropWhile Token.isTrivia <;> rfl

/-- Two lists of tokens are passed over exactly if the first is before the second, and the second
after it. -/
theorem quiet_append : Quiet (ts ++ us) rest ↔ Quiet ts (us ++ rest) ∧ Quiet us rest := by
  induction ts with
  | nil => simp [Quiet]
  | cons t ts ih => simp [Quiet, ih, and_assoc]

/-- Only identifiers name rules. -/
theorem quiet_of_not_identifier
    (h : ∀ t ∈ ts, t.isOperator openBrace = false ∧ t.isIdentifier = false) (rest : List Token) :
    Quiet ts rest := by
  induction ts with
  | nil => trivial
  | cons t ts ih =>
      obtain ⟨⟨hbrace, hid⟩, hts⟩ := List.forall_mem_cons.1 h
      exact ⟨hbrace, by rw [startsHeader_cons, hid, Bool.false_and], ih hts⟩

/-- Scanning passes over white space and comments. -/
theorem AreTrivia.quiet (h : AreTrivia ts) (rest : List Token) : Quiet ts rest :=
  quiet_of_not_identifier
    (fun t ht => ⟨isOperator_of_isTrivia (h t ht) _, isIdentifier_of_isTrivia (h t ht)⟩) rest

/-- Scanning passes over every operator but an opening brace. -/
theorem quiet_operator {spelling : String} (h : t.isOperator spelling = true)
    (hne : openBrace ≠ spelling) (rest : List Token) : Quiet [t] rest := by
  refine quiet_of_not_identifier (fun u hu => ?_) rest
  obtain rfl := List.mem_singleton.1 hu
  exact ⟨isOperator_of_ne h hne, isIdentifier_of_isOperator h⟩

/-- Tokens that scanning passes over shift the blocks behind them. -/
theorem blockSpans_append_of_quiet (h : Quiet ts rest) (k : Nat) :
    blockSpans k (ts ++ rest) = blockSpans (k + ts.length) rest := by
  induction ts generalizing k with
  | nil => rfl
  | cons t ts ih =>
      rw [List.cons_append, blockSpans_of_not_brace h.1, ih h.2.2, List.length_cons]
      congr 1
      omega

/-- Tokens that scanning passes over shift the headers behind them. -/
theorem headers_append_of_quiet (h : Quiet ts rest) (k : Nat) :
    headers k (ts ++ rest) = headers (k + ts.length) rest := by
  induction ts generalizing k with
  | nil => rfl
  | cons t ts ih =>
      rw [List.cons_append, headers_of_not_header h.1 h.2.1, ih h.2.2, List.length_cons]
      congr 1
      omega

/-- Where a rule's header is next, a rule starts. -/
theorem startsRule_of_startsHeader (h : startsHeader (t :: ts) = true) :
    startsRule (t :: ts) = true := by
  rw [startsHeader_cons, Bool.and_eq_true] at h
  cases ts with
  | nil => simp [skipTrivia, startsWith] at h
  | cons u ts => simp [startsRule, ruleHead?, h.1, h.2]

/-- An expression stops before it would take a brace or another rule's name. -/
theorem quiet_expressionSpan (ts : List Token) :
    Quiet (expressionSpan ts).1 (expressionSpan ts).2 := by
  fun_induction expressionSpan ts with
  | case1 => trivial
  | case2 => trivial
  | case3 t ts ht body rest _ h ih =>
      rw [h] at ih
      refine ⟨isOperator_of_isTrivia ht _, ?_, ih⟩
      rw [startsHeader_cons, isIdentifier_of_isTrivia ht, Bool.false_and]
  | case4 => trivial
  | case5 t ts _ hstop ih =>
      simp only [Bool.or_eq_true, not_or, Bool.not_eq_true] at hstop
      refine ⟨hstop.1.1.2, ?_, ih⟩
      rw [expressionSpan_append, Bool.eq_false_iff]
      intro hheader
      rw [startsRule_of_startsHeader hheader] at hstop
      simp at hstop

/-- Before a rule's name there are its modifiers, and none of them is followed by `::=`. -/
theorem quiet_modifiers {modifiers : List Token} {name : Token}
    (h : ruleHead? ts = some (modifiers, name :: rest)) :
    Quiet modifiers (name :: rest) ∧ startsHeader (name :: rest) = true := by
  obtain ⟨hname, hsign⟩ := of_ruleHead? h
  refine ⟨?_, by rw [startsHeader_cons, hname, hsign]; rfl⟩
  clear hname hsign
  fun_induction ruleHead? ts generalizing modifiers with
  | case1 => simp at h
  | case2 => simp at h
  | case3 => simp at h
  | case4 =>
      obtain ⟨rfl, -⟩ := Prod.mk.inj (Option.some.inj h)
      trivial
  | case5 t next ts hid hsign hmod ih =>
      obtain ⟨⟨ms, ns⟩, hh, he⟩ := Option.map_eq_some_iff.1 h
      obtain ⟨rfl, rfl⟩ := Prod.mk.inj he
      simp only [Bool.not_eq_true', Bool.not_eq_false, Bool.not_eq_true, Bool.and_eq_true]
        at hid hsign hmod
      have hnext := isTrivia_of_isInlineSpace hmod.1
      have happ : ms ++ name :: rest = ts := ruleHead?_append hh
      refine ⟨isOperator_of_isIdentifier hid _, ?_, isOperator_of_isTrivia hnext _, ?_, ih hh⟩
      · rw [List.cons_append, happ, startsHeader_cons, hsign, Bool.and_false]
      · rw [startsHeader_cons, isIdentifier_of_isTrivia hnext, Bool.false_and]
  | case6 => simp at h

/-! ### Trees against tokens -/

/-- Before the tokens `rest`, the trees hold those blocks and rules that scanning finds in the
tokens `ts`: the blocks with the same tokens, and for each rule the name that its header has. -/
structure Finds (Ts : List Tree) (ts rest : List Token) : Prop where
  blocks : ∀ k, blockSpans k ts =
    (compositesOfType .attrs k Ts).map (fun c => (c.1, c.2.leaves)) ++
      blockSpans (k + (leavesOf Ts).length) rest
  names : ∀ k, (headers k ts).map some =
    (compositesOfType .rule k Ts).map (fun c => c.2.nameAt? c.1) ++
      (headers (k + (leavesOf Ts).length) rest).map some

/-- If trees hold what scanning finds up to some tokens, and more trees what it finds from there,
then all of them do together. -/
theorem Finds.append (h : Finds Ts ts us) (h' : Finds Us us rest) : Finds (Ts ++ Us) ts rest where
  blocks k := by
    rw [h.blocks, h'.blocks, compositesOfType_append, List.map_append, List.append_assoc,
      leavesOf_append, List.length_append, Nat.add_assoc]
  names k := by
    rw [h.names, h'.names, compositesOfType_append, List.map_append, List.append_assoc,
      leavesOf_append, List.length_append, Nat.add_assoc]

/-- If a tree holds what scanning finds up to some tokens, it can be put in front of trees that hold
the rest. -/
theorem Finds.cons (h : Finds [T] ts us) (h' : Finds Ts us rest) : Finds (T :: Ts) ts rest :=
  h.append h'

/-- Where nothing is scanned, no trees hold what is found. -/
theorem Finds.nil (rest : List Token) : Finds [] rest rest :=
  ⟨fun _ => rfl, fun _ => rfl⟩

/-- Tokens that scanning passes over may be leaves. -/
theorem Finds.leaves (h : Quiet ts rest) : Finds (ts.map leaf) (ts ++ rest) rest where
  blocks k := by
    rw [blockSpans_append_of_quiet h, compositesOfType, compositesOf_map_leaf, leavesOf_map_leaf]
    rfl
  names k := by
    rw [headers_append_of_quiet h, compositesOfType, compositesOf_map_leaf, leavesOf_map_leaf]
    rfl

/-- Composites of other types add nothing to what they hold. -/
theorem Finds.node (h : Finds Us ts rest) (hattrs : type ≠ .attrs) (hrule : type ≠ .rule) :
    Finds [Tree.node type Us] ts rest where
  blocks k := by
    rw [h.blocks, compositesOfType_node, if_neg hattrs, leavesOf_singleton, Tree.leaves,
      List.nil_append]
  names k := by
    rw [h.names, compositesOfType_node, if_neg hrule, leavesOf_singleton, Tree.leaves,
      List.nil_append]

/-! ### Blocks -/

/-- **A block ends with the first closing brace**, or where the text does. -/
theorem IsBlock.upToBrace_eq (h : IsBlock rest (node .attrs (leaf t :: Us))) :
    upToBrace (leavesOf Us ++ rest) = (leavesOf Us, rest) := by
  generalize hT : node .attrs (leaf t :: Us) = T at h
  cases h with
  | @closed opening closing items _ hitems hclosing =>
      obtain ⟨-, rfl⟩ : t = opening ∧ Us = items ++ [leaf closing] := by simpa using hT
      rw [leavesOf_append, List.append_assoc, upToBrace_append_of_free (free_of_blockItems hitems)]
      simp [leavesOf, leaves, upToBrace, hclosing]
  | @unclosed opening items _ hitems hrest =>
      obtain ⟨-, rfl⟩ : t = opening ∧ Us = items := by simpa using hT
      rw [hrest, upToBrace_append_of_free (free_of_blockItems hitems)]
      simp [upToBrace]

/-- Scanning finds a block where one is read. -/
theorem IsBlock.finds (h : IsBlock rest T) : Finds [T] (T.leaves ++ rest) rest := by
  obtain ⟨opening, Us, rfl, hopening, hinner⟩ := h.exists_items
  have hup := h.upToBrace_eq
  have hattrs : ∀ k, compositesOfType .attrs k (leaf opening :: Us) = [] := fun k =>
    List.filter_eq_nil_iff.2 fun c hc => by simpa using (hinner k c hc).type?_ne.1
  have hrule : ∀ k, compositesOfType .rule k (leaf opening :: Us) = [] := fun k =>
    List.filter_eq_nil_iff.2 fun c hc => by simpa using (hinner k c hc).type?_ne.2
  constructor
  · intro k
    rw [compositesOfType_node, hattrs, leavesOf_singleton, leaves, leavesOf, leaves,
      List.singleton_append, List.cons_append, blockSpans_of_brace hopening, hup]
    rfl
  · intro k
    rw [compositesOfType_node, hrule, leavesOf_singleton, leaves, leavesOf, leaves,
      List.singleton_append, List.cons_append, headers_of_brace hopening, hup]
    rfl

/-! ### Rules -/

/-- Scanning passes over what closes an item. -/
theorem IsClose.quiet {between : Token → Bool} (h : IsClose between ts)
    (hbetween : ∀ u, between u = true → u.isTrivia = true) (rest : List Token) : Quiet ts rest := by
  refine quiet_of_not_identifier (fun u hu => ?_) rest
  rcases h.isTrivia_or hbetween hu with ht | ht
  · exact ⟨isOperator_of_isTrivia ht _, isIdentifier_of_isTrivia ht⟩
  · exact ⟨isOperator_of_ne ht (by decide), isIdentifier_of_isOperator ht⟩

/-- The block of a rule is the one that scanning finds there. -/
theorem IsBlockPart.finds (h : IsBlockPart rest Ts) : Finds Ts (leavesOf Ts ++ rest) rest := by
  cases h with
  | none => exact .nil rest
  | block hspace hT =>
      rw [leavesOf_append, leavesOf_map_leaf, List.append_assoc, leavesOf_singleton]
      exact (Finds.leaves (hspace.quiet _)).append hT.finds

/-- Behind its name a rule holds its block and no more. -/
theorem finds_parseRuleBody (h : startsWith "::=" (skipTrivia ts) = true) :
    Finds (parseRuleBody ts).1 ts (parseRuleBody ts).2 := by
  rw [← operator_isSome_iff] at h
  obtain ⟨⟨taken, after⟩, hop⟩ := Option.isSome_iff_exists.1 h
  obtain ⟨space, sign, rfl, hspace, hsign⟩ := exists_of_operator hop
  simp only [parseRuleBody, hop, Option.getD_some]
  have hstart : Finds ((space ++ [sign] ++ (inlineSpace after).1).map leaf) ts
      (inlineSpace after).2 := by
    have hquiet : Quiet (space ++ [sign] ++ (inlineSpace after).1) (inlineSpace after).2 :=
      quiet_append.2 ⟨quiet_append.2 ⟨hspace.quiet _, quiet_operator hsign (by decide) _⟩,
        (isGap_inlineSpace after).areTrivia.quiet _⟩
    have hleaves := Finds.leaves hquiet
    rwa [List.append_assoc _ _ (inlineSpace after).2, inlineSpace_append, operator_append hop]
      at hleaves
  generalize (inlineSpace after).2 = ts₁ at hstart ⊢
  have hexpression : Finds [node .expression ((expressionSpan ts₁).1.map leaf)] ts₁
      (expressionSpan ts₁).2 := by
    have hleaves := Finds.leaves (quiet_expressionSpan ts₁)
    rw [expressionSpan_append] at hleaves
    exact hleaves.node (by decide) (by decide)
  generalize (expressionSpan ts₁).2 = ts₂ at hexpression ⊢
  have hblock : Finds (parseRuleBlock ts₂).1 ts₂ (parseRuleBlock ts₂).2 := by
    have hpart := (isBlockPart_parseRuleBlock ts₂).finds
    rwa [parseRuleBlock_append] at hpart
  generalize (parseRuleBlock ts₂).2 = ts₃ at hblock ⊢
  have hclose : Finds ((semicolon Token.isWhitespace ts₃).1.map leaf) ts₃
      (semicolon Token.isWhitespace ts₃).2 := by
    have hleaves := Finds.leaves ((isClose_semicolon Token.isWhitespace ts₃).quiet
      (fun _ => Token.isTrivia_of_isWhitespace) (semicolon Token.isWhitespace ts₃).2)
    rwa [semicolon_append] at hleaves
  exact (hstart.append (hexpression.cons hblock)).append hclose

/-- Modifiers hold no composite, and no name of a rule. -/
theorem IsModifierPart.compositesOfType_eq (h : IsModifierPart Us) (hne : type ≠ .modifiers)
    (k : Nat) (t : Token) (Ts : List Tree) : compositesOfType type k (Us ++ leaf t :: Ts) =
      compositesOfType type (k + (leavesOf Us).length + 1) Ts := by
  cases h with
  | none => rfl
  | @modifiers ms space _ _ =>
      have hnode : (some ElementType.modifiers == some type) = false := by
        simpa using Ne.symm hne
      simp [compositesOfType, leavesOf, leaves, type?, hnode, Nat.add_assoc]

/-- The name of a rule is its first identifier outside of its modifiers. -/
theorem IsModifierPart.nameAmong?_eq (h : IsModifierPart Us) (ht : t.isIdentifier = true) (k : Nat)
    (Ts : List Tree) : nameAmong? k (Us ++ leaf t :: Ts) = some (k + (leavesOf Us).length, t) := by
  cases h with
  | none => simp [nameAmong?, ht, leavesOf]
  | modifiers _ hspace =>
      have hsolid := isIdentifier_of_isTrivia (isTrivia_of_isInlineSpace hspace)
      simp [nameAmong?, ht, leavesOf, leaves, hsolid, Nat.add_assoc]

/-- Scanning finds a rule where one is read: its name is that of its header, and its block is the
only one in it. -/
theorem finds_parseRule {modifiers : List Token} {name : Token}
    (h : ruleHead? ts = some (modifiers, name :: rest)) :
    Finds [(parseRule modifiers name rest).1] ts (parseRule modifiers name rest).2 := by
  obtain ⟨hquiet, hheader⟩ := quiet_modifiers h
  obtain ⟨hname, hsign⟩ := of_ruleHead? h
  have hbrace : name.isOperator openBrace = false := isOperator_of_isIdentifier hname _
  have hpart := isModifierPart_of_ruleHead? h
  have hbody := finds_parseRuleBody hsign
  have hlength (k : Nat) : k + (leavesOf [(parseRule modifiers name rest).1]).length =
      k + modifiers.length + 1 + (leavesOf (parseRuleBody rest).1).length := by
    simp [parseRule, leavesOf, leaves, leavesOf_modifierItems]
    omega
  rw [← ruleHead?_append h]
  constructor
  · intro k
    rw [blockSpans_append_of_quiet hquiet, blockSpans_of_not_brace hbrace, hbody.blocks, hlength,
      parseRule, compositesOfType_node, if_neg (by decide), List.nil_append,
      hpart.compositesOfType_eq (by decide), leavesOf_modifierItems]
  · intro k
    rw [headers_append_of_quiet hquiet, headers_of_header hbrace hheader, List.map_cons,
      hbody.names, hlength, parseRule, compositesOfType_node, if_pos rfl, List.singleton_append,
      List.map_cons, hpart.compositesOfType_eq (by decide), leavesOf_modifierItems, nameAt?,
      children, hpart.nameAmong?_eq hname, leavesOf_modifierItems]
    rfl

/-- **A file holds the blocks and rules that scanning finds.** -/
theorem finds_fileItems (ts : List Token) : Finds (fileItems ts) ts [] := by
  fun_induction fileItems ts with
  | case1 => exact .nil []
  | case2 t ts h ih =>
      have hblock := (isBlock_parseBlock h ts).finds
      rw [parseBlock_append] at hblock
      exact hblock.cons ih
  | case3 t ts _ modifiers name rest h ih => exact (finds_parseRule h).cons ih
  | case4 t ts hbrace hrule ih =>
      have hquiet : Quiet [t] ts := by
        refine ⟨by simpa using hbrace, Bool.eq_false_iff.2 fun hheader => ?_, trivial⟩
        obtain ⟨⟨modifiers, named⟩, hhead⟩ :=
          Option.isSome_iff_exists.1 (startsRule_of_startsHeader hheader)
        obtain ⟨name, rest, rfl⟩ := exists_name_of_ruleHead? hhead
        exact hrule _ _ _ hhead
      exact (Finds.leaves hquiet).cons ih

/-! ### Index by index -/

/-- The tokens of a list that are outside of its blocks and come first in a header, each with its
index, where `k` is the index of the first token. -/
def outsideNames (k : Nat) (ts : List Token) : List (Option (Nat × Token)) :=
  ((List.range' k ts.length).filter fun j =>
    (blockSpans k ts).all (isOutside j) && startsHeader (ts.drop (j - k))).map fun j =>
      ts[j - k]?.map (j, ·)

/-- Behind tokens at the front, the names are those of the rest alone, if the blocks are. -/
theorem outsideNames_append (k : Nat) (us ts : List Token) (h : ∀ j, k + us.length ≤ j →
      (blockSpans k (us ++ ts)).all (isOutside j) =
        (blockSpans (k + us.length) ts).all (isOutside j)) :
    outsideNames k (us ++ ts) = (((List.range' k us.length).filter fun j =>
      (blockSpans k (us ++ ts)).all (isOutside j) && startsHeader ((us ++ ts).drop (j - k))).map
        fun j => (us ++ ts)[j - k]?.map (j, ·)) ++ outsideNames (k + us.length) ts := by
  have hshift : ∀ j, k + us.length ≤ j → (us ++ ts).drop (j - k) =
      ts.drop (j - (k + us.length)) := by
    intro j hj
    obtain ⟨i, rfl⟩ := Nat.exists_eq_add_of_le hj
    rw [Nat.add_sub_cancel_left, Nat.add_assoc, Nat.add_sub_cancel_left,
      List.drop_length_add_append]
  have hrange : List.range' k (us ++ ts).length =
      List.range' k us.length ++ List.range' (k + us.length) ts.length := by
    rw [List.length_append, ← List.range'_append_1]
  rw [outsideNames, hrange, List.filter_append, List.map_append]
  congr 1
  have hfilter : ∀ j ∈ List.range' (k + us.length) ts.length,
      ((blockSpans k (us ++ ts)).all (isOutside j) && startsHeader ((us ++ ts).drop (j - k))) =
        ((blockSpans (k + us.length) ts).all (isOutside j) &&
          startsHeader (ts.drop (j - (k + us.length)))) := by
    intro j hj
    have hj := (List.mem_range'_1.1 hj).1
    rw [h j hj, hshift j hj]
  rw [List.filter_congr hfilter, outsideNames]
  refine List.map_congr_left fun j hj => ?_
  have hj := (List.mem_range'_1.1 (List.mem_filter.1 hj).1).1
  rw [← List.head?_drop, hshift j hj, List.head?_drop]

/-- A token that opens no block stands outside of all of them. -/
theorem outsideNames_cons (h : t.isOperator openBrace = false) (k : Nat) (ts : List Token) :
    outsideNames k (t :: ts) =
      (if startsHeader (t :: ts) then [some (k, t)] else []) ++ outsideNames (k + 1) ts := by
  have hspans : blockSpans k ([t] ++ ts) = blockSpans (k + 1) ts := blockSpans_of_not_brace h k ts
  have hfirst : (blockSpans (k + 1) ts).all (isOutside k) = true := by
    rw [List.all_eq_true]
    intro span hspan
    have := le_of_mem_blockSpans hspan
    simp [isOutside]
    omega
  have happ := outsideNames_append k [t] ts fun j _ => by rw [hspans]; rfl
  rw [hspans] at happ
  refine happ.trans (congrArg (· ++ _) ?_)
  cases hheader : startsHeader (t :: ts) <;> simp [hfirst, hheader]

/-- No token of a block is outside of it, and behind it the names are those of the rest. -/
theorem outsideNames_of_brace (h : t.isOperator openBrace = true) (k : Nat) (ts : List Token) :
    outsideNames k (t :: ts) =
      outsideNames (k + (t :: (upToBrace ts).1).length) (upToBrace ts).2 := by
  have happ : t :: ts = (t :: (upToBrace ts).1) ++ (upToBrace ts).2 := by
    rw [List.cons_append, upToBrace_append]
  have hspans := blockSpans_of_brace h k ts
  rw [happ] at hspans ⊢
  generalize t :: (upToBrace ts).1 = us at hspans ⊢
  have hbehind : ∀ j, k + us.length ≤ j →
      (blockSpans k (us ++ (upToBrace ts).2)).all (isOutside j) =
        (blockSpans (k + us.length) (upToBrace ts).2).all (isOutside j) := by
    intro j hj
    have hj : isOutside j (k, us) = true := by simp [isOutside, hj]
    rw [hspans, List.all_cons, hj, Bool.true_and]
  have hinside : ∀ j ∈ List.range' k us.length, ¬ ((blockSpans k (us ++ (upToBrace ts).2)).all
      (isOutside j) && startsHeader ((us ++ (upToBrace ts).2).drop (j - k))) = true := by
    intro j hj
    have hj : isOutside j (k, us) = false := by
      have := List.mem_range'_1.1 hj
      simp [isOutside]
      omega
    rw [hspans, List.all_cons, hj]
    simp
  rw [outsideNames_append k us _ hbehind, List.filter_eq_nil_iff.2 hinside]
  rfl

/-- The names that scanning meets are the tokens that name rules. -/
theorem headers_eq (k : Nat) (ts : List Token) : (headers k ts).map some = outsideNames k ts := by
  fun_induction headers k ts with
  | case1 => rfl
  | case2 k t ts h ih => rw [outsideNames_of_brace h, ih]
  | case3 k t ts h hh ih =>
      rw [outsideNames_cons (by simpa using h), if_pos hh, ← ih]
      rfl
  | case4 k t ts h hh ih =>
      rw [outsideNames_cons (by simpa using h), if_neg hh, ← ih]
      rfl

/-- **Reading finds exactly the blocks and rules of the tokens.** In every text, the attribute
blocks of the tree, in order, are the spans that braces enclose; and its rules, in order, have as
their names the identifiers outside of these spans that `::=` follows, one for one. -/
theorem parse_holds_scanned (text : String) :
    (((parse text).composites 0).filter fun c => c.2.type? == some .attrs).map
        (fun c => (c.1, c.2.leaves)) = blockSpans 0 (tokenize text) ∧
      (((parse text).composites 0).filter fun c => c.2.type? == some .rule).map
        (fun c => c.2.nameAt? c.1) =
          (ruleNames (tokenize text)).map (fun k => (tokenize text)[k]?.map (k, ·)) ∧
      (((parse text).composites 0).filter fun c => c.2.type? == some .rule).map
        (fun c => c.2.name?) =
          (ruleNames (tokenize text)).map (fun k => (tokenize text)[k]?.map Token.text) := by
  have hfinds := finds_fileItems (tokenize text)
  have hroot : ∀ type, type ≠ .file →
      ((parse text).composites 0).filter (fun c => c.2.type? == some type) =
        compositesOfType type 0 (fileItems (tokenize text)) := by
    intro type hne
    have hfile : (some ElementType.file == some type) = false := by simpa using Ne.symm hne
    rw [parse, parseFile, composites, List.filter_cons, type?, hfile]
    rfl
  have hnames : (compositesOfType .rule 0 (fileItems (tokenize text))).map
      (fun c => c.2.nameAt? c.1) =
        (ruleNames (tokenize text)).map fun k => (tokenize text)[k]?.map (k, ·) := by
    have hmet := hfinds.names 0
    rw [headers_eq, headers, List.map_nil, List.append_nil] at hmet
    rw [← hmet, outsideNames, ruleNames, List.range_eq_range']
    rfl
  refine ⟨?_, ?_, ?_⟩
  · rw [hroot _ (by decide), hfinds.blocks 0, blockSpans, List.append_nil]
  · rw [hroot _ (by decide), hnames]
  · have htexts := congrArg (List.map (Option.map fun x : Nat × Token => x.2.text)) hnames
    rw [hroot _ (by decide)]
    simpa [Function.comp_def, ← name?_eq, Option.map_map] using htexts

end

end Tree

end BnfSuppression
