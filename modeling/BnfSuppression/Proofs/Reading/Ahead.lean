import BnfSuppression.Proofs.Reading

/-!
# Reading Is Local

What is read before a place of a text depends on what follows there only through the next solid
token: whether it is an operator that is looked for, and whether a rule or an attribute starts with
it. `Ahead` says of two ways to go on that they do not differ in this. All that is read before the
place, and ends there at the latest, is then read in the same way.

## Main results

* `Tree.Ahead.parseAttr`, `Tree.Ahead.parseBlock`, `Tree.Ahead.parseRule`: the same for each item.
* `Tree.Ahead.blockItems_items`, `Tree.Ahead.fileItems_items`: the same for the items of a block
  and those of a file.
-/

namespace BnfSuppression

namespace Tree

/-- Two ways for a text to go on, from the token `y` on, that what is read before it does not tell
apart: the second may have white space and comments before the token, but none on its line. -/
structure Ahead (y : Token) (K K' : List Token) : Prop where
  head : ∃ us, K = y :: us
  solid : y.isTrivia = false
  operator : ∀ spelling, spelling ≠ openBrace → y.isOperator spelling = false
  next : (skipTrivia K').head? = some y
  space : inlineSpace K' = ([], K')
  value : ∀ first depth, valueSpan first depth K = ([], K) → valueSpan first depth K' = ([], K')
  rule : startsRule K' = true → startsRule K = true

/-- The two braces are different operators. -/
theorem closeBrace_ne : closeBrace ≠ openBrace := by decide

/-- Whether tokens start with an operator depends on the first one alone. -/
theorem startsWith_eq (spelling : String) (ts : List Token) :
    startsWith spelling ts = ts.head?.any fun t => t.isOperator spelling := by
  cases ts <;> rfl

namespace Ahead

variable {y : Token} {K K' S M R : List Token}

/-- The first way to go on starts with a solid token, so nothing is skipped in it. -/
theorem skipTrivia_eq (H : Ahead y K K') : skipTrivia K = K := by
  obtain ⟨us, rfl⟩ := H.head
  exact List.dropWhile_cons_of_neg (by simp [H.solid])

/-- The next solid token is the same. -/
theorem head?_skipTrivia (H : Ahead y K K') (S : List Token) :
    (skipTrivia (S ++ K')).head? = (skipTrivia (S ++ K)).head? := by
  obtain ⟨us, hK⟩ := id H.head
  simp only [skipTrivia, List.dropWhile_append]
  split
  · have := H.next
    rw [skipTrivia] at this
    rw [this, ← skipTrivia, H.skipTrivia_eq, hK]
    rfl
  · next hne =>
    cases hs : List.dropWhile Token.isTrivia S with
    | nil => simp [hs] at hne
    | cons t ts => rfl

/-- The next solid token is the same operator or none, whichever way the text goes on. -/
theorem startsWith_skipTrivia (H : Ahead y K K') (spelling : String) (S : List Token) :
    startsWith spelling (skipTrivia (S ++ K')) = startsWith spelling (skipTrivia (S ++ K)) := by
  rw [startsWith_eq, startsWith_eq, H.head?_skipTrivia]

/-- Whether an attribute starts at a token does not depend on the way the text goes on. -/
theorem startsAttr_cons (H : Ahead y K K') (t : Token) (S : List Token) :
    startsAttr (t :: (S ++ K')) = startsAttr (t :: (S ++ K)) := by
  rw [startsAttr, startsAttr, H.startsWith_skipTrivia, H.startsWith_skipTrivia]

/-- The next token is of no use to what is read before it, if it is not a brace that opens. -/
theorem startsWith_right (H : Ahead y K K') {spelling : String} (h : spelling ≠ openBrace) :
    startsWith spelling K' = false := by
  cases hK : K' with
  | nil => rfl
  | cons k ks =>
      rw [startsWith]
      cases hk : k.isTrivia with
      | true => exact isOperator_of_isTrivia hk _
      | false =>
          have hnext := H.next
          rw [hK, skipTrivia, List.dropWhile_cons_of_neg (by simp [hk])] at hnext
          obtain rfl : k = y := by simpa using hnext
          exact H.operator _ h

/-- Whether an operator other than an opening brace comes first does not depend on the way the text
goes on. -/
theorem startsWith_append (H : Ahead y K K') {spelling : String} (h : spelling ≠ openBrace)
    (S : List Token) : startsWith spelling (S ++ K') = startsWith spelling (S ++ K) := by
  cases S with
  | cons t S => rfl
  | nil =>
      obtain ⟨us, rfl⟩ := id H.head
      rw [List.nil_append, List.nil_append, H.startsWith_right h, startsWith, H.operator _ h]

/-- What is read up to here leaves the rest. -/
theorem eq_nil_of_append (h : M ++ (R ++ K) = K) : M = [] ∧ R = [] := by
  have := congrArg List.length h
  simp only [List.length_append] at this
  exact ⟨List.eq_nil_of_length_eq_zero (by omega), List.eq_nil_of_length_eq_zero (by omega)⟩

/-! ### Spans -/

/-- White space on the line that is read up to the token is read the same way if the text goes on
the other way. -/
theorem inlineSpace (H : Ahead y K K') (h : inlineSpace (S ++ K) = (M, R ++ K)) :
    Tree.inlineSpace (S ++ K') = (M, R ++ K') := by
  cases S with
  | nil =>
      have happ := inlineSpace_append ([] ++ K)
      rw [h] at happ
      obtain ⟨rfl, rfl⟩ := eq_nil_of_append happ
      exact H.space
  | cons t S =>
      simp only [List.cons_append, Tree.inlineSpace] at h ⊢
      split at h
      · next ht =>
        obtain ⟨rfl, hr⟩ := Prod.mk.inj h
        rw [if_pos ht, List.append_cancel_right hr]
      · next ht =>
        obtain ⟨rfl, hr⟩ := Prod.mk.inj h
        obtain rfl : t :: S = R := List.append_cancel_right hr
        rw [if_neg ht]
        rfl

/-- A pattern that ends before the token ends there too if the text goes on the other way. -/
theorem patternSpan (H : Ahead y K K') (h : patternSpan (S ++ K) = (M, R ++ K)) :
    Tree.patternSpan (S ++ K') = (M, R ++ K') := by
  induction S generalizing M with
  | nil =>
      have happ := patternSpan_append ([] ++ K)
      rw [h] at happ
      obtain ⟨rfl, rfl⟩ := eq_nil_of_append happ
      obtain ⟨us, rfl⟩ := id H.head
      simp only [List.nil_append, Tree.patternSpan] at h
      split at h <;> simp at h
  | cons t S ih =>
      simp only [List.cons_append, Tree.patternSpan, H.startsWith_append closeBrace_ne] at h ⊢
      split at h
      · next ht =>
        obtain ⟨rfl, hr⟩ := Prod.mk.inj h
        rw [if_pos ht, List.append_cancel_right hr]
      · next ht =>
        obtain ⟨rfl, hr⟩ := Prod.mk.inj h
        rw [if_neg ht, ih (Prod.ext rfl hr)]

/-- A value that ends before the token ends there too if the text goes on the other way. -/
theorem valueSpan (H : Ahead y K K') {first : Bool} {depth : Nat}
    (h : valueSpan first depth (S ++ K) = (M, R ++ K)) :
    Tree.valueSpan first depth (S ++ K') = (M, R ++ K') := by
  induction S generalizing M R first depth with
  | nil =>
      have happ := valueSpan_append first depth ([] ++ K)
      rw [h] at happ
      obtain ⟨rfl, rfl⟩ := eq_nil_of_append happ
      exact H.value first depth h
  | cons t S ih =>
      rw [List.cons_append] at h ⊢
      cases ht : t.isTrivia with
      | true =>
          have happ := valueSpan_append false depth (S ++ K)
          rw [valueSpan_of_isTrivia ht] at h ⊢
          split at h
          · next hnil =>
            obtain ⟨rfl, hr⟩ := Prod.mk.inj h
            rw [hnil, List.nil_append] at happ
            rw [ih (M := []) (R := S) (Prod.ext hnil happ), if_pos rfl]
            obtain rfl : t :: S = R := List.append_cancel_right hr
            rfl
          · next hne =>
            obtain ⟨rfl, hr⟩ := Prod.mk.inj h
            rw [ih (Prod.ext rfl hr), if_neg hne]
      | false =>
          simp only [Tree.valueSpan, ht, Bool.false_eq_true, if_false, H.startsAttr_cons] at h ⊢
          split at h
          · next hstop =>
            obtain ⟨rfl, hr⟩ := Prod.mk.inj h
            obtain rfl : t :: S = R := List.append_cancel_right hr
            rw [if_pos hstop]
            rfl
          · next hstop =>
            obtain ⟨rfl, hr⟩ := Prod.mk.inj h
            rw [if_neg hstop, ih (Prod.ext rfl hr)]

/-- What the white space and comments in front are followed by is seen before or after `K`. -/
theorem skipTrivia_append (H : Ahead y K K') (S : List Token) :
    (skipTrivia (S ++ K) = K ∧ leadingTrivia (S ++ K) = S ∧
      (skipTrivia (S ++ K')).head? = some y) ∨
    ∃ t ts, skipTrivia (S ++ K) = t :: (ts ++ K) ∧ skipTrivia (S ++ K') = t :: (ts ++ K') ∧
      leadingTrivia (S ++ K') = leadingTrivia (S ++ K) := by
  cases hs : skipTrivia S with
  | nil =>
      left
      have hall : ∀ t ∈ S, t.isTrivia = true := List.dropWhile_eq_nil_iff.1 hs
      have hskip : skipTrivia (S ++ K) = K := by
        rw [skipTrivia, List.dropWhile_append_of_pos hall, ← skipTrivia, H.skipTrivia_eq]
      obtain ⟨us, hK⟩ := id H.head
      refine ⟨hskip, ?_, ?_⟩
      · have := leadingTrivia_append (S ++ K)
        rw [hskip] at this
        exact List.append_cancel_right this
      · rw [H.head?_skipTrivia, hskip, hK]
        rfl
  | cons t ts =>
      right
      have hskip : ∀ L, skipTrivia (S ++ L) = t :: (ts ++ L) := by
        intro L
        rw [skipTrivia] at hs
        rw [skipTrivia, List.dropWhile_append, hs]
        rfl
      have hlead : ∀ L, leadingTrivia (S ++ L) = leadingTrivia S := by
        intro L
        have hall := leadingTrivia_append (S ++ L)
        have hS : leadingTrivia S ++ (t :: ts) ++ L = S ++ L := by
          rw [← hs, leadingTrivia_append]
        rw [hskip] at hall
        exact List.append_cancel_right (hall.trans (hS.symm.trans (List.append_assoc _ _ _)))
      exact ⟨t, ts, hskip K, hskip K', by rw [hlead, hlead]⟩

/-- Only white space and comments stand between the end of what is read and `K`, or a solid token
that is read in the same way whatever follows. -/
theorem semicolon (H : Ahead y K K') {between : Token → Bool}
    (h : semicolon between (S ++ K) = (M, R ++ K)) :
    Tree.semicolon between (S ++ K') = (M, R ++ K') := by
  have hsemi : y.isOperator ";" = false := H.operator _ (by decide)
  rcases H.skipTrivia_append S with ⟨hK, -, hK'⟩ | ⟨t, ts, hK, hK', hlead⟩
  · obtain ⟨us, hy⟩ := id H.head
    obtain ⟨us', hy'⟩ := List.head?_eq_some_iff.1 hK'
    rw [semicolon_eq (hK.trans hy), hsemi, Bool.false_and, if_neg (by simp)] at h
    obtain ⟨rfl, hr⟩ := Prod.mk.inj h
    rw [semicolon_eq hy', hsemi, Bool.false_and, if_neg (by simp), List.append_cancel_right hr]
  · rw [semicolon_eq hK] at h
    rw [semicolon_eq hK', hlead]
    split at h
    · next hs =>
      obtain ⟨rfl, hr⟩ := Prod.mk.inj h
      rw [if_pos hs, List.append_cancel_right hr]
    · next hs =>
      obtain ⟨rfl, hr⟩ := Prod.mk.inj h
      rw [if_neg hs, List.append_cancel_right hr]

/-- An operator that is missing is missing too if the text goes on the other way. -/
theorem operator_none (H : Ahead y K K') {spelling : String}
    (h : Tree.operator spelling (S ++ K) = none) (hs : spelling ≠ openBrace) :
    Tree.operator spelling (S ++ K') = none := by
  have hy : y.isOperator spelling = false := H.operator _ hs
  rcases H.skipTrivia_append S with ⟨-, -, hK'⟩ | ⟨t, ts, hK, hK', -⟩
  · obtain ⟨us', hy'⟩ := List.head?_eq_some_iff.1 hK'
    rw [operator_eq hy', if_neg (by simp [hy])]
  · rw [operator_eq hK] at h
    rw [operator_eq hK']
    split at h
    · simp at h
    · next ht => rw [if_neg ht]

/-- An operator that is read before the token is read too if the text goes on the other way. -/
theorem operator_some (H : Ahead y K K') {spelling : String} (hs : spelling ≠ openBrace)
    (h : Tree.operator spelling (S ++ K) = some (M, R ++ K)) :
    Tree.operator spelling (S ++ K') = some (M, R ++ K') := by
  rcases H.skipTrivia_append S with ⟨hK, hlead, -⟩ | ⟨t, ts, hK, hK', hlead⟩
  · obtain ⟨us, hy⟩ := id H.head
    rw [operator_eq (hK.trans hy), if_neg (by simp [H.operator _ hs])] at h
    simp at h
  · rw [operator_eq hK] at h
    rw [operator_eq hK', hlead]
    split at h
    · next ht =>
      obtain ⟨rfl, hr⟩ := Prod.mk.inj (Option.some.inj h)
      rw [if_pos ht, List.append_cancel_right hr]
    · simp at h

/-! ### Attributes -/

variable {Ts : List Tree} {T : Tree}

/-- A pattern is read the same way, or missing both times, whichever way the text goes on. -/
theorem parsePattern (H : Ahead y K K') (h : parsePattern (S ++ K) = (Ts, R ++ K)) :
    Tree.parsePattern (S ++ K') = (Ts, R ++ K') := by
  rw [Tree.parsePattern] at h ⊢
  rw [H.startsWith_skipTrivia]
  split at h
  · next hp =>
    rw [if_pos hp]
    rcases H.skipTrivia_append S with ⟨hK, -, -⟩ | ⟨t, ts, hK, hK', hlead⟩
    · obtain ⟨us, hy⟩ := id H.head
      rw [hK, hy, startsWith, H.operator _ (by decide)] at hp
      simp at hp
    · rw [hK] at h
      obtain ⟨rfl, hr⟩ := Prod.mk.inj h
      have hspan := H.patternSpan (S := t :: ts) (Prod.ext rfl hr)
      rw [hK', ← List.cons_append, hspan, hlead]
      rfl
  · next hp =>
    obtain ⟨rfl, hr⟩ := Prod.mk.inj h
    rw [if_neg hp, List.append_cancel_right hr]

/-- A value is read the same way, or missing both times, whichever way the text goes on. -/
theorem parseValue (H : Ahead y K K') (h : parseValue (S ++ K) = (Ts, R ++ K)) :
    Tree.parseValue (S ++ K') = (Ts, R ++ K') := by
  rw [Tree.parseValue] at h ⊢
  split at h
  · next hnone =>
    obtain ⟨rfl, hr⟩ := Prod.mk.inj h
    rw [H.operator_none hnone (by decide)]
    rw [List.append_cancel_right hr]
  · next sign rest hsome =>
    rcases hspace : Tree.inlineSpace rest with ⟨space, rest₁⟩
    rcases hvalue : Tree.valueSpan true 0 rest₁ with ⟨value, rest₂⟩
    simp only [hspace, hvalue] at h
    obtain ⟨rfl, rfl⟩ := Prod.mk.inj h
    -- what each part leaves ends in `K`
    have happ₁ := inlineSpace_append rest
    have happ₂ := valueSpan_append true 0 rest₁
    rw [hspace] at happ₁
    rw [hvalue] at happ₂
    obtain rfl : rest₁ = (value ++ R) ++ K := by simpa using happ₂.symm
    obtain rfl : rest = (space ++ (value ++ R)) ++ K := by simpa using happ₁.symm
    simp only [H.operator_some (by decide) hsome, H.inlineSpace hspace, H.valueSpan hvalue]

/-- **An attribute before `K`** is read in the same way whatever follows. -/
theorem parseAttr (H : Ahead y K K') {name : Token} (h : parseAttr name (S ++ K) = (T, R ++ K)) :
    Tree.parseAttr name (S ++ K') = (T, R ++ K') := by
  rcases hpattern : Tree.parsePattern (S ++ K) with ⟨pattern, rest₁⟩
  rcases hvalue : Tree.parseValue rest₁ with ⟨value, rest₂⟩
  rcases hclose : Tree.semicolon Token.isInlineSpace rest₂ with ⟨close, rest₃⟩
  simp only [Tree.parseAttr, hpattern, hvalue, hclose] at h
  obtain ⟨rfl, rfl⟩ := Prod.mk.inj h
  have happ₂ := parseValue_append rest₁
  have happ₃ := semicolon_append Token.isInlineSpace rest₂
  rw [hvalue] at happ₂
  rw [hclose] at happ₃
  obtain rfl : rest₂ = (close ++ R) ++ K := by simpa using happ₃.symm
  obtain rfl : rest₁ = (leavesOf value ++ (close ++ R)) ++ K := by simpa using happ₂.symm
  simp only [Tree.parseAttr, H.parsePattern hpattern, H.parseValue hvalue, H.semicolon hclose]

/-! ### Blocks -/

/-- The items of a block that is closed before `K` are read in the same way whatever follows. -/
theorem blockItems (H : Ahead y K K') (h : blockItems (S ++ K) = (Ts, R ++ K)) :
    Tree.blockItems (S ++ K') = (Ts, R ++ K') := by
  induction hn : S.length using Nat.strong_induction_on generalizing S Ts with
  | _ n ih =>
    cases S with
    | nil =>
        obtain ⟨us, rfl⟩ := id H.head
        have hlt := length_blockItems_lt y us
        rw [← List.nil_append (y :: us), h] at hlt
        simp only [List.nil_append, List.length_append, List.length_cons] at hlt
        omega
    | cons t S =>
        rw [List.cons_append, blockItems.eq_2] at h ⊢
        rw [H.startsAttr_cons]
        split at h
        · next ht =>
          obtain ⟨rfl, hr⟩ := Prod.mk.inj h
          rw [if_pos ht, List.append_cancel_right hr]
        · next ht =>
          rw [if_neg ht]
          split at h
          · next ha =>
            rcases hattr : Tree.parseAttr t (S ++ K) with ⟨attr, rest₁⟩
            rcases hitems : Tree.blockItems rest₁ with ⟨items, rest₂⟩
            simp only [hattr, hitems] at h
            obtain ⟨rfl, rfl⟩ := Prod.mk.inj h
            have happ := blockItems_append rest₁
            have hle := length_parseAttr_le t (S ++ K)
            rw [hitems] at happ
            obtain rfl : rest₁ = (leavesOf items ++ R) ++ K := by simpa using happ.symm
            have hlen : (leavesOf items ++ R).length < n := by
              rw [hattr] at hle
              simp only [List.length_append, List.length_cons] at hle hn ⊢
              omega
            rw [if_pos ha, H.parseAttr hattr]
            simp only [ih _ hlen hitems rfl]
          · next ha =>
            rcases hitems : Tree.blockItems (S ++ K) with ⟨items, rest⟩
            simp only [hitems] at h
            obtain ⟨rfl, rfl⟩ := Prod.mk.inj h
            rw [if_neg ha, ih S.length (by simp at hn; omega) hitems rfl]

/-- A block that ends before the token is read the same way, whichever way the text goes on. -/
theorem parseBlock (H : Ahead y K K') {brace : Token}
    (h : parseBlock brace (S ++ K) = (T, R ++ K)) :
    Tree.parseBlock brace (S ++ K') = (T, R ++ K') := by
  rcases hitems : Tree.blockItems (S ++ K) with ⟨items, rest⟩
  simp only [Tree.parseBlock, hitems] at h
  obtain ⟨rfl, rfl⟩ := Prod.mk.inj h
  simp only [Tree.parseBlock, H.blockItems hitems]

/-- **Items of a block before `K`**, where `K` goes on with items of the same block. -/
theorem blockItems_items (H : Ahead y K K')
    (h : (Tree.blockItems (leavesOf Ts ++ K)).1 = Ts ++ (Tree.blockItems K).1) :
    Tree.blockItems (leavesOf Ts ++ K') =
      (Ts ++ (Tree.blockItems K').1, (Tree.blockItems K').2) := by
  induction Ts with
  | nil => rfl
  | cons T Ts ih =>
      rw [leavesOf, List.append_assoc] at h ⊢
      cases hL : T.leaves ++ (leavesOf Ts ++ K) with
      | nil => simp [hL, Tree.blockItems] at h
      | cons t ts =>
          rw [hL, blockItems.eq_2] at h
          split at h
          · -- the block would end before `K`
            obtain ⟨us, rfl⟩ := id H.head
            have hnil := (List.cons.inj h).2
            exact absurd (List.append_eq_nil_iff.1 hnil.symm).2 (blockItems_ne_nil y us)
          · next ht =>
            split at h
            · next ha =>
              obtain ⟨hT, hTs⟩ := List.cons.inj h
              obtain ⟨S, hS⟩ := leaves_parseAttr t ts
              have happ := parseAttr_append t ts
              rw [hT] at hS happ
              have hrest := List.append_cancel_left (happ.trans hL.symm)
              rw [hrest] at hTs
              rw [hS, List.cons_append, ← List.append_assoc] at hL
              obtain ⟨-, rfl⟩ := List.cons.inj hL
              have hattr := H.parseAttr (S := S ++ leavesOf Ts) (Prod.ext hT hrest)
              rw [hS, List.cons_append, ← List.append_assoc, blockItems.eq_2, if_neg ht,
                H.startsAttr_cons, if_pos ha, hattr, ih hTs]
              rfl
            · next ha =>
              obtain ⟨rfl, hTs⟩ := List.cons.inj h
              rw [leaves, List.singleton_append] at hL ⊢
              obtain ⟨-, rfl⟩ := List.cons.inj hL
              rw [blockItems.eq_2, if_neg ht, H.startsAttr_cons, if_neg ha, ih hTs]
              rfl

/-! ### Rules -/

/-- **A rule starts before `K`** or not, whatever follows. -/
theorem ruleHead? (H : Ahead y K K') : (S : List Token) → S ≠ [] →
    (Tree.ruleHead? (S ++ K) = none → Tree.ruleHead? (S ++ K') = none) ∧
      ∀ M R, R ≠ [] → Tree.ruleHead? (S ++ K) = some (M, R ++ K) →
        Tree.ruleHead? (S ++ K') = some (M, R ++ K')
  | [], h => absurd rfl h
  | [t], _ => by
    obtain ⟨us, hK⟩ := id H.head
    obtain ⟨k, ks, hK'⟩ : ∃ k ks, K' = k :: ks :=
      List.exists_cons_of_ne_nil (by rintro rfl; simpa [Tree.skipTrivia] using H.next)
    have hy : y.isInlineSpace = false := by
      have := H.solid
      rw [Token.isTrivia, TokenType.isTrivia_eq, Bool.or_eq_false_iff] at this
      simp [Token.isInlineSpace, Token.isWhitespace, this.1]
    have hk : k.isInlineSpace = false := by
      have := H.space
      rw [hK', Tree.inlineSpace] at this
      split at this
      · simp at this
      · next hk => simpa using hk
    have hassign := H.startsWith_skipTrivia "::=" []
    simp only [List.nil_append, hK, hK'] at hassign
    simp only [List.singleton_append, hK, hK', Tree.ruleHead?, hassign, hy, hk, Bool.false_and]
    split
    · simp
    · split
      · simp only [Option.some.injEq, Prod.mk.injEq, reduceCtorEq, false_implies, true_and]
        rintro M R - ⟨rfl, hR⟩
        obtain rfl : [t] = R := List.append_cancel_right hR
        exact ⟨rfl, rfl⟩
      · simp
  | t :: n :: S, _ => by
    have hassign := H.startsWith_skipTrivia "::=" (n :: S)
    simp only [List.cons_append] at hassign
    simp only [List.cons_append, Tree.ruleHead?, hassign]
    split
    · simp
    · split
      · simp only [Option.some.injEq, Prod.mk.injEq, reduceCtorEq, false_implies, true_and]
        rintro M R - ⟨rfl, hR⟩
        obtain rfl : t :: n :: S = R := List.append_cancel_right hR
        exact ⟨rfl, rfl⟩
      · split
        · rcases eq_or_ne S [] with rfl | hS
          · constructor
            · intro h
              rw [Option.map_eq_none_iff] at h ⊢
              have := H.rule
              simp_all [startsRule]
            · -- the rule would start in `K`
              intro M R hR h
              obtain ⟨⟨M', R'⟩, hh, he⟩ := Option.map_eq_some_iff.1 h
              obtain ⟨-, rfl⟩ := Prod.mk.inj he
              exact absurd (eq_nil_of_append (ruleHead?_append hh)).2 hR
          · obtain ⟨ihnone, ihsome⟩ := H.ruleHead? S hS
            constructor
            · intro h
              rw [Option.map_eq_none_iff] at h ⊢
              exact ihnone h
            · intro M R hR h
              obtain ⟨⟨M', R'⟩, hh, he⟩ := Option.map_eq_some_iff.1 h
              obtain ⟨rfl, rfl⟩ := Prod.mk.inj he
              rw [ihsome M' R hR hh]
              rfl
        · simp

/-- Where no rule starts before the token, none starts if the text goes on the other way. -/
theorem startsRule_cons (H : Ahead y K K') {t : Token}
    (h : startsRule (t :: (S ++ K)) = false) : startsRule (t :: (S ++ K')) = false := by
  rw [startsRule, Option.isSome_eq_false_iff, Option.isNone_iff_eq_none] at h ⊢
  exact (H.ruleHead? (t :: S) (by simp)).1 h

/-- An expression before `K` is read in the same way, if what is left over after it starts no
further one. -/
theorem expressionSpan (H : Ahead y K K') (h : expressionSpan (S ++ K) = (M, R ++ K))
    (hstop : (Tree.expressionSpan (R ++ K')).1 = []) :
    Tree.expressionSpan (S ++ K') = (M, R ++ K') := by
  have happ := expressionSpan_append (R ++ K')
  rw [hstop, List.nil_append] at happ
  induction S generalizing M with
  | nil =>
      have happ' := expressionSpan_append ([] ++ K)
      rw [h] at happ'
      obtain ⟨rfl, rfl⟩ := eq_nil_of_append happ'
      exact Prod.ext hstop happ
  | cons t S ih =>
      rw [List.cons_append] at h ⊢
      cases ht : t.isTrivia with
      | true =>
          rw [expressionSpan_of_isTrivia ht] at h
          split at h
          · obtain ⟨rfl, hr⟩ := Prod.mk.inj h
            obtain rfl : t :: S = R := List.append_cancel_right hr
            exact Prod.ext hstop happ
          · next hne =>
            obtain ⟨rfl, hr⟩ := Prod.mk.inj h
            rw [expressionSpan_of_isTrivia ht, ih (Prod.ext rfl hr), if_neg hne]
      | false =>
          rw [Tree.expressionSpan, if_neg (by simp [ht])] at h
          split at h
          · obtain ⟨rfl, hr⟩ := Prod.mk.inj h
            obtain rfl : t :: S = R := List.append_cancel_right hr
            exact Prod.ext hstop happ
          · next hgo =>
            obtain ⟨rfl, hr⟩ := Prod.mk.inj h
            rw [Bool.not_eq_true, Bool.or_eq_false_iff] at hgo
            rw [Tree.expressionSpan, if_neg (by simp [ht]),
              if_neg (by simp [hgo.1, H.startsRule_cons hgo.2]), ih (Prod.ext rfl hr)]

/-- A rule's block does not start at `K`. -/
theorem not_openBrace (H : Ahead y K K') (hK : skipTrivia (S ++ K) = K)
    (h : Tree.parseRuleBlock (S ++ K) = (Ts, R ++ K)) : y.isOperator openBrace = false := by
  obtain ⟨us, hy⟩ := id H.head
  rw [parseRuleBlock_eq (hK.trans hy)] at h
  by_contra hb
  rw [Bool.not_eq_false] at hb
  rw [if_pos hb] at h
  have hle := length_parseBlock_le y us
  have hlen := congrArg (fun r => r.2.length) h
  simp only [List.length_append, hy, List.length_cons] at hlen
  omega

/-- A rule's block ends before `K`, or there is none. -/
theorem parseRuleBlock (H : Ahead y K K') (h : parseRuleBlock (S ++ K) = (Ts, R ++ K)) :
    Tree.parseRuleBlock (S ++ K') = (Ts, R ++ K') := by
  rcases H.skipTrivia_append S with ⟨hK, -, hK'⟩ | ⟨t, ts, hK, hK', hlead⟩
  · obtain ⟨us, hy⟩ := id H.head
    obtain ⟨us', hy'⟩ := List.head?_eq_some_iff.1 hK'
    have hb := H.not_openBrace hK h
    rw [parseRuleBlock_eq (hK.trans hy), if_neg (by simp [hb])] at h
    obtain ⟨rfl, hr⟩ := Prod.mk.inj h
    rw [parseRuleBlock_eq hy', if_neg (by simp [hb]), List.append_cancel_right hr]
  · rw [parseRuleBlock_eq hK] at h
    rw [parseRuleBlock_eq hK', hlead]
    split at h
    · next hb =>
      obtain ⟨rfl, hr⟩ := Prod.mk.inj h
      rw [if_pos hb, H.parseBlock (Prod.ext rfl hr)]
    · next hb =>
      obtain ⟨rfl, hr⟩ := Prod.mk.inj h
      rw [if_neg hb, List.append_cancel_right hr]

/-- An expression ends before a block and a semicolon, and without them where the rule ends. -/
theorem expressionSpan_eq_nil (H : Ahead y K K') {Q : List Token} {between : Token → Bool}
    (hblock : Tree.parseRuleBlock (S ++ K) = (Ts, Q ++ K))
    (hclose : Tree.semicolon between (Q ++ K) = (M, R ++ K))
    (hstop : (Tree.expressionSpan (R ++ K)).1 = [] → (Tree.expressionSpan (R ++ K')).1 = [])
    (h : (Tree.expressionSpan (S ++ K)).1 = []) : (Tree.expressionSpan (S ++ K')).1 = [] := by
  -- what is left over is all there was, if the block and the semicolon are missing
  have hnone : ∀ t us, skipTrivia (S ++ K) = t :: us → t.isOperator openBrace = false →
      t.isOperator ";" = false → S = R := by
    intro t us ht hb hs
    rw [parseRuleBlock_eq ht, if_neg (by simp [hb])] at hblock
    obtain rfl : S = Q := List.append_cancel_right (Prod.mk.inj hblock).2
    rw [semicolon_eq ht, if_neg (by simp [hs])] at hclose
    exact List.append_cancel_right (Prod.mk.inj hclose).2
  rcases H.skipTrivia_append S with ⟨hK, -, -⟩ | ⟨t, ts, hK, hK', -⟩
  · obtain ⟨us, hy⟩ := id H.head
    obtain rfl := hnone y us (hK.trans hy) (H.not_openBrace hK hblock) (H.operator _ (by decide))
    exact hstop h
  · cases hb : t.isOperator openBrace with
    | true => simp [expressionSpan_eq_nil_iff hK', hb]
    | false =>
        cases hs : t.isOperator ";" with
        | true => simp [expressionSpan_eq_nil_iff hK', hs]
        | false =>
            obtain rfl := hnone t _ hK hb hs
            exact hstop h

/-- An operator that may be missing is read the same way, whichever way the text goes on. -/
theorem operator_getD (H : Ahead y K K') {spelling : String} (hs : spelling ≠ openBrace)
    (h : (Tree.operator spelling (S ++ K)).getD ([], S ++ K) = (M, R ++ K)) :
    (Tree.operator spelling (S ++ K')).getD ([], S ++ K') = (M, R ++ K') := by
  cases ho : Tree.operator spelling (S ++ K) with
  | none =>
      rw [ho] at h
      obtain ⟨rfl, hr⟩ := Prod.mk.inj h
      rw [H.operator_none ho hs, List.append_cancel_right hr]
      rfl
  | some taken =>
      rw [ho, Option.getD_some] at h
      rw [H.operator_some hs (ho.trans (congrArg some h))]
      rfl

/-- **A rule before `K`** is read in the same way, if what follows the rule keeps on ending its
expression. -/
theorem parseRuleBody (H : Ahead y K K') (h : parseRuleBody (S ++ K) = (Ts, R ++ K))
    (hstop : (Tree.expressionSpan (R ++ K)).1 = [] → (Tree.expressionSpan (R ++ K')).1 = []) :
    Tree.parseRuleBody (S ++ K') = (Ts, R ++ K') := by
  rcases hsign : (Tree.operator "::=" (S ++ K)).getD ([], S ++ K) with ⟨sign, rest₁⟩
  rcases hspace : Tree.inlineSpace rest₁ with ⟨space, rest₂⟩
  rcases hexpr : Tree.expressionSpan rest₂ with ⟨expression, rest₃⟩
  rcases hblock : Tree.parseRuleBlock rest₃ with ⟨block, rest₄⟩
  rcases hclose : Tree.semicolon Token.isWhitespace rest₄ with ⟨close, rest₅⟩
  simp only [Tree.parseRuleBody, hsign, hspace, hexpr, hblock, hclose] at h
  obtain ⟨rfl, rfl⟩ := Prod.mk.inj h
  -- what each part leaves ends in `K`
  have happ₂ := inlineSpace_append rest₁
  have happ₃ := expressionSpan_append rest₂
  have happ₄ := parseRuleBlock_append rest₃
  have happ₅ := semicolon_append Token.isWhitespace rest₄
  rw [hspace] at happ₂
  rw [hexpr] at happ₃
  rw [hblock] at happ₄
  rw [hclose] at happ₅
  obtain rfl : rest₄ = (close ++ R) ++ K := by simpa using happ₅.symm
  obtain rfl : rest₃ = (leavesOf block ++ (close ++ R)) ++ K := by simpa using happ₄.symm
  obtain rfl : rest₂ = (expression ++ (leavesOf block ++ (close ++ R))) ++ K := by
    simpa using happ₃.symm
  obtain rfl : rest₁ = (space ++ (expression ++ (leavesOf block ++ (close ++ R)))) ++ K := by
    simpa using happ₂.symm
  have hrest := expressionSpan_rest ((expression ++ (leavesOf block ++ (close ++ R))) ++ K)
  rw [hexpr] at hrest
  simp only [Tree.parseRuleBody, H.operator_getD (by decide) hsign, H.inlineSpace hspace,
    H.expressionSpan hexpr (H.expressionSpan_eq_nil hblock hclose hstop hrest),
    H.parseRuleBlock hblock, H.semicolon hclose]

/-- A rule that ends before the token is read the same way, if an expression stops there both
times. -/
theorem parseRule (H : Ahead y K K') {modifiers : List Token} {name : Token}
    (h : parseRule modifiers name (S ++ K) = (T, R ++ K))
    (hstop : (Tree.expressionSpan (R ++ K)).1 = [] → (Tree.expressionSpan (R ++ K')).1 = []) :
    Tree.parseRule modifiers name (S ++ K') = (T, R ++ K') := by
  rcases hbody : Tree.parseRuleBody (S ++ K) with ⟨body, rest⟩
  simp only [Tree.parseRule, hbody] at h
  obtain ⟨rfl, rfl⟩ := Prod.mk.inj h
  simp only [Tree.parseRule, H.parseRuleBody hbody hstop]

/-! ### Files -/

/-- Where an expression ends before what a file holds, it ends there whatever follows. -/
theorem expressionSpan_items (H : Ahead y K K')
    (h : fileItems (leavesOf Ts ++ K) = Ts ++ fileItems K)
    (h' : fileItems (leavesOf Ts ++ K') = Ts ++ fileItems K')
    (hstop : (Tree.expressionSpan K').1 = [])
    (hs : (Tree.expressionSpan (leavesOf Ts ++ K)).1 = []) :
    (Tree.expressionSpan (leavesOf Ts ++ K')).1 = [] := by
  rcases H.skipTrivia_append (leavesOf Ts) with ⟨-, hlead, -⟩ | ⟨t, ts, hK, hK', hlead⟩
  · refine expressionSpan_of_trivia (fun t ht => ?_) hstop
    rw [← hlead] at ht
    exact List.mem_takeWhile_imp ht
  · rw [expressionSpan_eq_nil_iff hK, Bool.or_eq_true] at hs
    rw [expressionSpan_eq_nil_iff hK', Bool.or_eq_true]
    refine hs.imp_right fun hrule => ?_
    obtain ⟨cs, us, hcs⟩ := (startsRule_iff _ _).1 hrule
    have htrivia : ∀ u ∈ leadingTrivia (leavesOf Ts ++ K), u.isTrivia = true := fun u hu =>
      List.mem_takeWhile_imp hu
    have hall := leadingTrivia_append (leavesOf Ts ++ K)
    have hall' := leadingTrivia_append (leavesOf Ts ++ K')
    rw [hK] at hall
    rw [hK', hlead] at hall'
    generalize leadingTrivia (leavesOf Ts ++ K) = lead at htrivia hall hall'
    rw [← hall, fileItems_append htrivia, hcs] at h
    rw [← hall', fileItems_append htrivia] at h'
    -- the rule is an item of those before `K`
    have hlen := congrArg List.length hall
    simp only [List.length_append, List.length_cons] at hlen
    obtain ⟨Zs, rfl, hZ⟩ : ∃ Zs, Ts = lead.map leaf ++ Zs ∧
        node .rule cs :: us = Zs ++ fileItems K := by
      rcases List.append_eq_append_iff.1 h with hpre | ⟨Zs, hT, -⟩
      · exact hpre
      · have hlen' := congrArg (fun Us => (leavesOf Us).length) hT
        simp only [leavesOf_map_leaf, leavesOf_append, List.length_append] at hlen'
        omega
    cases Zs with
    | nil =>
        simp only [List.append_nil, leavesOf_map_leaf] at hlen
        omega
    | cons Z Zs =>
        obtain ⟨rfl, -⟩ := List.cons.inj hZ
        rw [List.append_assoc] at h'
        exact (startsRule_iff _ _).2 ⟨cs, _, List.append_cancel_left h'⟩

/-- A block of attributes before `K` is read again, from the same brace. -/
theorem block_item {t : Token} {ts R : List Token} {T : Tree} (H : Ahead y K K')
    (hblock : Tree.parseBlock t ts = (T, R ++ K)) :
    ∃ ts', T.leaves ++ (R ++ K') = t :: ts' ∧ Tree.parseBlock t ts' = (T, R ++ K') := by
  obtain ⟨S, hS⟩ := leaves_parseBlock t ts
  have happ := parseBlock_append t ts
  rw [hblock] at hS happ
  rw [hS, List.cons_append, ← List.append_assoc] at happ
  obtain ⟨-, rfl⟩ := List.cons.inj happ
  refine ⟨S ++ R ++ K', ?_, H.parseBlock hblock⟩
  rw [hS, List.cons_append, List.append_assoc]

/-- A rule before `K` is read again, from the same head. -/
theorem rule_item {t n : Token} {ts m r R : List Token} {T : Tree} (H : Ahead y K K')
    (hr : Tree.ruleHead? (t :: ts) = some (m, n :: r))
    (hrule : Tree.parseRule m n r = (T, R ++ K))
    (hstop : (Tree.expressionSpan (R ++ K)).1 = [] → (Tree.expressionSpan (R ++ K')).1 = []) :
    ∃ ts' r', T.leaves ++ (R ++ K') = t :: ts' ∧
      Tree.ruleHead? (t :: ts') = some (m, n :: r') ∧ Tree.parseRule m n r' = (T, R ++ K') := by
  obtain ⟨S, hS⟩ := leaves_parseRule m n r
  have happ := parseRule_append m n r
  rw [hrule] at hS happ
  -- what stands before `K` behind the name
  obtain rfl : r = (S ++ R) ++ K := by
    have hname := happ
    rw [hS] at hname
    simpa using hname.symm
  -- and behind the first token
  obtain ⟨S', hS'⟩ : ∃ S', m ++ n :: S = t :: S' := by
    have hhead := ruleHead?_append hr
    cases m with
    | nil => exact ⟨S, by rw [(List.cons.inj hhead).1]; rfl⟩
    | cons u m => exact ⟨m ++ n :: S, by rw [(List.cons.inj hhead).1]; rfl⟩
  rw [ruleHead?_append hr, hS, hS', List.cons_append, ← List.append_assoc] at happ
  obtain ⟨-, rfl⟩ := List.cons.inj happ
  have hr' := (H.ruleHead? (t :: (S' ++ R)) (by simp)).2 m (n :: (S ++ R)) (by simp) hr
  refine ⟨S' ++ R ++ K', S ++ R ++ K', ?_, hr', H.parseRule hrule hstop⟩
  rw [hS, hS', List.cons_append, List.append_assoc]

/-- **What a file holds before `K`** is read in the same way whatever follows. -/
theorem fileItems_items (H : Ahead y K K') (hstop : (Tree.expressionSpan K').1 = [])
    (h : fileItems (leavesOf Ts ++ K) = Ts ++ fileItems K) :
    fileItems (leavesOf Ts ++ K') = Ts ++ fileItems K' := by
  induction Ts with
  | nil => rfl
  | cons T Ts ih =>
      rw [leavesOf, List.append_assoc] at h ⊢
      cases hL : T.leaves ++ (leavesOf Ts ++ K) with
      | nil => simp [hL, fileItems] at h
      | cons t ts =>
          rw [hL] at h
          rcases fileItems_cases t ts with ⟨hb, he⟩ | ⟨m, n, r, hb, hr, he⟩ | ⟨hb, hr, he⟩
          · obtain ⟨hT, hTs⟩ := List.cons.inj (he.symm.trans h)
            have happ := parseBlock_append t ts
            rw [hT] at happ
            have hrest := List.append_cancel_left (happ.trans hL.symm)
            rw [hrest] at hTs
            obtain ⟨ts', hL', hblock⟩ := H.block_item (Prod.ext hT hrest)
            rw [hL', fileItems_block hb, hblock, ih hTs]
            rfl
          · obtain ⟨hT, hTs⟩ := List.cons.inj (he.symm.trans h)
            have happ := (parseRule_append m n r).trans (ruleHead?_append hr)
            rw [hT] at happ
            have hrest := List.append_cancel_left (happ.trans hL.symm)
            rw [hrest] at hTs
            obtain ⟨ts', r', hL', hr', hrule⟩ := H.rule_item hr (Prod.ext hT hrest)
              (H.expressionSpan_items hTs (ih hTs) hstop)
            rw [hL', fileItems_rule hb hr', hrule, ih hTs]
            rfl
          · obtain ⟨rfl, hTs⟩ := List.cons.inj (he.symm.trans h)
            rw [leaves, List.singleton_append] at hL ⊢
            obtain ⟨-, rfl⟩ := List.cons.inj hL
            have hr' := (H.ruleHead? (t :: leavesOf Ts) (by simp)).1 hr
            rw [List.cons_append] at hr'
            rw [fileItems_leaf hb hr', ih hTs]
            rfl

end Ahead

end Tree

end BnfSuppression
