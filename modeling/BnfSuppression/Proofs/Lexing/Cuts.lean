import BnfSuppression.Proofs.Lexing.Spelled

/-!
# Texts Cut Between Tokens

What follows a token can only make it longer: the rules ask what follows for a reason to go on, and
the end of the text is none. A token that is formed stays as it is, then, when the text behind it is
cut off, and no rule looks back at what stands before a token. Cutting a text between two of its
tokens leaves the same tokens on both sides.

## Main results

* `Lexer.Ends.of_isPrefix`: a token still ends where it does when less follows.
* `Token.Spelled.left`: the front of a spelled sequence is spelled.
* `located_cut`: **cutting a text between tokens cuts its tokens**.
-/

namespace BnfSuppression

namespace Lexer

variable {type : TokenType} {c : Char} {cs rest rest' : List Char}

/-- A prefix that is not empty starts with the character that the whole text starts with. -/
theorem head?_of_isPrefix {d : Char} (hp : rest' <+: rest) (hd : rest'.head? = some d) :
    rest.head? = some d := by
  obtain ⟨behind, rfl⟩ := hp
  rw [List.head?_append, hd]
  rfl

/-- What is not joined with a text is not joined with its front. -/
theorem joins_of_isPrefix (hp : rest' <+: rest) (hj : joins c rest = false) :
    joins c rest' = false := by
  obtain ⟨behind, rfl⟩ := hp
  unfold joins at hj ⊢
  split <;> simp_all

/-- The front of what ends a quoted text ends it. -/
theorem EndsQuoted.of_isPrefix (h : EndsQuoted rest) (hp : rest' <+: rest) : EndsQuoted rest' := by
  cases rest' with
  | nil => exact .inl rfl
  | cons d ds =>
      rcases h with rfl | rfl | ⟨e, he, hl⟩
      · simp at hp
      · refine .inr (.inl ?_)
        obtain ⟨rfl, hds⟩ := List.cons_prefix_cons.1 hp
        rw [List.prefix_nil.1 hds]
      · refine .inr (.inr ⟨d, rfl, ?_⟩)
        have hd := head?_of_isPrefix hp (rfl : (d :: ds).head? = some d)
        rw [he] at hd
        exact Option.some.inj hd ▸ hl

/-- **A token still ends where it does when less follows.** -/
theorem Ends.of_isPrefix (h : Ends type c cs rest) (hp : rest' <+: rest) :
    Ends type c cs rest' := by
  have hhead : ∀ d, rest'.head? = some d → rest.head? = some d := fun _ => head?_of_isPrefix hp
  cases h with
  | whitespace hc hin hout => exact .whitespace hc hin fun d hd => hout d (hhead d hd)
  | identifier hc hi hin hout => exact .identifier hc hi hin fun d hd => hout d (hhead d hd)
  | number hc hi hd hin hout => exact .number hc hi hd hin fun d hd => hout d (hhead d hd)
  | lineComment hin hout => exact .lineComment hin fun d hd => hout d (hhead d hd)
  | blockComment hbody =>
      refine .blockComment (blockBody_congr ?_ hbody)
      rintro rfl
      exact List.prefix_nil.1 hp
  | string hmark hbody => exact .string hmark (quotedBody_congr hmark (·.of_isPrefix hp) _ hbody)
  | assign => exact .assign
  | twice hc => exact .twice hc
  | single hs hj => exact .single hs (joins_of_isPrefix hp hj)
  | bad hc hs hq hq' hj => exact .bad hc hs hq hq' (joins_of_isPrefix hp hj)

end Lexer

namespace Token

variable {t : Token} {ts A B : List Token} {rest rest' : List Char}

/-- A token still ends where it does if less of the text follows, since the lexer looks ahead only
to stop. -/
theorem EndsBefore.of_isPrefix (h : t.EndsBefore rest) (hp : rest' <+: rest) :
    t.EndsBefore rest' := by
  obtain ⟨c, cs, htext, hends⟩ := h
  exact ⟨c, cs, htext, hends.of_isPrefix hp⟩

/-- **The front of a spelled sequence is spelled.** -/
theorem Spelled.left (h : Spelled (A ++ B)) : Spelled A := by
  induction A with
  | nil => trivial
  | cons t A ih =>
      have ht : t.EndsBefore (spell (A ++ B)) := h.1
      rw [spell_append] at ht
      exact ⟨ht.of_isPrefix (List.prefix_append _ _), ih h.2⟩

/-- The texts of tokens put together have the characters that the tokens spell. -/
theorem toList_join_map_text (ts : List Token) :
    (String.join (ts.map Token.text)).toList = spell ts := by
  rw [String.toList_join, List.flatMap_map, spell]

/-- A spelled sequence is read back from the texts of its tokens. -/
theorem Spelled.tokenize_join (h : Spelled ts) :
    tokenize (String.join (ts.map Token.text)) = ts := by
  rw [tokenize, toList_join_map_text, tokens_spell_iff.2 h]

end Token

/-! ### Offsets -/

/-- The first tokens with their offsets are the first of all tokens with their offsets. -/
theorem take_locate (offset k : ℕ) (ts : List Token) :
    (locate offset ts).take k = locate offset (ts.take k) := by
  induction ts generalizing offset k with
  | nil => simp [locate]
  | cons t ts ih =>
      cases k with
      | zero => rfl
      | succ k => rw [locate, List.take_succ_cons, ih, List.take_succ_cons, locate]

/-- The tokens behind some others are located behind the texts of those. -/
theorem drop_locate (offset k : ℕ) (ts : List Token) :
    (locate offset ts).drop k =
      locate (offset + (String.join ((ts.take k).map Token.text)).length) (ts.drop k) := by
  induction ts generalizing offset k with
  | nil => simp [locate]
  | cons t ts ih =>
      cases k with
      | zero => simp
      | succ k =>
          rw [locate, List.drop_succ_cons, ih, List.take_succ_cons, List.map_cons,
            List.drop_succ_cons, String.join_cons, String.length_append, Nat.add_assoc]

/-- Offsets may be counted from elsewhere. -/
theorem locate_add (n offset : ℕ) (ts : List Token) :
    locate (n + offset) ts = (locate offset ts).map fun p => (n + p.1, p.2) := by
  induction ts generalizing offset with
  | nil => rfl
  | cons t ts ih => rw [locate, locate, List.map_cons, ← ih, Nat.add_assoc]

/-- **Cutting a text between tokens cuts its tokens.** Whatever the text, and wherever between its
tokens it is cut, the front has the tokens in front with their offsets; the back has the other ones,
with offsets that count from the cut; and every token is the only one of its own text. -/
theorem located_cut (s : String) (k : ℕ) :
    let front := String.join (((tokenize s).take k).map Token.text)
    let back := String.join (((tokenize s).drop k).map Token.text)
    front ++ back = s ∧ located front = (located s).take k ∧
      (located s).drop k = (located back).map (fun p => (front.length + p.1, p.2)) ∧
      ∀ t ∈ tokenize s, tokenize t.text = [t] := by
  intro front back
  have hs : Token.Spelled (tokenize s) := Token.spelled_tokens s.toList
  rw [← List.take_append_drop k (tokenize s)] at hs
  have hfront : tokenize front = (tokenize s).take k := hs.left.tokenize_join
  have hback : tokenize back = (tokenize s).drop k := hs.right.tokenize_join
  refine ⟨?_, ?_, ?_, fun t ht => ?_⟩
  · rw [← String.toList_inj, String.toList_append, Token.toList_join_map_text,
      Token.toList_join_map_text, ← Token.spell_append, List.take_append_drop]
    exact flatMap_tokenize s
  · rw [located, hfront, located, take_locate]
  · rw [located, drop_locate, located, hback, ← locate_add, Nat.zero_add, Nat.add_zero]
  · obtain ⟨rest, hends⟩ := (Token.spelled_tokens s.toList).endsBefore_of_mem ht
    have halone : Token.Spelled [t] := ⟨hends.of_isPrefix List.nil_prefix, trivial⟩
    simpa using halone.tokenize_join

/-- A backslash that ends the text is no part of the quoted text before it, with or without it. -/
example : located "'a\\" = [(0, ⟨.string, "'a"⟩), (2, ⟨.badCharacter, "\\"⟩)] ∧
    located "'a" = [(0, ⟨.string, "'a"⟩)] := by
  decide +kernel

end BnfSuppression
