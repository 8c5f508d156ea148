import BnfSuppression.Proofs.Lexing
import Mathlib.Data.List.Chain

/-!
# Sequences of Tokens as Texts

A sequence of tokens is `Spelled` if each of them ends, by the rules of the lexer, where the next
one starts. These are the sequences that are read back from their texts. Comments on lines of their
own may be written before an identifier of such a sequence, unless a stray slash stands right before
the identifier: read again, that slash swallows the comment.

## Main results

* `Token.tokens_spell_iff`: **a sequence of tokens is read back if it is spelled**.
* `Token.Spelled.insert`, `Token.Spelled.replace`: comments may be written into spelled sequences.
-/

namespace BnfSuppression

namespace Token

/-- The characters of tokens, one after the other. -/
def spell (ts : List Token) : List Char := ts.flatMap fun t => t.text.toList

/-- No tokens spell no characters. -/
@[simp]
theorem spell_nil : spell [] = [] := rfl

/-- The characters of the first token come before those of the others. -/
@[simp]
theorem spell_cons (t : Token) (ts : List Token) : spell (t :: ts) = t.text.toList ++ spell ts := by
  simp [spell]

/-- The characters of the first tokens come before those of the others. -/
@[simp]
theorem spell_append (ts us : List Token) : spell (ts ++ us) = spell ts ++ spell us := by
  simp [spell]

/-- A token that the lexer cuts off a text where `rest` follows it. -/
def EndsBefore (t : Token) (rest : List Char) : Prop :=
  ∃ c cs, t.text.toList = c :: cs ∧ Lexer.Ends t.type c cs rest

/-- Each token ends where the next one starts. -/
def Spelled : List Token → Prop
  | [] => True
  | t :: ts => t.EndsBefore (spell ts) ∧ Spelled ts

variable {t u c y b : Token} {ts A B : List Token} {rest rest' : List Char}

/-- A token that ends where the rest starts is read first, and then the rest is read. -/
theorem EndsBefore.tokens_eq (h : t.EndsBefore rest) :
    tokens (t.text.toList ++ rest) = t :: tokens rest := by
  obtain ⟨d, ds, htext, hends⟩ := h
  have ht : t = ⟨t.type, String.ofList (d :: ds)⟩ := by
    rw [← htext, String.ofList_toList]
  rw [htext, List.cons_append, tokens, Lexer.cut_of_ends hends, ← ht]

/-- The first token that is read ends by the rules. -/
theorem endsBefore_of_tokens {cs : List Char} (h : tokens cs = t :: ts) :
    t.EndsBefore (spell ts) ∧ tokens (spell ts) = ts := by
  cases cs with
  | nil => simp [tokens] at h
  | cons d cs =>
      rw [tokens] at h
      obtain ⟨rfl, hts⟩ := List.cons.inj h
      have hrest : spell ts = (Lexer.cut d cs).2.2 := by
        rw [spell, ← hts, flatMap_tokens]
      refine ⟨⟨d, (Lexer.cut d cs).2.1, by simp, ?_⟩, by rw [hrest, hts]⟩
      rw [hrest, ← Lexer.cut_eq_iff, Lexer.cut_append]

/-- **A sequence of tokens is read back from its text if it is spelled.** -/
theorem tokens_spell_iff : tokens (spell ts) = ts ↔ Spelled ts := by
  induction ts with
  | nil => simp [tokens, Spelled]
  | cons t ts ih =>
      constructor
      · intro h
        obtain ⟨ht, hts⟩ := endsBefore_of_tokens h
        exact ⟨ht, ih.1 hts⟩
      · rintro ⟨ht, hts⟩
        rw [spell_cons, ht.tokens_eq, ih.2 hts]

/-- Each token that is read from a text ends where the next one starts. -/
theorem spelled_tokens (cs : List Char) : Spelled (tokens cs) := by
  rw [← tokens_spell_iff, spell, flatMap_tokens]

/-- The last tokens of a spelled list are spelled, since only what follows a token matters to it. -/
theorem Spelled.right (h : Spelled (A ++ B)) : Spelled B := by
  induction A with
  | nil => exact h
  | cons t A ih => exact ih h.2

/-- Each of a sequence of tokens ends somewhere by the rules. -/
theorem Spelled.endsBefore_of_mem (h : Spelled ts) (ht : t ∈ ts) : ∃ rest, t.EndsBefore rest := by
  obtain ⟨A, B, rfl⟩ := List.append_of_mem ht
  exact ⟨_, h.right.1⟩

/-! ### First characters -/

/-- A token that the lexer cuts off has at least one character. -/
theorem EndsBefore.text_ne_nil (h : t.EndsBefore rest) : t.text.toList ≠ [] := by
  obtain ⟨d, ds, htext, -⟩ := h
  simp [htext]

/-- An identifier starts like one. -/
theorem EndsBefore.of_identifier (h : t.EndsBefore rest) (ht : t.isIdentifier = true) :
    ∃ d ds, t.text.toList = d :: ds ∧ Lexer.startsIdentifier d = true := by
  obtain ⟨d, ds, htext, hends⟩ := h
  obtain ⟨type, text⟩ := t
  obtain rfl : type = .identifier := by simpa [isIdentifier] using ht
  cases hends with
  | identifier _ hi _ _ => exact ⟨d, ds, htext, hi⟩

/-- A line comment starts with two slashes, and ends with the line. -/
theorem endsBefore_iff_of_lineComment (ht : t.type = .lineComment) :
    t.EndsBefore rest ↔
      ∃ ds, t.text.toList = '/' :: '/' :: ds ∧ (∀ d ∈ ds, Lexer.endsLine d = false) ∧
        ∀ d, rest.head? = some d → Lexer.endsLine d = true := by
  constructor
  · rintro ⟨d, ds, htext, hends⟩
    obtain ⟨type, text⟩ := t
    obtain rfl : type = .lineComment := ht
    cases hends with
    | lineComment hin hout => exact ⟨_, htext, hin, hout⟩
  · rintro ⟨ds, htext, hin, hout⟩
    exact ⟨'/', '/' :: ds, htext, ht ▸ .lineComment hin hout⟩

/-- A block comment starts with a slash and a star. -/
theorem EndsBefore.of_blockComment (h : t.EndsBefore rest) (ht : t.type = .blockComment) :
    ∃ ds, t.text.toList = '/' :: '*' :: ds := by
  obtain ⟨d, ds, htext, hends⟩ := h
  obtain ⟨type, text⟩ := t
  obtain rfl : type = .blockComment := ht
  cases hends with
  | blockComment => exact ⟨_, htext⟩

/-- A comment starts with a slash. -/
theorem EndsBefore.of_comment (h : t.EndsBefore rest) (ht : t.isComment = true) :
    ∃ ds, t.text.toList = '/' :: ds := by
  cases htype : t.type with
  | lineComment =>
      obtain ⟨ds, htext, -⟩ := (endsBefore_iff_of_lineComment htype).1 h
      exact ⟨_, htext⟩
  | blockComment =>
      obtain ⟨ds, htext⟩ := h.of_blockComment htype
      exact ⟨_, htext⟩
  | _ => simp [isComment, TokenType.isComment, htype] at ht

/-- White space consists of blanks, and a token after it starts with another character. -/
theorem EndsBefore.of_whitespace (h : t.EndsBefore rest) (ht : t.isWhitespace = true) :
    (∀ d ∈ t.text.toList, Text.isBlank d = true) ∧
      ∀ d, rest.head? = some d → Text.isBlank d = false := by
  obtain ⟨d, ds, htext, hends⟩ := h
  obtain ⟨type, text⟩ := t
  obtain rfl : type = .whitespace := by simpa [isWhitespace] using ht
  cases hends with
  | whitespace hb hin hout =>
      rw [htext]
      exact ⟨by simpa using ⟨hb, hin⟩, hout⟩

/-- Any other token starts with a character that is no blank. -/
theorem EndsBefore.of_not_whitespace (h : t.EndsBefore rest) (ht : t.isWhitespace = false) :
    ∃ d ds, t.text.toList = d :: ds ∧ Text.isBlank d = false := by
  obtain ⟨d, ds, htext, hends⟩ := h
  obtain ⟨type, text⟩ := t
  refine ⟨d, ds, htext, ?_⟩
  cases hends with
  | whitespace => simp [isWhitespace] at ht
  | identifier hb => exact hb
  | number hb => exact hb
  | lineComment => decide
  | blockComment => decide
  | string hmark => rcases hmark with rfl | rfl <;> decide
  | assign => decide
  | twice hc => rcases hc with rfl | rfl <;> decide
  | single hs => exact (Lexer.of_single hs).1.blank
  | bad hc => exact hc.blank

/-- A text that starts with such a token does not start with a blank. -/
theorem Spelled.head_not_blank (h : Spelled (t :: ts)) (ht : t.isWhitespace = false) :
    ∀ d, (spell (t :: ts)).head? = some d → Text.isBlank d = false := by
  obtain ⟨e, es, he, hblank⟩ := h.1.of_not_whitespace ht
  rw [spell_cons, he]
  rintro _ ⟨⟩
  exact hblank

/-- Blanks before another character are white space. -/
theorem endsBefore_of_blanks {text : String} (hne : text.toList ≠ [])
    (hin : ∀ d ∈ text.toList, Text.isBlank d = true)
    (hout : ∀ d, rest.head? = some d → Text.isBlank d = false) :
    EndsBefore ⟨.whitespace, text⟩ rest := by
  obtain ⟨d, ds, htext⟩ := List.exists_cons_of_ne_nil hne
  rw [htext] at hin
  exact ⟨d, ds, htext, .whitespace (hin d (by simp)) (fun e he => hin e (by simp [he])) hout⟩

/-! ### Stray slashes -/

/-- A slash that starts no comment. -/
def isStraySlash (t : Token) : Bool := t.type == .badCharacter && t.text == "/"

/-- A stray slash swallows a comment right after it: read again, the two are one comment. -/
def swallows (t u : Token) : Bool := t.isStraySlash && u.isComment

/-- No comment stands right after a stray slash. -/
def Clear (ts : List Token) : Prop := ts.IsChain fun t u => t.swallows u = false

instance : Decidable (Clear ts) :=
  inferInstanceAs (Decidable (ts.IsChain fun t u => t.swallows u = false))

/-- What is read from a text is clear. -/
theorem Spelled.clear (h : Spelled ts) : Clear ts := by
  induction ts with
  | nil => exact List.isChain_nil
  | cons t ts ih =>
      cases ts with
      | nil => exact List.isChain_singleton t
      | cons u ts =>
          refine List.isChain_cons_cons.2 ⟨?_, ih h.2⟩
          rw [swallows, Bool.and_eq_false_iff]
          by_contra hs
          simp only [not_or, Bool.not_eq_false, isStraySlash, Bool.and_eq_true, beq_iff_eq] at hs
          obtain ⟨⟨htype, htext⟩, hu⟩ := hs
          obtain ⟨d, ds, hds, hends⟩ := h.1
          obtain ⟨es, hes⟩ := h.2.1.of_comment hu
          -- the slash and the first one of the comment are joined
          rw [htext] at hds
          obtain ⟨rfl, rfl⟩ : '/' = d ∧ [] = ds := by simpa using hds
          rw [htype, spell_cons, hes] at hends
          cases hends with
          | bad _ _ _ _ hn => simp [Lexer.joins] at hn

/-! ### Writing comments -/

/-- Behind further tokens, what follows a token may be exchanged. -/
theorem EndsBefore.exchange (h : t.EndsBefore (spell (u :: A) ++ rest)) (hu : u.text.toList ≠ [])
    (hassign : rest'.head? = some '=' → rest.head? = some '=') (hnil : rest = [] → rest' = []) :
    t.EndsBefore (spell (u :: A) ++ rest') := by
  obtain ⟨d, ds, htext, hends⟩ := h
  obtain ⟨e, es, he⟩ := List.exists_cons_of_ne_nil hu
  refine ⟨d, ds, htext, ?_⟩
  simp only [spell_cons, he, List.cons_append] at hends ⊢
  refine hends.of_cons ?_ ?_
  · cases es ++ spell A with
    | nil => exact hassign
    | cons a as => simp
  · cases es ++ spell A with
    | nil => exact hnil
    | cons a as => simp

/-- **What follows some tokens may be exchanged** if the last of them still ends there. -/
theorem Spelled.exchange {ts' : List Token} (h : Spelled (A ++ ts)) (hts : Spelled ts')
    (hlast : ∀ t, A.getLast? = some t → t.EndsBefore (spell ts) → t.EndsBefore (spell ts'))
    (hassign : (spell ts').head? = some '=' → (spell ts).head? = some '=')
    (hnil : spell ts = [] → spell ts' = []) : Spelled (A ++ ts') := by
  induction A with
  | nil => exact hts
  | cons t A ih =>
      cases A with
      | nil => exact ⟨hlast t rfl h.1, hts⟩
      | cons u A =>
          have hrest := ih h.2 fun v hv => hlast v (by simpa using hv)
          refine ⟨?_, hrest⟩
          have ht : t.EndsBefore (spell ((u :: A) ++ ts)) := h.1
          rw [spell_append] at ht
          show t.EndsBefore (spell ((u :: A) ++ ts'))
          rw [spell_append]
          exact ht.exchange h.2.1.text_ne_nil hassign hnil

/-- A line comment, and a line break with white space after it. -/
structure IsLine (c b : Token) : Prop where
  comment : c.type = .lineComment
  whole : c.EndsBefore []
  break_type : b.type = .whitespace
  break_text : ∃ cs, b.text.toList = '\n' :: cs ∧ ∀ d ∈ cs, Text.isBlank d = true

/-- A comment on a line of its own is spelled, if what follows does not start with a blank. -/
theorem IsLine.spelled (h : IsLine c b) (hts : Spelled ts)
    (hout : ∀ d, (spell ts).head? = some d → Text.isBlank d = false) : Spelled (c :: b :: ts) := by
  obtain ⟨cs, hb, hin⟩ := h.break_text
  obtain ⟨ds, hc, hline, -⟩ := (endsBefore_iff_of_lineComment h.comment).1 h.whole
  refine ⟨(endsBefore_iff_of_lineComment h.comment).2 ⟨ds, hc, hline, ?_⟩, ?_, hts⟩
  · rw [spell_cons, hb]
    rintro _ ⟨⟩
    decide
  · obtain ⟨type, text⟩ := b
    obtain rfl : type = .whitespace := h.break_type
    refine endsBefore_of_blanks (by simp [hb]) ?_ hout
    rw [hb]
    intro d hd
    rcases List.mem_cons.1 hd with rfl | hd
    · decide
    · exact hin d hd

/-- **A comment may be written before an identifier**, unless a stray slash swallows it. -/
theorem Spelled.insert (h : Spelled (A ++ y :: B)) (hy : y.isIdentifier = true) (hc : IsLine c b)
    (hclear : ∀ t, A.getLast? = some t → t.isStraySlash = false) :
    Spelled (A ++ c :: b :: y :: B) := by
  have hright := h.right
  obtain ⟨d, ds, hd, hi⟩ := hright.1.of_identifier hy
  obtain ⟨cs, hcs, -⟩ := (endsBefore_iff_of_lineComment hc.comment).1 hc.whole
  have hns : y.isWhitespace = false := by
    simp only [isIdentifier, beq_iff_eq] at hy
    simp [isWhitespace, hy]
  refine h.exchange (hc.spelled hright (hright.head_not_blank hns)) ?_ ?_ ?_
  · rintro t ht ⟨e, es, htext, hends⟩
    rw [spell_cons, hd] at hends
    refine ⟨e, es, htext, ?_⟩
    rw [spell_cons, hcs]
    refine hends.of_identifier hi ?_
    rintro htype rfl
    have hno := hclear t ht
    rw [htype] at hends
    cases hends with
    | bad =>
        have hslash : t.text = "/" := String.toList_inj.1 htext
        simp [isStraySlash, htype, hslash] at hno
  · simp [hcs]
  · simp [hd]

/-- **A line comment may be exchanged for another one.** -/
theorem Spelled.replace (h : Spelled (A ++ c :: B)) (hc : c.type = .lineComment)
    (hy : y.type = .lineComment) (hwhole : y.EndsBefore []) : Spelled (A ++ y :: B) := by
  have hright := h.right
  obtain ⟨cs, hcs, -, hout⟩ := (endsBefore_iff_of_lineComment hc).1 hright.1
  obtain ⟨ds, hds, hin, -⟩ := (endsBefore_iff_of_lineComment hy).1 hwhole
  refine h.exchange ⟨(endsBefore_iff_of_lineComment hy).2 ⟨ds, hds, hin, hout⟩, hright.2⟩ ?_ ?_ ?_
  · rintro t - ⟨e, es, htext, hends⟩
    rw [spell_cons, hcs] at hends
    refine ⟨e, es, htext, ?_⟩
    rw [spell_cons, hds]
    exact hends.of_cons (by simp) (by simp)
  · simp [hds]
  · simp [hcs]

end Token

end BnfSuppression
