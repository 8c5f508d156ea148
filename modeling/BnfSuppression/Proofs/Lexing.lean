import BnfSuppression.Token.Lexer
import Mathlib.Data.List.TakeWhile

/-!
# Where Tokens End

Whether a text is cut after a token depends on the few characters that follow. `Lexer.Ends` lists
the rules by which the lexer cuts, one for each kind of token, with what may stand behind the cut.
From these rules it follows what happens to the cuts of a text when comments are written into it.

## Main results

* `Lexer.cut_eq_iff`: **the lexer cuts by the rules**.
* `Lexer.Ends.of_identifier`, `Lexer.Ends.of_cons`: what may stand behind a cut in place of an
  identifier, and behind the first character of something else.
-/

namespace BnfSuppression

namespace Lexer

/-! ### The rules -/

/-- A character that is no white space, no digit, and no start of an identifier. -/
structure IsSymbol (c : Char) : Prop where
  blank : Text.isBlank c = false
  identifier : startsIdentifier c = false
  decimal : Text.isDecimal c = false

/-- A text is not cut before a character that the rules read together with the one before. -/
def joins (c : Char) : List Char → Bool
  | '/' :: _ | '*' :: _ => c == '/'
  | ':' :: '=' :: _ => c == ':'
  | '<' :: _ => c == '<'
  | '>' :: _ => c == '>'
  | _ => false

/-- A token of the given type is `c :: cs` where `rest` follows. -/
inductive Ends : TokenType → Char → List Char → List Char → Prop
  | whitespace {c : Char} {cs rest : List Char} :
    Text.isBlank c = true → (∀ d ∈ cs, Text.isBlank d = true) →
    (∀ d, rest.head? = some d → Text.isBlank d = false) → Ends .whitespace c cs rest
  | identifier {c : Char} {cs rest : List Char} :
    Text.isBlank c = false → startsIdentifier c = true → (∀ d ∈ cs, continuesIdentifier d = true) →
    (∀ d, rest.head? = some d → continuesIdentifier d = false) → Ends .identifier c cs rest
  | number {c : Char} {cs rest : List Char} :
    Text.isBlank c = false → startsIdentifier c = false → Text.isDecimal c = true →
    (∀ d ∈ cs, Text.isDecimal d = true) →
    (∀ d, rest.head? = some d → Text.isDecimal d = false) → Ends .number c cs rest
  | lineComment {cs rest : List Char} :
    (∀ d ∈ cs, endsLine d = false) → (∀ d, rest.head? = some d → endsLine d = true) →
    Ends .lineComment '/' ('/' :: cs) rest
  | blockComment {cs rest : List Char} :
    blockBody (cs ++ rest) = (cs, rest) → Ends .blockComment '/' ('*' :: cs) rest
  | string {mark : Char} {cs rest : List Char} :
    mark = '\'' ∨ mark = '"' → quotedBody mark (cs ++ rest) = (cs, rest) →
    Ends .string mark cs rest
  | assign {rest : List Char} : Ends .operator ':' [':', '='] rest
  | twice {c : Char} {rest : List Char} : c = '<' ∨ c = '>' → Ends .operator c [c] rest
  | single {c : Char} {rest : List Char} :
    singles.contains c = true → joins c rest = false → Ends .operator c [] rest
  | bad {c : Char} {rest : List Char} :
    IsSymbol c → singles.contains c = false → c ≠ '\'' → c ≠ '"' → joins c rest = false →
    Ends .badCharacter c [] rest

/-- A run ends exactly where its class of characters ends. -/
theorem run_eq_iff {type type' : TokenType} {p : Char → Bool} {cs rest : List Char} :
    run type p (cs ++ rest) = (type', cs, rest) ↔
      type = type' ∧ (∀ d ∈ cs, p d = true) ∧ ∀ d, rest.head? = some d → p d = false := by
  rw [run, Prod.mk.injEq, Prod.mk.injEq]
  refine and_congr_right fun _ => ⟨fun ⟨ht, hd⟩ => ?_, fun ⟨hin, hout⟩ => ?_⟩
  · have hin : ∀ d ∈ cs, p d = true := by
      rw [← ht]
      exact fun d hd => List.mem_takeWhile_imp hd
    refine ⟨hin, fun d hr => ?_⟩
    rw [List.dropWhile_append_of_pos hin] at hd
    cases rest with
    | nil => simp at hr
    | cons e rest =>
        obtain rfl : e = d := by simpa using hr
        by_contra hp
        rw [List.dropWhile_cons_of_pos (by simpa using hp)] at hd
        have := congrArg List.length hd
        have hle := (List.dropWhile_sublist p (l := rest)).length_le
        simp only [List.length_cons] at this
        omega
  · rw [List.takeWhile_append_of_pos hin, List.dropWhile_append_of_pos hin]
    cases rest with
    | nil => simp
    | cons e rest => simp [hout e rfl]

/-- What the lexer cuts off is a token of its type, and it ends where the rest starts. -/
theorem ends_of_cut {type : TokenType} {c : Char} {cs rest : List Char}
    (h : cut c (cs ++ rest) = (type, cs, rest)) : Ends type c cs rest := by
  unfold cut at h
  split at h
  · next hb =>
    obtain ⟨rfl, hin, hout⟩ := run_eq_iff.1 h
    exact .whitespace hb hin hout
  · next hb =>
    split at h
    · next hi =>
      obtain ⟨rfl, hin, hout⟩ := run_eq_iff.1 h
      exact .identifier (by simpa using hb) hi hin hout
    · next hi =>
      split at h
      · next hd =>
        obtain ⟨rfl, hin, hout⟩ := run_eq_iff.1 h
        exact .number (by simpa using hb) (by simpa using hi) hd hin hout
      · next hd =>
        have hc : IsSymbol c := ⟨by simpa using hb, by simpa using hi, by simpa using hd⟩
        split at h
        · next tail htail =>
          obtain ⟨rfl, hin, hout⟩ := run_eq_iff.1 h
          cases cs with
          | nil =>
              rw [List.nil_append] at htail
              have := hout '/' (by rw [htail]; rfl)
              simp [endsLine] at this
          | cons d cs =>
              obtain rfl : d = '/' := (List.cons.inj htail).1
              refine .lineComment (fun e he => ?_) fun e he => by simpa using hout e he
              simpa using hin e (List.mem_cons_of_mem _ he)
        · next tail htail =>
          obtain ⟨rfl, rfl, htail'⟩ : .blockComment = type ∧ '*' :: (blockBody tail).1 = cs ∧
            (blockBody tail).2 = rest := by simpa using h
          have hbody : (blockBody tail).1 ++ rest = tail := (List.cons.inj htail).2
          exact .blockComment (hbody.symm ▸ Prod.ext rfl htail')
        · obtain ⟨rfl, hbody⟩ := Prod.mk.inj h
          exact .string (.inl rfl) hbody
        · obtain ⟨rfl, hbody⟩ := Prod.mk.inj h
          exact .string (.inr rfl) hbody
        · obtain ⟨rfl, rfl, -⟩ : .operator = type ∧ [':', '='] = cs ∧ _ := by simpa using h
          exact .assign
        · obtain ⟨rfl, rfl, -⟩ : .operator = type ∧ ['<'] = cs ∧ _ := by simpa using h
          exact .twice (.inl rfl)
        · obtain ⟨rfl, rfl, -⟩ : .operator = type ∧ ['>'] = cs ∧ _ := by simpa using h
          exact .twice (.inr rfl)
        · next c _ _ hq hq' h₁ h₂ h₃ h₄ h₅ =>
          obtain ⟨htype, hrest⟩ := Prod.mk.inj h
          obtain ⟨rfl, -⟩ := Prod.mk.inj hrest
          have hjoins : joins c rest = false := by
            unfold joins
            split <;> simp only [beq_eq_false_iff_ne] <;> rintro rfl
            · exact h₁ _ rfl rfl
            · exact h₂ _ rfl rfl
            · exact h₃ _ rfl rfl
            · exact h₄ _ rfl rfl
            · exact h₅ _ rfl rfl
          cases hs : singles.contains c with
          | true =>
              rw [hs, if_pos rfl] at htype
              exact htype ▸ .single hs hjoins
          | false =>
              rw [hs, if_neg (by simp)] at htype
              exact htype ▸ .bad hc hs hq hq' hjoins

/-- The operators of one character are symbols, and start neither comments nor quoted texts. -/
theorem of_single {c : Char} (h : singles.contains c = true) :
    IsSymbol c ∧ c ≠ '\'' ∧ c ≠ '"' ∧ c ≠ '/' := by
  have hall : singles.all (fun d => !Text.isBlank d && !startsIdentifier d && !Text.isDecimal d &&
      d != '\'' && d != '"' && d != '/') = true := by decide
  have hc := List.all_eq_true.1 hall c (List.contains_iff_mem.1 h)
  simp only [Bool.and_eq_true, Bool.not_eq_true', bne_iff_ne] at hc
  obtain ⟨⟨⟨⟨⟨hb, hi⟩, hd⟩, hq⟩, hq'⟩, hs⟩ := hc
  exact ⟨⟨hb, hi, hd⟩, hq, hq', hs⟩

/-- Two slashes start a comment, which goes on to the end of the line. -/
theorem cut_slash_slash (cs : List Char) :
    cut '/' ('/' :: cs) = run .lineComment (!endsLine ·) ('/' :: cs) := by
  unfold cut
  rw [if_neg (by decide), if_neg (by decide), if_neg (by decide)]
  rfl

/-- A slash and a star start a comment, which goes on to its closing marks or to the end of the
text. -/
theorem cut_slash_star (cs : List Char) :
    cut '/' ('*' :: cs) = (.blockComment, '*' :: (blockBody cs).1, (blockBody cs).2) := by
  unfold cut
  rw [if_neg (by decide), if_neg (by decide), if_neg (by decide)]
  rfl

/-- A quotation mark starts a string, which goes on to the same mark or to the end of the line. -/
theorem cut_mark {mark : Char} (h : mark = '\'' ∨ mark = '"') (cs : List Char) :
    cut mark cs = (.string, quotedBody mark cs) := by
  rcases h with rfl | rfl
  · unfold cut
    rw [if_neg (by decide), if_neg (by decide), if_neg (by decide)]
    rfl
  · unfold cut
    rw [if_neg (by decide), if_neg (by decide), if_neg (by decide)]
    rfl

/-- Two colons and an equals sign make up one operator. -/
theorem cut_assign (cs : List Char) : cut ':' (':' :: '=' :: cs) = (.operator, [':', '='], cs) := by
  unfold cut
  rw [if_neg (by decide), if_neg (by decide), if_neg (by decide)]
  rfl

/-- Two angle brackets in the same direction make up one operator. -/
theorem cut_twice {c : Char} (h : c = '<' ∨ c = '>') (cs : List Char) :
    cut c (c :: cs) = (.operator, [c], cs) := by
  rcases h with rfl | rfl
  · unfold cut
    rw [if_neg (by decide), if_neg (by decide), if_neg (by decide)]
    rfl
  · unfold cut
    rw [if_neg (by decide), if_neg (by decide), if_neg (by decide)]
    rfl

/-- A symbol that is not joined with what follows is a token. -/
theorem cut_of_not_joins {c : Char} {rest : List Char} (h : IsSymbol c) (hq : c ≠ '\'')
    (hq' : c ≠ '"') (hj : joins c rest = false) :
    cut c rest = (if singles.contains c then .operator else .badCharacter, [], rest) := by
  unfold cut
  rw [if_neg (by simp [h.blank]), if_neg (by simp [h.identifier]), if_neg (by simp [h.decimal])]
  split
  · simp [joins] at hj
  · simp [joins] at hj
  · exact absurd rfl hq
  · exact absurd rfl hq'
  · simp [joins] at hj
  · simp [joins] at hj
  · simp [joins] at hj
  · rfl

/-- A token of a type that ends where the rest starts is what the lexer cuts off. -/
theorem cut_of_ends {type : TokenType} {c : Char} {cs rest : List Char}
    (h : Ends type c cs rest) : cut c (cs ++ rest) = (type, cs, rest) := by
  cases h with
  | whitespace hb hin hout =>
      unfold cut
      rw [if_pos hb, run_eq_iff]
      exact ⟨rfl, hin, hout⟩
  | identifier hb hi hin hout =>
      unfold cut
      rw [if_neg (by simp [hb]), if_pos hi, run_eq_iff]
      exact ⟨rfl, hin, hout⟩
  | number hb hi hd hin hout =>
      unfold cut
      rw [if_neg (by simp [hb]), if_neg (by simp [hi]), if_pos hd, run_eq_iff]
      exact ⟨rfl, hin, hout⟩
  | @lineComment cs _ hin hout =>
      rw [List.cons_append, cut_slash_slash, ← List.cons_append, run_eq_iff]
      refine ⟨rfl, fun d hd => ?_, fun d hd => by simp [hout d hd]⟩
      rcases List.mem_cons.1 hd with rfl | hd
      · decide
      · simp [hin d hd]
  | blockComment hbody => rw [List.cons_append, cut_slash_star, hbody]
  | string hmark hbody => rw [cut_mark hmark, hbody]
  | assign => exact cut_assign rest
  | twice hc => exact cut_twice hc rest
  | single hs hj =>
      obtain ⟨hc, hq, hq', -⟩ := of_single hs
      rw [List.nil_append, cut_of_not_joins hc hq hq' hj, if_pos hs]
  | bad hc hs hq hq' hj =>
      rw [List.nil_append, cut_of_not_joins hc hq hq' hj, hs, if_neg (by simp)]

/-- **The lexer cuts by the rules.** -/
theorem cut_eq_iff {type : TokenType} {c : Char} {cs rest : List Char} :
    cut c (cs ++ rest) = (type, cs, rest) ↔ Ends type c cs rest :=
  ⟨ends_of_cut, cut_of_ends⟩

/-! ### What may follow a token -/

/-- A character of a block comment that does not close it belongs to it, and the comment goes on. -/
theorem blockBody_cons {c : Char} {cs : List Char} (h : ¬(c = '*' ∧ cs.head? = some '/')) :
    blockBody (c :: cs) = (c :: (blockBody cs).1, (blockBody cs).2) := by
  rw [blockBody.eq_3]
  rintro ds rfl rfl
  exact h ⟨rfl, rfl⟩

/-- A text without a closing is all part of the block comment. -/
theorem eq_nil_of_blockBody {cs : List Char} (h : (blockBody cs).1 = []) : cs = [] := by
  fun_cases blockBody cs with
  | case1 => rfl
  | case2 => simp [blockBody] at h
  | case3 c cs hc _ _ _ =>
    rw [blockBody_cons] at h
    · simp at h
    · rintro ⟨rfl, hhead⟩
      obtain ⟨ds, rfl⟩ := List.head?_eq_some_iff.1 hhead
      exact hc ds rfl rfl

/-- A block comment that does not end with the text ends with its closing, whatever follows. -/
theorem blockBody_congr {rest rest' : List Char} (h : rest = [] → rest' = []) {cs : List Char}
    (hb : blockBody (cs ++ rest) = (cs, rest)) : blockBody (cs ++ rest') = (cs, rest') := by
  induction cs with
  | nil =>
      obtain rfl : rest = [] := eq_nil_of_blockBody (by rw [← List.nil_append rest, hb])
      rw [h rfl]
      rfl
  | cons c cs ih =>
      by_cases hclose : c = '*' ∧ (cs ++ rest).head? = some '/'
      · obtain ⟨rfl, hhead⟩ := hclose
        obtain ⟨ds, hds⟩ := List.head?_eq_some_iff.1 hhead
        rw [List.cons_append, hds] at hb
        obtain ⟨hcs, rfl⟩ := Prod.mk.inj hb
        obtain rfl : ['/'] = cs := (List.cons.inj hcs).2
        rfl
      · rw [List.cons_append, blockBody_cons hclose] at hb
        obtain ⟨hcs, hrest⟩ := Prod.mk.inj hb
        have hbody := ih (Prod.ext (List.cons.inj hcs).2 hrest)
        have hclose' : ¬(c = '*' ∧ (cs ++ rest').head? = some '/') := by
          rintro ⟨rfl, hhead⟩
          cases cs with
          | cons d cs => exact hclose ⟨rfl, hhead⟩
          | nil =>
              obtain rfl : rest' = [] := eq_nil_of_blockBody (by
                rw [← List.nil_append rest', hbody])
              simp at hhead
        rw [List.cons_append, blockBody_cons hclose', hbody]

/-- A character of a string other than a backslash closes it, ends it with the line, or belongs to
it. -/
theorem quotedBody_cons {mark c : Char} {cs : List Char} (h : c ≠ '\\') :
    quotedBody mark (c :: cs) = if c = mark then ([c], cs) else if endsLine c then ([], c :: cs)
      else (c :: (quotedBody mark cs).1, (quotedBody mark cs).2) := by
  rw [quotedBody.eq_4]
  · exact fun hc _ => h hc
  · exact fun _ _ hc _ => h hc

/-- What ends a quoted text that is not closed: the end of the line or of the text, where a
backslash may stand before the end of the text. -/
def EndsQuoted (rest : List Char) : Prop :=
  rest = [] ∨ rest = ['\\'] ∨ ∃ d, rest.head? = some d ∧ endsLine d = true

/-- Nothing of the text belongs to a quoted text if it is not closed here. -/
theorem quotedBody_eq_nil_iff {mark : Char} (hm : mark = '\'' ∨ mark = '"') {rest : List Char} :
    quotedBody mark rest = ([], rest) ↔ EndsQuoted rest := by
  cases rest with
  | nil => simp [quotedBody, EndsQuoted]
  | cons c rest =>
      by_cases hc : c = '\\'
      · subst hc
        cases rest with
        | nil => simp [quotedBody, EndsQuoted]
        | cons d rest => simp [quotedBody, EndsQuoted, endsLine]
      · rw [quotedBody_cons hc]
        have hline : endsLine c = true → c ≠ mark := by
          rintro hl rfl
          rcases hm with rfl | rfl <;> simp [endsLine] at hl
        by_cases hl : endsLine c = true
        · simp [hline hl, hl, EndsQuoted]
        · by_cases hcm : c = mark
          · subst hcm
            simp [EndsQuoted, hc, hl]
          · simp [hcm, EndsQuoted, hc, hl]

/-- A quoted text that is not ended by what follows it is closed. -/
theorem quotedBody_congr {mark : Char} (hm : mark = '\'' ∨ mark = '"') {rest rest' : List Char}
    (h : EndsQuoted rest → EndsQuoted rest') :
    (cs : List Char) → quotedBody mark (cs ++ rest) = (cs, rest) →
      quotedBody mark (cs ++ rest') = (cs, rest')
  | [], hb => (quotedBody_eq_nil_iff hm).2 (h ((quotedBody_eq_nil_iff hm).1 hb))
  | c :: cs, hb => by
    by_cases hc : c = '\\'
    · subst hc
      cases cs with
      | nil => cases rest <;> simp [quotedBody] at hb
      | cons d cs =>
          simp only [List.cons_append, quotedBody, Prod.mk.injEq, List.cons.injEq, true_and] at hb
          have hbody := quotedBody_congr hm h cs (Prod.ext hb.1 hb.2)
          simp only [List.cons_append, quotedBody, hbody]
    · rw [List.cons_append, quotedBody_cons hc] at hb ⊢
      by_cases hcm : c = mark
      · rw [if_pos hcm] at hb ⊢
        obtain ⟨hcs, -⟩ := Prod.mk.inj hb
        obtain rfl : cs = [] := by simpa using hcs.symm
        rfl
      · rw [if_neg hcm] at hb ⊢
        by_cases hl : endsLine c = true
        · simp [hl] at hb
        · rw [if_neg hl] at hb ⊢
          obtain ⟨hcs, hrest⟩ := Prod.mk.inj hb
          rw [quotedBody_congr hm h cs (Prod.ext (List.cons.inj hcs).2 hrest)]

/-- No character that starts an identifier ends a line. -/
theorem endsLine_of_startsIdentifier {c : Char} (h : startsIdentifier c = true) :
    endsLine c = false := by
  rw [Bool.eq_false_iff]
  intro hl
  simp only [endsLine, Bool.or_eq_true, beq_iff_eq] at hl
  rcases hl with rfl | rfl
  · exact absurd h (by decide)
  · exact absurd h (by decide)

/-- What stands behind a token may be exchanged for the start of a comment, if it starts like an
identifier; but not behind a stray slash. -/
theorem Ends.of_identifier {type : TokenType} {c b : Char} {cs rest rest' : List Char}
    (h : Ends type c cs (b :: rest)) (hb : startsIdentifier b = true)
    (hslash : type = .badCharacter → c ≠ '/') : Ends type c cs ('/' :: rest') := by
  have hline : endsLine b = false := endsLine_of_startsIdentifier hb
  cases h with
  | whitespace hc hin hout => exact .whitespace hc hin (by rintro _ ⟨⟩; decide)
  | identifier hc hi hin hout => exact .identifier hc hi hin (by rintro _ ⟨⟩; decide)
  | number hc hi hd hin hout => exact .number hc hi hd hin (by rintro _ ⟨⟩; decide)
  | lineComment hin hout =>
      rw [hout b rfl] at hline
      simp at hline
  | blockComment hbody => exact .blockComment (blockBody_congr (by simp) hbody)
  | string hmark hbody =>
      refine .string hmark (quotedBody_congr hmark ?_ _ hbody)
      rintro (hr | hr | ⟨d, hd, hl⟩)
      · simp at hr
      · obtain ⟨rfl, -⟩ := List.cons.inj hr
        exact absurd hb (by decide)
      · obtain rfl : b = d := by simpa using hd
        rw [hl] at hline
        simp at hline
  | assign => exact .assign
  | twice hc => exact .twice hc
  | single hs hj =>
      refine .single hs ?_
      simpa [joins] using (of_single hs).2.2.2
  | bad hc hs hq hq' hj =>
      refine .bad hc hs hq hq' ?_
      simpa [joins] using hslash rfl

/-- What stands behind a token may be exchanged from its second character on, if that is not made
to be an equals sign and the text does not end there. -/
theorem Ends.of_cons {type : TokenType} {c b : Char} {cs rest rest' : List Char}
    (h : Ends type c cs (b :: rest)) (hassign : rest'.head? = some '=' → rest.head? = some '=')
    (hnil : rest = [] → rest' = []) : Ends type c cs (b :: rest') := by
  have hjoins : joins c (b :: rest) = false → joins c (b :: rest') = false := by
    intro hj
    by_cases heq : rest'.head? = some '='
    · obtain ⟨ds, hds⟩ := List.head?_eq_some_iff.1 (hassign heq)
      obtain ⟨ds', rfl⟩ := List.head?_eq_some_iff.1 heq
      subst hds
      unfold joins at hj ⊢
      split at hj <;> split <;> simp_all
    · unfold joins at hj ⊢
      split at hj <;> split <;> simp_all
  cases h with
  | whitespace hc hin hout => exact .whitespace hc hin hout
  | identifier hc hi hin hout => exact .identifier hc hi hin hout
  | number hc hi hd hin hout => exact .number hc hi hd hin hout
  | lineComment hin hout => exact .lineComment hin hout
  | blockComment hbody => exact .blockComment (blockBody_congr (by simp) hbody)
  | string hmark hbody =>
      refine .string hmark (quotedBody_congr hmark ?_ _ hbody)
      rintro (hr | hr | hr)
      · simp at hr
      · obtain ⟨rfl, hrest⟩ := List.cons.inj hr
        exact .inr (.inl (by rw [hnil hrest]))
      · exact .inr (.inr hr)
  | assign => exact .assign
  | twice hc => exact .twice hc
  | single hs hj => exact .single hs (hjoins hj)
  | bad hc hs hq hq' hj => exact .bad hc hs hq hq' (hjoins hj)

end Lexer

end BnfSuppression
