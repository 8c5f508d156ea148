import BnfSuppression.Proofs.Lexing.Joined
import BnfSuppression.Proofs.Reading.Trivia
import BnfSuppression.Proofs.Shape

/-!
# Comments Written into a Text

The edits of suppression write line comments before identifiers and at the start, and exchange line
comments for others. `Token.Written` collects what is true of the tokens of a text that such edits
have gone through; each edit keeps it.

## Main results

* `Token.written_tokenize`: the tokens of a text are written.
* `Token.Written.insert`, `Token.Written.replace`, `Token.Written.prepend`: **each edit keeps it**.
* `Token.Written.tokens_spell_iff`: the text is read back, but for white space side by side, if no
  comment stands right after a stray slash.
-/

namespace BnfSuppression

namespace Token

open BnfSuppression.Tree (skipTrivia)

variable {original ts A B : List Token} {t x y c b : Token}

/-- A token that is not trivia is no white space. -/
theorem isWhitespace_of_solid (h : t.isTrivia = false) : t.isWhitespace = false := by
  rw [isTrivia, TokenType.isTrivia_eq, Bool.or_eq_false_iff] at h
  exact h.1

/-- A token that is not trivia is no comment. -/
theorem isComment_of_solid (h : t.isTrivia = false) : t.isComment = false := by
  rw [isTrivia, TokenType.isTrivia_eq, Bool.or_eq_false_iff] at h
  exact h.2

/-- A comment is no white space. -/
theorem isWhitespace_of_isComment (h : t.isComment = true) : t.isWhitespace = false := by
  obtain ⟨type, text⟩ := t
  cases type <;> simp_all [isComment, TokenType.isComment, isWhitespace]

/-- White space is no comment. -/
theorem isComment_of_isWhitespace (h : t.isWhitespace = true) : t.isComment = false := by
  rw [isWhitespace, beq_iff_eq] at h
  rw [isComment, h]
  rfl

/-- A line comment is a comment. -/
theorem isComment_of_lineComment (h : t.type = .lineComment) : t.isComment = true := by
  rw [isComment, h]
  rfl

/-- White space is no stray slash. -/
theorem isStraySlash_of_isWhitespace (h : t.isWhitespace = true) : t.isStraySlash = false := by
  rw [isWhitespace, beq_iff_eq] at h
  simp [isStraySlash, h]

/-- A comment is no stray slash, although it may start with one. -/
theorem isStraySlash_of_isComment (h : t.isComment = true) : t.isStraySlash = false := by
  obtain ⟨type, text⟩ := t
  cases type <;> simp_all [isComment, TokenType.isComment, isStraySlash]

/-- White space and comments are no stray slashes. -/
theorem isStraySlash_of_isTrivia (h : t.isTrivia = true) : t.isStraySlash = false := by
  rw [isTrivia, TokenType.isTrivia_eq, Bool.or_eq_true] at h
  exact h.elim isStraySlash_of_isWhitespace isStraySlash_of_isComment

/-! ### What joining and muting leave alone -/

/-- Joining white space puts no comment after a stray slash, and takes none away from there. -/
theorem clear_join (t : Token) (ts : List Token) : Clear (join t ts) ↔ Clear (t :: ts) := by
  cases ts with
  | nil => rfl
  | cons u ts =>
      rw [join]
      split
      · next hws =>
        rw [Bool.and_eq_true] at hws
        have ht := isStraySlash_of_isWhitespace hws.1
        have hu := isStraySlash_of_isWhitespace hws.2
        have hj : isStraySlash ⟨.whitespace, t.text ++ u.text⟩ = false := rfl
        cases ts with
        | nil => simp [Clear, swallows, ht]
        | cons v ts =>
            simp only [Clear, List.isChain_cons_cons, swallows, ht, hu, hj, Bool.false_and,
              true_and]
      · rfl

/-- Joining white space brings no comment to a stray slash. -/
theorem clear_joined (ts : List Token) : Clear (joined ts) ↔ Clear ts := by
  induction ts with
  | nil => rfl
  | cons t ts ih =>
      rw [joined, clear_join]
      have hcons : ∀ us, Clear (t :: us) ↔
          (∀ u ∈ us.head?, t.swallows u = false) ∧ Clear us := fun us => List.isChain_cons
      rw [hcons, hcons, ih]
      refine and_congr_left fun _ => ?_
      cases ts with
      | nil => rfl
      | cons u ts =>
          rw [joined]
          cases joined ts with
          | nil => rfl
          | cons v vs =>
              rw [join]
              split
              · next hws =>
                rw [Bool.and_eq_true] at hws
                have hu := isComment_of_isWhitespace hws.1
                have hj : isComment ⟨.whitespace, u.text ++ v.text⟩ = false := rfl
                simp only [List.head?_cons, Option.mem_some, forall_eq', swallows, hu, hj]
              · rfl

/-- Whether white space is side by side depends on the types of the tokens. -/
theorem separate_mute : Separate (ts.map mute) ↔ Separate ts := by
  simp [Separate, List.isChain_map]

/-- Muting makes no stray slash and loses none, since it leaves solid tokens alone. -/
theorem isStraySlash_mute (t : Token) : t.mute.isStraySlash = t.isStraySlash := by
  cases ht : t.isTrivia with
  | false => rw [mute_of_solid ht]
  | true => rw [isStraySlash_of_isTrivia ht, isStraySlash_of_isTrivia (by simpa using ht)]

/-- Muted tokens are clear exactly if the tokens themselves are. -/
theorem clear_mute : Clear (ts.map mute) ↔ Clear ts := by
  have hc : ∀ t : Token, t.mute.isComment = t.isComment := fun t => by
    rw [isComment, type_mute, isComment]
  simp [Clear, List.isChain_map, swallows, isStraySlash_mute, hc]

/-- All line comments are the same once they are muted. -/
theorem mute_eq_of_lineComment (hx : x.type = .lineComment) (hy : y.type = .lineComment) :
    x.mute = y.mute := by
  have hxc := isComment_of_lineComment hx
  have hyc := isComment_of_lineComment hy
  rw [mute, if_pos hxc, mute, if_pos hyc, hx, hy]

/-! ### Inserting -/

/-- Where the white space and comments in front end, among some tokens or behind them. -/
theorem skipTrivia_append_cases (A : List Token) :
    (∀ t ∈ A, t.isTrivia = true) ∨ ∃ A', ∀ us, skipTrivia (A ++ us) = A' ++ us := by
  cases hs : skipTrivia A with
  | nil => exact .inl (List.dropWhile_eq_nil_iff.1 hs)
  | cons t us =>
      refine .inr ⟨t :: us, fun vs => ?_⟩
      rw [skipTrivia] at hs
      rw [skipTrivia, List.dropWhile_append, hs]
      rfl

/-- A comment and a line break can be put between other tokens without white space getting side by
side. -/
theorem Separate.insert (h : Separate (A ++ y :: B)) (hc : c.isWhitespace = false)
    (hy : y.isWhitespace = false) : Separate (A ++ c :: b :: y :: B) := by
  rw [Separate, List.isChain_append] at h ⊢
  refine ⟨h.1, ?_, ?_⟩
  · exact .cons_cons (by simp [hc]) (.cons_cons (by simp [hy]) h.2.1)
  · simp [hc]

/-- What is cleared by taking a comment out. -/
theorem Clear.of_insert (h : Clear (A ++ c :: b :: y :: B)) (hc : c.isComment = true)
    (hy : y.isComment = false) :
    Clear (A ++ y :: B) ∧ ∀ t, A.getLast? = some t → t.isStraySlash = false := by
  rw [Clear, List.isChain_append] at h ⊢
  refine ⟨⟨h.1, h.2.1.tail.tail, ?_⟩, fun t ht => ?_⟩
  · simp [swallows, hy]
  · have hlast := h.2.2 t ht c rfl
    simpa [swallows, hc] using hlast

/-- White space before the rest of a line comment's line takes white space behind it in. -/
theorem IsLine.spelled_join (h : IsLine c b) (hts : Spelled ts) : Spelled (c :: join b ts) := by
  have hb : b.isWhitespace = true := by
    rw [isWhitespace, h.break_type]
    rfl
  cases ts with
  | nil => exact h.spelled hts (by simp)
  | cons u ts =>
      cases hu : u.isWhitespace with
      | true =>
          rw [join, hb, hu, if_pos (by rfl)]
          obtain ⟨cs, htext, hin⟩ := h.break_text
          obtain ⟨hblank, hout⟩ := hts.1.of_whitespace hu
          refine IsLine.spelled ⟨h.comment, h.whole, rfl, cs ++ u.text.toList, ?_, ?_⟩ hts.2 hout
          · simp [htext]
          · intro d hd
            exact (List.mem_append.1 hd).elim (hin d) (hblank d)
      | false =>
          rw [join, hu, Bool.and_false, if_neg (by simp)]
          exact h.spelled hts (hts.head_not_blank hu)

/-! ### Written tokens -/

/-- Tokens of a text into which comments were written on lines of their own. -/
structure Written (original ts : List Token) : Prop where
  /-- White space is side by side at the start only. -/
  separate : Separate (skipTrivia ts)
  /-- A block comment starts like one. -/
  block : ∀ t ∈ ts, t.type = .blockComment → ∃ ds, t.text.toList = '/' :: '*' :: ds
  /-- The tokens are read back from their text, but for white space side by side. -/
  spelled : Clear ts → Spelled (joined ts)
  /-- The solid tokens are those of the original. -/
  solid : ts.filter (fun t => !t.isTrivia) = original.filter fun t => !t.isTrivia

/-- **The tokens of a text are written.** -/
theorem written_tokenize (text : String) : Written (tokenize text) (tokenize text) := by
  have hspelled : Spelled (tokenize text) := spelled_tokens _
  refine ⟨?_, fun t ht hb => ?_, fun _ => ?_, rfl⟩
  · rw [← Tree.leadingTrivia_append (tokenize text)] at hspelled
    exact hspelled.right.separate
  · obtain ⟨_, hends⟩ := hspelled.endsBefore_of_mem ht
    exact hends.of_blockComment hb
  · rwa [hspelled.separate.joined_eq]

/-- A text of written tokens is read back, but for white space side by side, if no comment stands
right after a stray slash. -/
theorem Written.tokens_spell_iff (h : Written original ts) :
    tokens (spell ts) = joined ts ↔ Clear ts := by
  rw [← spell_joined ts, Token.tokens_spell_iff]
  exact ⟨fun hs => (clear_joined ts).1 hs.clear, h.spelled⟩

/-- **A comment may be inserted before an identifier.** -/
theorem Written.insert (h : Written original (A ++ y :: B)) (hy : y.isIdentifier = true)
    (hc : IsLine c b) : Written original (A ++ c :: b :: y :: B) := by
  have hcomment := isComment_of_lineComment hc.comment
  have hcws := isWhitespace_of_isComment hcomment
  have hbtrivia : b.isTrivia = true := by
    rw [isTrivia, hc.break_type]
    rfl
  have hsolid := Tree.isTrivia_of_isIdentifier hy
  have hyws := isWhitespace_of_solid hsolid
  refine ⟨?_, fun t ht hb => ?_, fun hclear => ?_, ?_⟩
  · have hsep := h.separate
    rcases skipTrivia_append_cases A with hall | ⟨A', hskip⟩
    · have hall' : ∀ t ∈ A ++ [c, b], t.isTrivia = true := by
        simpa [or_imp, forall_and, hbtrivia, isTrivia_of_isComment hcomment] using hall
      have hsplit : A ++ c :: b :: y :: B = (A ++ [c, b]) ++ y :: B := by simp
      rw [Tree.skipTrivia_append_solid hall hsolid] at hsep
      rwa [hsplit, Tree.skipTrivia_append_solid hall' hsolid]
    · rw [hskip] at hsep ⊢
      exact hsep.insert hcws hyws
  · rcases List.mem_append.1 ht with ht | ht
    · exact h.block t (by simp [ht]) hb
    · rcases List.mem_cons.1 ht with rfl | ht
      · simp [hc.comment] at hb
      · rcases List.mem_cons.1 ht with rfl | ht
        · simp [hc.break_type] at hb
        · exact h.block t (List.mem_append_right _ ht) hb
  · obtain ⟨hclear, hlast⟩ := hclear.of_insert hcomment (isComment_of_solid hsolid)
    have hspelled := h.spelled hclear
    rw [joined_append_cons hyws] at hspelled
    rw [joined_append_cons hcws]
    have hjoin : joined (b :: y :: B) = b :: y :: joined B := by
      rw [joined, joined, join_of_not_whitespace hyws, join, hyws, Bool.and_false,
        if_neg (by simp)]
    rw [hjoin]
    refine hspelled.insert hy hc fun t ht => ?_
    cases hws : t.isWhitespace with
    | true => exact isStraySlash_of_isWhitespace hws
    | false => exact hlast t (getLast?_joined hws ht)
  · rw [← h.solid]
    simp [hbtrivia, isTrivia_of_isComment hcomment]

/-- **A line comment may be exchanged for another one.** -/
theorem Written.replace (h : Written original (A ++ x :: B)) (hx : x.type = .lineComment)
    (hy : y.type = .lineComment) (hwhole : y.EndsBefore []) : Written original (A ++ y :: B) := by
  have hmute : (A ++ y :: B).map mute = (A ++ x :: B).map mute := by
    simp [mute_eq_of_lineComment hx hy]
  have hxws := isWhitespace_of_isComment (isComment_of_lineComment hx)
  have hyws := isWhitespace_of_isComment (isComment_of_lineComment hy)
  refine ⟨?_, fun t ht hb => ?_, fun hclear => ?_, ?_⟩
  · rw [← separate_mute, ← Tree.skipTrivia_mute, hmute, Tree.skipTrivia_mute, separate_mute]
    exact h.separate
  · rcases List.mem_append.1 ht with ht | ht
    · exact h.block t (by simp [ht]) hb
    · rcases List.mem_cons.1 ht with rfl | ht
      · simp [hy] at hb
      · exact h.block t (by simp [ht]) hb
  · rw [← clear_mute, hmute, clear_mute] at hclear
    have hspelled := h.spelled hclear
    rw [joined_append_cons hxws] at hspelled
    rw [joined_append_cons hyws]
    exact hspelled.replace hx hy hwhole
  · rw [← h.solid]
    simp [isTrivia_of_isComment (isComment_of_lineComment hx),
      isTrivia_of_isComment (isComment_of_lineComment hy)]

/-- **A comment may be put at the start.** -/
theorem Written.prepend (h : Written original ts) (hc : IsLine c b) :
    Written original (c :: b :: ts) := by
  have hcomment := isComment_of_lineComment hc.comment
  have hctrivia := isTrivia_of_isComment hcomment
  have hbtrivia : b.isTrivia = true := by
    rw [isTrivia, hc.break_type]
    rfl
  refine ⟨?_, fun t ht hb => ?_, fun hclear => ?_, ?_⟩
  · rw [Tree.skipTrivia_of_isTrivia hctrivia, Tree.skipTrivia_of_isTrivia hbtrivia]
    exact h.separate
  · rcases List.mem_cons.1 ht with rfl | ht
    · simp [hc.comment] at hb
    · rcases List.mem_cons.1 ht with rfl | ht
      · simp [hc.break_type] at hb
      · exact h.block t ht hb
  · rw [joined, join_of_not_whitespace (isWhitespace_of_isComment hcomment), joined]
    exact hc.spelled_join (h.spelled hclear.tail.tail)
  · rw [← h.solid]
    simp [hbtrivia, hctrivia]

end Token

end BnfSuppression
