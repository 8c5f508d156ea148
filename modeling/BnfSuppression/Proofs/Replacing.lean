import BnfSuppression.Proofs.Entered
import BnfSuppression.Proofs.Offsets

/-!
# Line Comments in Place of Other Comments

A line comment runs to the end of its line, a block comment to its closing. What is put in the place
of a comment is always a line comment, and nothing is put behind it, so of a block comment it takes
over the place but not the end: read again, it goes on to the end of the line, whatever stands
there. The insertions before an element and at the start put a line break behind the comment.

So replacing a comment keeps the code exactly if the rest of the line holds none of it. In place of
a line comment there is no rest, and blanks alone do no harm; but code behind a block comment is
lost, and so is the opening of another block comment, which exposes what that comment held.

## Main definitions

* `Token.code`: the tokens that are neither white space nor comments.
* `Token.lineRest`, `Token.nextLines`: a text up to the end of its first line, and from there on.

## Main results

* `Token.Spelled.tokens_replace`: a line comment in place of a comment takes the rest of the line.
* `Workspace.replaceComment_code_iff`: **replacing a comment keeps the code exactly if the rest of
  its line holds none**.
-/

namespace BnfSuppression

namespace Token

/-- The tokens that are neither white space nor comments. -/
def code (ts : List Token) : List Token := ts.filter fun t => !t.isTrivia

/-- What stands before the first end of a line. -/
def lineRest (cs : List Char) : List Char := cs.takeWhile fun c => !Lexer.endsLine c

/-- What stands from the first end of a line on. -/
def nextLines (cs : List Char) : List Char := cs.dropWhile fun c => !Lexer.endsLine c

variable {A B ts : List Token} {t x y : Token} {cs rest : List Char}

/-- A text is the rest of its line followed by what starts with the end of the line. -/
@[simp]
theorem lineRest_append_nextLines (cs : List Char) : lineRest cs ++ nextLines cs = cs :=
  List.takeWhile_append_dropWhile

/-- The tokens that are read from a text spell the text. -/
@[simp]
theorem spell_tokens (cs : List Char) : spell (tokens cs) = cs := flatMap_tokens cs

/-! ### Code -/

/-- The solid tokens of two lists together are those of the one, then those of the other. -/
@[simp]
theorem code_append (ts us : List Token) : code (ts ++ us) = code ts ++ code us :=
  List.filter_append ..

/-- White space and comments in front of tokens are no code. -/
theorem code_cons_of_isTrivia (h : t.isTrivia = true) (ts : List Token) :
    code (t :: ts) = code ts := by
  simp [code, h]

/-- Blanks at the start hold no code. -/
theorem code_tokens_dropBlanks (cs : List Char) :
    code (tokens (Text.dropBlanks cs)) = code (tokens cs) := by
  cases cs with
  | nil => rfl
  | cons c cs =>
      cases hc : Text.isBlank c with
      | false => rw [Text.dropBlanks, List.dropWhile_cons_of_neg (by simp [hc])]
      | true =>
          have hcut : Lexer.cut c cs = Lexer.run .whitespace Text.isBlank cs := by
            unfold Lexer.cut
            rw [if_pos hc]
          rw [tokens, hcut, Lexer.run, code_cons_of_isTrivia (isTrivia_of_isWhitespace rfl),
            Text.dropBlanks, List.dropWhile_cons_of_pos hc]

/-- Blanks in front of a text make no difference to the code that is read from it. -/
theorem code_tokens_append_of_blank (h : ∀ c ∈ cs, Text.isBlank c = true) (rest : List Char) :
    code (tokens (cs ++ rest)) = code (tokens rest) := by
  rw [← code_tokens_dropBlanks, Text.dropBlanks, List.dropWhile_append_of_pos h,
    ← Text.dropBlanks, code_tokens_dropBlanks]

/-! ### Replacing in a sequence of tokens -/

/-- A comment has two characters at least. -/
theorem EndsBefore.exists_of_comment (h : t.EndsBefore rest) (ht : t.isComment = true) :
    ∃ d ds, t.text.toList = '/' :: d :: ds := by
  cases htype : t.type with
  | lineComment =>
      obtain ⟨ds, htext, -⟩ := (endsBefore_iff_of_lineComment htype).1 h
      exact ⟨_, _, htext⟩
  | blockComment =>
      obtain ⟨ds, htext⟩ := h.of_blockComment htype
      exact ⟨_, _, htext⟩
  | _ => simp [isComment, TokenType.isComment, htype] at ht

/-- **A line comment in place of a comment takes the rest of the line**, and what follows is read
from the end of that line on. -/
theorem Spelled.tokens_replace (h : Spelled (A ++ x :: B)) (hx : x.isComment = true)
    (hy : y.type = .lineComment) (hwhole : y.EndsBefore []) :
    tokens (spell (A ++ y :: B)) =
      A ++ ⟨.lineComment, y.text ++ String.ofList (lineRest (spell B))⟩ ::
        tokens (nextLines (spell B)) := by
  obtain ⟨ds, hds, hin, -⟩ := (endsBefore_iff_of_lineComment hy).1 hwhole
  obtain ⟨e, es, hes⟩ := h.right.1.exists_of_comment hx
  have hlonger : (y.text ++ String.ofList (lineRest (spell B))).toList =
      '/' :: '/' :: (ds ++ lineRest (spell B)) := by
    rw [String.toList_append, hds, String.toList_ofList]
    rfl
  have hline : Spelled (⟨.lineComment, y.text ++ String.ofList (lineRest (spell B))⟩ ::
      tokens (nextLines (spell B))) := by
    refine ⟨(endsBefore_iff_of_lineComment rfl).2 ⟨_, hlonger, fun d hd => ?_, fun d hd => ?_⟩,
      spelled_tokens _⟩
    · rcases List.mem_append.1 hd with hd | hd
      · exact hin d hd
      · simpa using List.mem_takeWhile_imp hd
    · have hstop := List.head?_dropWhile_not (fun c => !Lexer.endsLine c) (spell B)
      rw [spell_tokens, nextLines] at hd
      rw [hd] at hstop
      simpa using hstop
  have hspelled : Spelled (A ++ ⟨.lineComment, y.text ++ String.ofList (lineRest (spell B))⟩ ::
      tokens (nextLines (spell B))) := by
    refine h.exchange hline ?_ ?_ ?_
    · -- the comments start with a slash, and no token is cut by what is behind that slash
      rintro t - ⟨c, cs, htext, hends⟩
      rw [spell_cons, hes] at hends
      refine ⟨c, cs, htext, ?_⟩
      rw [spell_cons, hlonger]
      exact hends.of_cons (by simp) (by simp)
    · simp [hlonger]
    · simp [hes]
  rw [← tokens_spell_iff.2 hspelled]
  congr 1
  simp

/-- **What is read keeps its code exactly if the rest of the line holds none of it.** -/
theorem Spelled.code_replace_iff (h : Spelled (A ++ x :: B)) (hx : x.isComment = true)
    (hy : y.type = .lineComment) (hwhole : y.EndsBefore []) :
    code (tokens (spell (A ++ y :: B))) = code (A ++ x :: B) ↔
      code (tokens (nextLines (spell B))) = code B := by
  rw [h.tokens_replace hx hy hwhole, code_append, code_append,
    code_cons_of_isTrivia (isTrivia_of_isComment hx),
    code_cons_of_isTrivia (isTrivia_of_isComment (isComment_of_lineComment rfl)),
    List.append_cancel_left_eq]

/-- Blanks up to the end of the line hold no code. -/
theorem Spelled.code_nextLines (h : Spelled B)
    (hblank : ∀ c ∈ lineRest (spell B), Text.isBlank c = true) :
    code (tokens (nextLines (spell B))) = code B := by
  rw [← code_tokens_append_of_blank hblank, lineRest_append_nextLines, tokens_spell_iff.2 h]

/-- Behind a line comment, nothing is left of the line. -/
theorem Spelled.lineRest_eq_nil (h : Spelled (x :: B)) (hx : x.type = .lineComment) :
    lineRest (spell B) = [] := by
  obtain ⟨_, -, -, hout⟩ := (endsBefore_iff_of_lineComment hx).1 h.1
  cases hB : spell B with
  | nil => rfl
  | cons c cs => simp [lineRest, hout c (by simp [hB])]

end Token

/-! ### Replacing in a document -/

namespace Workspace

open Planted (plug Place Change)
open Forest (charsOf_eq_spell)
open Token (code lineRest nextLines spell)

variable {w : Workspace} {d : Document} {c : Crumb} {cs : Place} {s : String} {t : Token}

/-- Replacing a comment of a document replaces its token. -/
theorem Standing.exists_replaceComment {x : ElementId × Token}
    (h : w.Standing d (plug (c :: cs) (.leaf x.1 x.2))) (hd : d.writable = true)
    (hx : x.2.isComment = true) (ht : IsLineComment s t) :
    ∃ v, w.attempt 0 (.replaceComment x.1 s) = .ok v ∧
      (v.text 0).toList = spell ((Place.before (c :: cs)).map Prod.snd ++
        t :: (Place.after (c :: cs)).map Prod.snd) := by
  obtain ⟨r, hr, hm⟩ := h.makes_replaceComment hd hx ht.1 ht.2
  refine ⟨⟨r.1, #[r.2]⟩, ?_, ?_⟩
  · rw [attempt, edit_eq h.documents, hr]
    rfl
  · have hback : (Change.replacement c cs x (w.forest.size, t)).back = Place.after (c :: cs) := rfl
    rw [hm.standing.toList_text, Change.leaves_target, charsOf_eq_spell, Change.front_replacement,
      hback]
    simp [Change.replacement]

/-- The comment of a text that was just opened is one of its tokens. -/
theorem exists_comment_open {text name : String} {i : ElementId}
    (howner : (empty.open text name true).ownerOf? i = some 0)
    (hcomment : (empty.open text name true).forest.isComment i = true) :
    ∃ (c : Crumb) (cs : Place) (x : Token), x.isComment = true ∧
      (empty.open text name true).Standing ⟨name, true, text, 0, []⟩ (plug (c :: cs) (.leaf i x)) ∧
      tokenize text = (Place.before (c :: cs)).map Prod.snd ++
        x :: (Place.after (c :: cs)).map Prod.snd := by
  have h := standing_open text name true
  rw [h.ownerOf?_eq] at howner
  obtain ⟨cs, q, hq, rfl⟩ := Planted.exists_place (by simpa using howner)
  have hleaves : tokenize text = (plug cs q).leaves.map Prod.snd := by
    rw [← hq, ← Planted.leaves_tree, Tree.tree_plantedFrom]
    exact (Tree.leaves_parseFile _).symm
  rw [hq] at h
  obtain ⟨x, rfl, hx⟩ := h.comprises.toHolds.leaf_of_isComment hcomment
  obtain ⟨c, cs, rfl⟩ := List.exists_cons_of_ne_nil h.place_ne_nil_of_leaf
  refine ⟨c, cs, x.2, hx, h, ?_⟩
  rw [hleaves, Planted.leaves_plug]
  simp [Planted.leaves]

/-- **Replacing a comment keeps the code exactly if the rest of its line holds none.** Every comment
of a document that was just opened is one of the tokens of its text. What replaces it may be any
line comment, and the new text is read as the tokens before the comment, the line comment with the
rest of the line in it, and what the next lines are read as. If there are only blanks up to the end
of the line, the code is kept; so it is in place of a line comment. -/
theorem replaceComment_code_iff (text name : String) {i : ElementId}
    (howner : (empty.open text name true).ownerOf? i = some 0)
    (hcomment : (empty.open text name true).forest.isComment i = true) (hs : IsLineComment s t) :
    ∃ A x B v, tokenize text = A ++ x :: B ∧
      (empty.open text name true).forest.token? i = some x ∧
      (empty.open text name true).forest.offset i = .ok (spell A).length ∧
      (empty.open text name true).attempt 0 (.replaceComment i s) = .ok v ∧
      tokenize (v.text 0) = A ++ ⟨.lineComment, s ++ String.ofList (lineRest (spell B))⟩ ::
        tokens (nextLines (spell B)) ∧
      (code (tokenize (v.text 0)) = code (tokenize text) ↔
        code (tokens (nextLines (spell B))) = code B) ∧
      ((∀ c ∈ lineRest (spell B), Text.isBlank c = true) →
        code (tokenize (v.text 0)) = code (tokenize text)) ∧
      (x.type = .lineComment → code (tokenize (v.text 0)) = code (tokenize text)) := by
  obtain ⟨c, cs, x, hx, h, htokens⟩ := exists_comment_open howner hcomment
  obtain ⟨v, hv, htext⟩ := h.exists_replaceComment (x := (i, x)) rfl hx hs
  have hspelled := Token.spelled_tokens text.toList
  rw [← tokenize, htokens] at hspelled
  have hwhole : t.EndsBefore [] := by
    have ht := Token.spelled_tokens s.toList
    rw [← tokenize, hs.1] at ht
    exact ht.1
  have hread : tokenize (v.text 0) = _ :=
    (congrArg tokens htext).trans (hspelled.tokens_replace hx hs.2 hwhole)
  have hcode := hspelled.code_replace_iff hx hs.2 hwhole
  rw [← htext, ← htokens] at hcode
  have hblank := hspelled.right.2.code_nextLines
  refine ⟨_, x, _, v, htokens, h.comprises.stores_at.token?_eq, ?_, hv, ?_, hcode,
    fun hrest => hcode.2 (hblank hrest), fun hline => hcode.2 (hblank ?_)⟩
  · rw [← charsOf_eq_spell]
    exact h.comprises.toHolds.offset_eq
  · rw [hread, hs.text_eq]
  · simp [hspelled.right.lineRest_eq_nil hline]

/-- In place of the block comment before a rule, the line comment takes the whole rule. -/
theorem replaceComment_code_iff_of_swallowed : ∃ v,
    (empty.open "/* a */ foo ::= bar\n" "g" true).attempt 0 (.replaceComment 1 "// b") = .ok v ∧
    v.text 0 = "// b foo ::= bar\n" ∧ code (tokenize (v.text 0)) = [] ∧
    (code (tokenize "/* a */ foo ::= bar\n")).map Token.text = ["foo", "::=", "bar"] := by
  have hs : IsLineComment "// b" ⟨.lineComment, "// b"⟩ := ⟨by decide +kernel, rfl⟩
  obtain ⟨_, _, _, v, -, -, -, hv, -⟩ := replaceComment_code_iff "/* a */ foo ::= bar\n" "g"
    (i := 1) (by decide +kernel) (by decide +kernel) hs
  have htext : (((empty.open "/* a */ foo ::= bar\n" "g" true).attempt 0
      (.replaceComment 1 "// b")).toOption.map fun v => v.text 0) = some "// b foo ::= bar\n" := by
    decide +kernel
  rw [hv] at htext
  have hv' : v.text 0 = "// b foo ::= bar\n" := Option.some.inj htext
  exact ⟨v, hv, hv', by rw [hv']; decide +kernel, by decide +kernel⟩

end Workspace

end BnfSuppression
