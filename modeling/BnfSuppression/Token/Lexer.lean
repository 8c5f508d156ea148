import BnfSuppression.Text.Blank
import BnfSuppression.Text.Digit
import BnfSuppression.Token

/-!
# Cutting a text into tokens

The first token of a text is chosen by its first character or two: a run of blanks, a comment, a
quoted text, an identifier, a number, an operator, or else a single bad character. A block comment
that is never closed runs to the end of the text; a quoted text that is never closed runs to the
end of its line. A backslash in a quoted text takes the character after it along, whatever that
is.

## Main definitions

* `Lexer.cut`: the first token, as what of the text belongs to it and what does not.
* `tokenize`: all tokens of a text.
* `located`: the tokens with their offsets.

## Main results

* `Lexer.cut_append`: cutting loses nothing.
* `flatMap_tokenize`: the tokens' texts, one after the other, are the text.
-/

namespace BnfSuppression

namespace Lexer

/-- A character that an identifier starts with. -/
def startsIdentifier (c : Char) : Bool := c.isAlpha || c == '_'

/-- A character that an identifier goes on with. -/
def continuesIdentifier (c : Char) : Bool := c.isAlphanum || c == '_'

/-- A character that a line comment stops before. -/
def endsLine (c : Char) : Bool := c == '\r' || c == '\n'

/-- The operators of one character. -/
def singles : List Char :=
  ['=', ';', '{', '}', '(', ')', '[', ']', '|', '*', '+', '?', ',', '.', '&', '!', '<', '>', ':']

/-- The rest of a block comment after its opening, up to the first closing or else the end; and
what follows it. -/
def blockBody : List Char → List Char × List Char
  | [] => ([], [])
  | '*' :: '/' :: cs => (['*', '/'], cs)
  | c :: cs => let (body, rest) := blockBody cs; (c :: body, rest)

/-- The rest of a quoted text after its opening quote, and what follows it. A backslash that ends
the text is left out. -/
def quotedBody (mark : Char) : List Char → List Char × List Char
  | [] => ([], [])
  | ['\\'] => ([], ['\\'])
  | '\\' :: c :: cs => let (body, rest) := quotedBody mark cs; ('\\' :: c :: body, rest)
  | c :: cs =>
    if c = mark then ([c], cs)
    else if endsLine c then ([], c :: cs)
    else let (body, rest) := quotedBody mark cs; (c :: body, rest)

/-- A token of the type that goes on as long as its characters are of a class. -/
def run (type : TokenType) (p : Char → Bool) (cs : List Char) :
    TokenType × List Char × List Char :=
  (type, cs.takeWhile p, cs.dropWhile p)

/-- The first token of the text `c :: cs`: its type, the part of `cs` that belongs to it, and the
part that does not. -/
def cut (c : Char) (cs : List Char) : TokenType × List Char × List Char :=
  if Text.isBlank c then run .whitespace Text.isBlank cs
  else if startsIdentifier c then run .identifier continuesIdentifier cs
  else if Text.isDecimal c then run .number Text.isDecimal cs
  else match c, cs with
    | '/', '/' :: _ => run .lineComment (!endsLine ·) cs
    | '/', '*' :: rest => (.blockComment, '*' :: (blockBody rest).1, (blockBody rest).2)
    | '\'', _ => (.string, quotedBody '\'' cs)
    | '"', _ => (.string, quotedBody '"' cs)
    | ':', ':' :: '=' :: rest => (.operator, [':', '='], rest)
    | '<', '<' :: rest => (.operator, ['<'], rest)
    | '>', '>' :: rest => (.operator, ['>'], rest)
    | _, _ => (if singles.contains c then .operator else .badCharacter, [], cs)

/-- Reading on to the end of a block comment loses no character. -/
theorem blockBody_append (cs : List Char) : (blockBody cs).1 ++ (blockBody cs).2 = cs := by
  fun_induction blockBody cs with
  | case1 => rfl
  | case2 => rfl
  | case3 c cs _ body rest h ih => simpa [h] using ih

/-- Reading on to the end of a string loses no character. -/
theorem quotedBody_append (mark : Char) (cs : List Char) :
    (quotedBody mark cs).1 ++ (quotedBody mark cs).2 = cs := by
  fun_induction quotedBody mark cs with
  | case1 => rfl
  | case2 => rfl
  | case3 c cs body rest h ih => simpa [h] using ih
  | case4 => rfl
  | case5 => rfl
  | case6 c cs _ _ _ _ body rest h ih => simpa [h] using ih

/-- Cutting the first token off loses nothing. -/
theorem cut_append (c : Char) (cs : List Char) : (cut c cs).2.1 ++ (cut c cs).2.2 = cs := by
  unfold cut run
  repeat' split
  all_goals simp [List.takeWhile_append_dropWhile, blockBody_append, quotedBody_append]

/-- What follows the first token is no longer than what follows its first character. -/
theorem length_cut_le (c : Char) (cs : List Char) : (cut c cs).2.2.length ≤ cs.length := by
  have h := congrArg List.length (cut_append c cs)
  rw [List.length_append] at h
  omega

end Lexer

/-- The tokens of a text given by its characters. -/
def tokens (cs : List Char) : List Token :=
  match cs with
  | [] => []
  | c :: cs =>
    ⟨(Lexer.cut c cs).1, String.ofList (c :: (Lexer.cut c cs).2.1)⟩ :: tokens (Lexer.cut c cs).2.2
termination_by cs.length
decreasing_by exact Nat.lt_succ_of_le (Lexer.length_cut_le c cs)

/-- The tokens of a text. -/
def tokenize (s : String) : List Token := tokens s.toList

/-- The texts of the tokens, one after the other, are the text. -/
theorem flatMap_tokens (cs : List Char) : (tokens cs).flatMap (·.text.toList) = cs := by
  fun_induction tokens cs with
  | case1 => rfl
  | case2 c cs ih => simp [ih, Lexer.cut_append]

/-- The texts of the tokens of a text are the text, character by character. -/
theorem flatMap_tokenize (s : String) : (tokenize s).flatMap (·.text.toList) = s.toList :=
  flatMap_tokens s.toList

/-- Tokens with their offsets, the first of them at `offset`. -/
def locate (offset : Nat) : List Token → List (Nat × Token)
  | [] => []
  | t :: ts => (offset, t) :: locate (offset + t.text.length) ts

/-- The tokens of a text with their offsets in it, counted in characters. -/
def located (s : String) : List (Nat × Token) := locate 0 (tokenize s)

end BnfSuppression
