/-!
# Tokens of a grammar

A grammar text is a sequence of tokens, white space and comments among them, so that the texts of
its tokens are the text itself.

## Main definitions

* `TokenType`: the eight types of tokens.
* `Token`: a type and a text.
-/

namespace BnfSuppression

/-- The types of tokens. -/
inductive TokenType
  | whitespace
  | lineComment
  | blockComment
  /-- A quoted text, closed or not. -/
  | string
  | identifier
  | number
  /-- An operator or a bracket. -/
  | operator
  /-- A character that no token starts with. -/
  | badCharacter
  deriving DecidableEq, Repr, Inhabited

namespace TokenType

/-- The name of a token type. -/
def name : TokenType → String
  | whitespace => "whitespace"
  | lineComment => "line-comment"
  | blockComment => "block-comment"
  | string => "string"
  | identifier => "id"
  | number => "number"
  | operator => "op"
  | badCharacter => "bad-character"

/-- Line and block comments are comments. -/
def isComment : TokenType → Bool
  | lineComment | blockComment => true
  | _ => false

/-- White space and comments are trivia. -/
def isTrivia : TokenType → Bool
  | whitespace | lineComment | blockComment => true
  | _ => false

/-- Trivia are white space and comments. -/
theorem isTrivia_eq (t : TokenType) : t.isTrivia = (t == whitespace || t.isComment) := by
  cases t <;> rfl

end TokenType

/-- A token: its type and its text. -/
structure Token where
  type : TokenType
  text : String
  deriving DecidableEq, Repr, Inhabited

namespace Token

/-- A comment token. -/
def isComment (t : Token) : Bool := t.type.isComment

/-- A token of white space. -/
def isWhitespace (t : Token) : Bool := t.type == .whitespace

/-- A token of white space or a comment. -/
def isTrivia (t : Token) : Bool := t.type.isTrivia

/-- Comments are trivia. -/
theorem isTrivia_of_isComment {t : Token} (h : t.isComment = true) : t.isTrivia = true := by
  simp only [isComment] at h
  simp [isTrivia, TokenType.isTrivia_eq, h]

/-- White space is trivia. -/
theorem isTrivia_of_isWhitespace {t : Token} (h : t.isWhitespace = true) : t.isTrivia = true := by
  simp only [isWhitespace] at h
  simp [isTrivia, TokenType.isTrivia_eq, h]

/-- White space that holds no line feed. -/
def isInlineSpace (t : Token) : Bool := t.isWhitespace && !t.text.toList.contains '\n'

/-- The operator with the given spelling. -/
def isOperator (t : Token) (spelling : String) : Bool := t.type == .operator && t.text == spelling

/-- An identifier. -/
def isIdentifier (t : Token) : Bool := t.type == .identifier

end Token

end BnfSuppression
