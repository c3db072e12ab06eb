import InvariantInference.Span

/-!
# Tokens

The alphabet of expressions, contracts and commands. A token keeps the span of
its text; an operator, a number and an identifier keep the text itself.
-/

namespace InvariantInference

/-- The kinds of token. The operators of `op` have no meaning of their own:
    they only ever occur inside opaque atoms. -/
inductive TokenKind where
  | implies
  | orOr
  | andAnd
  | eqEq
  | bang
  | lparen
  | rparen
  | litTrue
  | litFalse
  | call
  | assert
  | assume
  | free
  | op (text : String)
  | int (text : String)
  | ident (name : String)
  | eof
  deriving DecidableEq, Repr

namespace TokenKind

/-- The text a token of this kind was read from; the end marker has none. -/
def text : TokenKind → String
  | implies => "==>"
  | orOr => "||"
  | andAnd => "&&"
  | eqEq => "=="
  | bang => "!"
  | lparen => "("
  | rparen => ")"
  | litTrue => "true"
  | litFalse => "false"
  | call => "call"
  | assert => "assert"
  | assume => "assume"
  | free => "free"
  | op text => text
  | int text => text
  | ident name => name
  | eof => ""

/-- Whether a token of this kind can stand in an atom on its own. -/
def isAtomic : TokenKind → Bool
  | op _ | int _ | ident _ => true
  | _ => false

/-- Whether a token of this kind is an identifier. -/
def isIdent : TokenKind → Bool
  | ident _ => true
  | _ => false

/-- The token that the letters, digits and underscores of `word` spell: a
    keyword if they spell one, and an identifier otherwise. -/
def ofWord (word : String) : TokenKind :=
  match word with
  | "true" => litTrue
  | "false" => litFalse
  | "call" => call
  | "assert" => assert
  | "assume" => assume
  | "free" => free
  | name => ident name

end TokenKind

/-- A token and the span of its text. -/
structure Token where
  kind : TokenKind
  span : Span
  deriving DecidableEq, Repr

/-- Why a text is no expression, contract or command. -/
inductive SourceFault where
  /-- No token starts with this character. -/
  | strayCharacter (c : Char)
  /-- The tokens ended inside a phrase. -/
  | endOfInput
  /-- No expression starts here. -/
  | noExpression
  /-- A call names no procedure. -/
  | noIdentifier
  /-- The phrase ended before the text did. -/
  | trailingInput
  /-- A parenthesised expression is not followed by its closing parenthesis. -/
  | unclosedParenthesis
  /-- The arguments of an application are not closed. -/
  | unclosedGroup
  /-- No command starts here. -/
  | noCommand
  deriving DecidableEq, Repr

namespace SourceFault

/-- The wording of a fault. -/
def message : SourceFault → String
  | strayCharacter c => "unexpected character(s) `" ++ c.toString ++ "`"
  | endOfInput => "unexpected end of input"
  | noExpression => "expected an expression"
  | noIdentifier => "expected identifier"
  | trailingInput => "expected end of input"
  | unclosedParenthesis => "expected RParen"
  | unclosedGroup => "unclosed `(` in atom"
  | noCommand => "expected `call`, `assert` or `assume`"

end SourceFault

/-- A fault and the span of the text at fault. -/
structure SourceError where
  fault : SourceFault
  span : Span
  deriving DecidableEq, Repr

end InvariantInference
