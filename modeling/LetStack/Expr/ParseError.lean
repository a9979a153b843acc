import LetStack.Token.Lexer

namespace LetStack

inductive ParseError.Kind where
  | invalidToken
  | expectedToken
  | expectedExpression
  | expectedIdentifier
  | expectedType
  | unexpectedToken
  | unexpectedEof
deriving DecidableEq, Repr

def ParseError.Kind.text : Kind → String
  | invalidToken => "invalid token"
  | expectedToken => "expected token"
  | expectedExpression => "expected expression"
  | expectedIdentifier => "expected identifier"
  | expectedType => "expected type"
  | unexpectedToken => "unexpected token"
  | unexpectedEof => "unexpected end of input"

structure ParseError where
  kind : ParseError.Kind
  span : Span
  detail : String
deriving DecidableEq, Repr

namespace ParseError

def message (e : ParseError) : String := s!"{e.kind.text} at {e.span}: {e.detail}"

def ofLexError (e : LexError) : ParseError := ⟨.invalidToken, e.span, e.message⟩

def expectedToken (span : Span) (expected found : String) : ParseError :=
  ⟨.expectedToken, span, s!"expected {expected}, found {found}"⟩

/-- At the end of the text the missing rest is the error, whatever was expected. -/
def unexpected (kind : Kind) (expected : String) (found : Token) : ParseError :=
  ⟨if found.kind = .eof then .unexpectedEof else kind, found.span,
    s!"expected {expected}, found {found.describe}"⟩

end ParseError

end LetStack
