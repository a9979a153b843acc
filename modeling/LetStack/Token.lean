import LetStack.BinOp
import LetStack.Span
import LetStack.Ty

namespace LetStack

inductive Token.Kind where
  | number
  | trueLit
  | falseLit
  | letKw
  | inKw
  | numTy
  | boolTy
  | ident
  | plus
  | minus
  | equalEqual
  | less
  | equal
  | colon
  | arrow
  | comma
  | leftParen
  | rightParen
  | eof
deriving DecidableEq, Repr

structure Token where
  kind : Token.Kind
  lexeme : String
  span : Span
deriving DecidableEq, Repr

namespace Token

namespace Kind

def name : Kind → String
  | number => "Number"
  | trueLit => "True"
  | falseLit => "False"
  | letKw => "Let"
  | inKw => "In"
  | numTy => "Num"
  | boolTy => "Bool"
  | ident => "Identifier"
  | plus => "Plus"
  | minus => "Minus"
  | equalEqual => "EqualEqual"
  | less => "Less"
  | equal => "Equal"
  | colon => "Colon"
  | arrow => "Arrow"
  | comma => "Comma"
  | leftParen => "LeftParen"
  | rightParen => "RightParen"
  | eof => "Eof"

/-- How messages speak of a token of this kind. -/
def description : Kind → String
  | number => "number"
  | trueLit => "'true'"
  | falseLit => "'false'"
  | letKw => "'let'"
  | inKw => "'in'"
  | numTy => "'num'"
  | boolTy => "'bool'"
  | ident => "identifier"
  | plus => "'+'"
  | minus => "'-'"
  | equalEqual => "'=='"
  | less => "'<'"
  | equal => "'='"
  | colon => "':'"
  | arrow => "'->'"
  | comma => "','"
  | leftParen => "'('"
  | rightParen => "')'"
  | eof => "end of input"

def startsAtom : Kind → Bool
  | number | trueLit | falseLit | ident | leftParen => true
  | _ => false

def binOp? : Kind → Option BinOp
  | equalEqual => some .eq
  | less => some .lt
  | plus => some .add
  | minus => some .sub
  | _ => none

def ty? : Kind → Option Ty
  | numTy => some .num
  | boolTy => some .bool
  | _ => none

/-- The kind of a run of identifier characters. -/
def ofIdentifier (lexeme : String) : Kind :=
  match lexeme with
  | "let" => letKw
  | "in" => inKw
  | "num" => numTy
  | "bool" => boolTy
  | "true" => trueLit
  | "false" => falseLit
  | _ => ident

end Kind

/-- Identifiers and numbers are shown with their spelling, other tokens by their kind alone. -/
def describe (t : Token) : String :=
  match t.kind with
  | .ident | .number => s!"{t.kind.description} '{t.lexeme}'"
  | kind => kind.description

def text (t : Token) : String := s!"{t.kind.name}(\"{t.lexeme}\" @ {t.span})"

end Token

end LetStack
