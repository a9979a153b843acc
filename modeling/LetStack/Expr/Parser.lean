import LetStack.Expr
import LetStack.Expr.ParseError
import LetStack.Token.Stream

namespace LetStack

/-- Reads from a stream of scans. An error leaves the stream where it was met: tokens read are
gone, tokens only looked at remain. -/
abbrev Parser := EStateM ParseError Stream

namespace Parser

def ofScan (step : Stream → Scan × Stream) : Parser Token := fun s =>
  match step s with
  | (.ok t, s) => .ok t s
  | (.error e, s) => .error (.ofLexError e) s

def next : Parser Token := ofScan Stream.next

def peekAt (n : Nat) : Parser Token := ofScan (Stream.peek n)

def peek : Parser Token := peekAt 0

def take (kind : Token.Kind) (otherwise : ParseError.Kind) : Parser Token := do
  let t ← peek
  if t.kind = kind then next
  else throw (.unexpected otherwise kind.description t)

def expect (kind : Token.Kind) : Parser Token := take kind .expectedToken

def identifier : Parser Name := do
  let t ← take .ident .expectedIdentifier
  return .plain t.lexeme

def type : Parser Ty := do
  let t ← peek
  match t.kind.ty? with
  | some ty =>
    let _ ← next
    return ty
  | none => throw (.unexpected .expectedType "type 'num' or 'bool'" t)

def noExpression (t : Token) : Parser Expr :=
  throw (.unexpected .expectedExpression "expression" t)

mutual

/-- Terms joined by commas, grouping to the right. The first argument bounds the nesting of calls
in this block; `expression` gives as much as the stream can ask for. -/
def sequence : Nat → Parser Expr
  | 0 => do noExpression (← peek)
  | n + 1 => do
    let first ← term n
    if (← peek).kind = .comma then
      let _ ← next
      let second ← sequence n
      return .seq (.untyped (first.span.merge second.span)) first second
    else
      return first

def term : Nat → Parser Expr
  | 0 => do noExpression (← peek)
  | n + 1 => do
    if (← peek).kind = .letKw then letForm n else operators n 0

/-- A binding; a second identifier behind the first makes it a function. -/
def letForm : Nat → Parser Expr
  | 0 => do noExpression (← peek)
  | n + 1 => do
    let start ← expect .letKw
    let name ← identifier
    if (← peek).kind = .ident then
      let param ← identifier
      let _ ← expect .colon
      let paramTy ← type
      let _ ← expect .arrow
      let resultTy ← type
      let _ ← expect .equal
      let body ← term n
      let _ ← expect .inKw
      let rest ← term n
      return .letFun (.untyped (start.span.merge rest.span)) name param paramTy resultTy body rest
    else
      let _ ← expect .equal
      let value ← term n
      let _ ← expect .inKw
      let body ← term n
      return .letIn (.untyped (start.span.merge body.span)) name value body

/-- Operands joined by operators that bind at least as tightly as `least`. -/
def operators : Nat → (least : Nat) → Parser Expr
  | 0, _ => do noExpression (← peek)
  | n + 1, least => do
    let left ← operand n
    extend n least left

def extend : Nat → (least : Nat) → (left : Expr) → Parser Expr
  | 0, _, _ => do noExpression (← peek)
  | n + 1, least, left => do
    match (← peek).kind.binOp? with
    | none => return left
    | some op =>
      if op.bindingPower.1 < least then
        return left
      else
        let _ ← next
        let right ← operators n op.bindingPower.2
        extend n least (.binary (.untyped (left.span.merge right.span)) op left right)

/-- An identifier in front of an atom calls the function of that name. -/
def operand : Nat → Parser Expr
  | 0 => do noExpression (← peek)
  | n + 1 => do
    match (← peek).kind with
    | .letKw => letForm n
    | .ident =>
      -- This may run into a lexical error behind a name that would have stood by itself.
      if (← peekAt 1).kind.startsAtom then
        let callee ← next
        let arg ← atom n
        return .apply (.untyped (callee.span.merge arg.span)) (.plain callee.lexeme) arg
      else
        atom n
    | _ => atom n

def atom : Nat → Parser Expr
  | 0 => do noExpression (← peek)
  | n + 1 => do
    let t ← peek
    match t.kind with
    | .number =>
      let _ ← next
      return .num (.untyped t.span) (Int32.ofNat (Text.decimal t.lexeme.toList))
    | .trueLit =>
      let _ ← next
      return .bool (.untyped t.span) true
    | .falseLit =>
      let _ ← next
      return .bool (.untyped t.span) false
    | .ident =>
      let _ ← next
      return .var (.untyped t.span) (.plain t.lexeme)
    | .leftParen =>
      let _ ← next
      let inner ← sequence n
      let _ ← expect .rightParen
      return inner
    | _ => noExpression t

end

/-- Enough for every stream: at most six calls nest between two tokens read. -/
def depthFor (s : Stream) : Nat := 6 * (s.ahead.length + 1)

def expression : Parser Expr := fun s => sequence (depthFor s) s

/-- One expression and nothing behind it. -/
def whole : Parser Expr := do
  let e ← expression
  let t ← peek
  if t.kind = .eof then return e
  else throw ⟨.unexpectedToken, t.span, s!"unexpected {t.describe} after complete expression"⟩

end Parser

def parse (source : String) : Except ParseError Expr :=
  match Parser.whole (Stream.ofSource source) with
  | .ok e _ => .ok e
  | .error e _ => .error e

end LetStack
