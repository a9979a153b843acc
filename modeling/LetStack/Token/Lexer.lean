import LetStack.Text.Blank
import LetStack.Text.Decimal
import LetStack.Token
import LetStack.Word

namespace LetStack

inductive LexError.Cause where
  | unexpectedChar (c : Char)
  | identifierAfterNumber
  | numberTooLarge (lexeme : String)
deriving DecidableEq, Repr

structure LexError where
  cause : LexError.Cause
  span : Span
deriving DecidableEq, Repr

def LexError.message (e : LexError) : String :=
  match e.cause with
  | .unexpectedChar c => s!"unexpected character '{c}' at {e.span}"
  | .identifierAfterNumber =>
    s!"invalid number at {e.span}: identifier characters directly after a number"
  | .numberTooLarge lexeme =>
    s!"invalid number at {e.span}: '{lexeme}' does not fit in a 32-bit integer"

abbrev Scan := Except LexError Token

namespace Lexer

structure Position where
  line : Nat
  col : Nat
deriving DecidableEq, Repr

namespace Position

def start : Position := ⟨1, 1⟩

/-- Columns count bytes; a newline starts the next line. -/
def step (p : Position) (c : Char) : Position :=
  if c = '\n' then ⟨p.line + 1, 1⟩ else ⟨p.line, p.col + c.utf8Size⟩

def after (p : Position) (cs : List Char) : Position := cs.foldl step p

end Position

def isIdentStart (c : Char) : Bool := c.isAlpha || c == '_'

def isIdentRest (c : Char) : Bool := c.isAlphanum || c == '_'

/-- Drops white space and line comments. A comment ends in front of its newline, which is white
space itself. -/
def skipTrivia (inComment : Bool) (p : Position) : List Char → Position × List Char
  | [] => (p, [])
  | c :: cs =>
    if inComment then skipTrivia (c != '\n') (p.step c) cs
    else if Text.isBlank c then skipTrivia false (p.step c) cs
    else if c = '/' ∧ cs.head? = some '/' then skipTrivia true (p.step c) cs
    else (p, c :: cs)

/-- What a scan takes behind its first character, what it leaves, and what it makes of it. -/
structure Bite where
  tail : List Char
  rest : List Char
  verdict : Except LexError.Cause Token.Kind

/-- The digits stand alone unless an identifier character follows them directly. -/
def biteNumber (c : Char) (cs : List Char) : Bite :=
  let tail := cs.takeWhile Char.isDigit
  let rest := cs.dropWhile Char.isDigit
  ⟨tail, rest,
    if rest.head?.any isIdentStart then .error .identifierAfterNumber
    else if Text.decimal (c :: tail) ≤ Word.greatest then .ok .number
    else .error (.numberTooLarge (String.ofList (c :: tail)))⟩

def biteIdentifier (c : Char) (cs : List Char) : Bite :=
  let tail := cs.takeWhile isIdentRest
  ⟨tail, cs.dropWhile isIdentRest, .ok (.ofIdentifier (String.ofList (c :: tail)))⟩

def biteSymbol (c : Char) (cs : List Char) : Bite :=
  match c, cs with
  | '-', '>' :: rest => ⟨['>'], rest, .ok .arrow⟩
  | '=', '=' :: rest => ⟨['='], rest, .ok .equalEqual⟩
  | '+', _ => ⟨[], cs, .ok .plus⟩
  | '-', _ => ⟨[], cs, .ok .minus⟩
  | '=', _ => ⟨[], cs, .ok .equal⟩
  | '<', _ => ⟨[], cs, .ok .less⟩
  | ':', _ => ⟨[], cs, .ok .colon⟩
  | ',', _ => ⟨[], cs, .ok .comma⟩
  | '(', _ => ⟨[], cs, .ok .leftParen⟩
  | ')', _ => ⟨[], cs, .ok .rightParen⟩
  | _, _ => ⟨[], cs, .error (.unexpectedChar c)⟩

def bite (c : Char) (cs : List Char) : Bite :=
  if c.isDigit then biteNumber c cs
  else if isIdentStart c then biteIdentifier c cs
  else biteSymbol c cs

def Bite.scan (b : Bite) (p : Position) (lexeme : String) : Scan :=
  let span : Span := ⟨p.line, p.col, lexeme.utf8ByteSize⟩
  match b.verdict with
  | .ok kind => .ok ⟨kind, lexeme, span⟩
  | .error cause => .error ⟨cause, span⟩

theorem skipTrivia_length_le (inComment : Bool) (p : Position) (cs : List Char) :
    (skipTrivia inComment p cs).2.length ≤ cs.length := by
  induction cs generalizing inComment p with
  | nil => simp [skipTrivia]
  | cons c cs ih =>
    have h := fun b => ih b (p.step c)
    unfold skipTrivia
    split
    · exact Nat.le_succ_of_le (h _)
    · split
      · exact Nat.le_succ_of_le (h _)
      · split
        · exact Nat.le_succ_of_le (h _)
        · exact Nat.le_refl _

theorem isIdentRest_of_isIdentStart {c : Char} (h : isIdentStart c = true) :
    isIdentRest c = true := by
  simp only [isIdentStart, isIdentRest, Char.isAlphanum, Bool.or_eq_true] at h ⊢
  exact h.imp_left .inl

theorem dropWhile_length_le (f : Char → Bool) (cs : List Char) :
    (cs.dropWhile f).length ≤ cs.length :=
  (List.dropWhile_sublist f).length_le

theorem biteSymbol_rest_length_le (c : Char) (cs : List Char) :
    (biteSymbol c cs).rest.length ≤ cs.length := by
  unfold biteSymbol
  split <;> simp

theorem bite_rest_length_le (c : Char) (cs : List Char) : (bite c cs).rest.length ≤ cs.length := by
  unfold bite
  split
  · exact dropWhile_length_le _ _
  · split
    · exact dropWhile_length_le _ _
    · exact biteSymbol_rest_length_le c cs

theorem bite_rest_shorter {p q : Position} {c : Char} {cs cs' : List Char}
    (h : skipTrivia false p cs = (q, c :: cs')) : (bite c cs').rest.length < cs.length := by
  have h₁ := skipTrivia_length_le false p cs
  have h₂ := bite_rest_length_le c cs'
  rw [h] at h₁
  simp only [List.length_cons] at h₁
  omega

/-- All scans up to the end of the text, and the token that stands for the end. -/
def scanAll (p : Position) (cs : List Char) : List Scan × Token :=
  match h : skipTrivia false p cs with
  | (q, []) => ([], ⟨.eof, "", .point q.line q.col⟩)
  | (q, c :: cs') =>
    have := bite_rest_shorter h
    let b := bite c cs'
    let (scans, eof) := scanAll (q.after (c :: b.tail)) b.rest
    (b.scan q (String.ofList (c :: b.tail)) :: scans, eof)
termination_by cs.length

end Lexer

/-- All tokens of a text, closed by the end-of-input token, or the first lexical error. -/
def tokenize (source : String) : Except LexError (List Token) := do
  let (scans, eof) := Lexer.scanAll .start source.toList
  let tokens ← scans.mapM id
  return tokens ++ [eof]

end LetStack
