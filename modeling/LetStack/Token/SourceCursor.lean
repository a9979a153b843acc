import LetStack.Token.Lexer

namespace LetStack

/-- How far a text has been read: the bytes so far, and the line and column that come next. -/
structure Counters where
  offset : UInt32 := 0
  line : UInt32 := 1
  col : UInt32 := 1
deriving DecidableEq, Repr

namespace Counters

/-- The sum, if it can be counted in 32 bits. -/
def add (n : UInt32) (k : Nat) : Option UInt32 :=
  if n.toNat + k < 4294967296 then some (.ofNat (n.toNat + k)) else none

def step (k : Counters) (c : Char) : Option Counters := do
  let offset ← add k.offset c.utf8Size
  if c = '\n' then
    let line ← add k.line 1
    return { offset, line, col := 1 }
  else
    let col ← add k.col c.utf8Size
    return { k with offset, col }

def stepAll (k : Counters) (cs : List Char) : Option Counters := cs.foldlM step k

def span (k : Counters) (lexeme : String) : Span := ⟨k.line.toNat, k.col.toNat, lexeme.utf8ByteSize⟩

end Counters

/-- A place in a text: what is left of it, and the counters there. -/
structure SourceCursor where
  rest : List Char
  counters : Counters := {}
deriving DecidableEq, Repr

namespace SourceCursor

open Lexer

/-- The text between two offsets, if they do not cut a character in two. -/
def slice (source : String) (start stop : UInt32) : Option String :=
  String.fromUTF8? (source.toByteArray.extract start.toNat stop.toNat)

def eatWhile (f : Char → Bool) : List Char → Counters → Option SourceCursor
  | [], k => some ⟨[], k⟩
  | c :: cs, k =>
    if f c then do
      let k ← k.step c
      eatWhile f cs k
    else some ⟨c :: cs, k⟩

theorem eatWhile_rest {f : Char → Bool} {cs : List Char} {k : Counters} {p : SourceCursor}
    (h : eatWhile f cs k = some p) : p.rest = cs.dropWhile f := by
  induction cs generalizing k with
  | nil =>
    cases h
    rfl
  | cons c cs ih =>
    rw [eatWhile] at h
    split at h
    next hc =>
      obtain ⟨k₁, -, h⟩ := Option.bind_eq_some_iff.mp h
      rw [ih h, List.dropWhile_cons_of_pos hc]
    next hc =>
      cases h
      rw [List.dropWhile_cons_of_neg hc]

theorem eatWhile_rest_length_le {f : Char → Bool} {cs : List Char} {k : Counters} {p : SourceCursor}
    (h : eatWhile f cs k = some p) : p.rest.length ≤ cs.length := by
  rw [eatWhile_rest h]
  exact dropWhile_length_le f cs

theorem eatWhile_rest_shorter {f : Char → Bool} {cs : List Char} {c : Char} {k : Counters}
    {p : SourceCursor} (h : eatWhile f cs k = some p) (hc : cs.head? = some c) (hf : f c = true) :
    p.rest.length < cs.length := by
  obtain ⟨tail, rfl⟩ := List.head?_eq_some_iff.mp hc
  rw [eatWhile_rest h, List.dropWhile_cons_of_pos hf]
  exact Nat.lt_succ_of_le (dropWhile_length_le f tail)

/-- Blanks, then as often as there is one a comment up to its newline and blanks again. -/
def skipTrivia (cs : List Char) (k : Counters) : Option SourceCursor :=
  match h : eatWhile Text.isBlank cs k with
  | none => none
  | some p =>
    if hslash : p.rest.head? = some '/' ∧ p.rest[1]? = some '/' then
      match h' : eatWhile (· != '\n') p.rest p.counters with
      | none => none
      | some q =>
        have : q.rest.length < cs.length :=
          Nat.lt_of_lt_of_le (eatWhile_rest_shorter h' hslash.1 (by decide))
            (eatWhile_rest_length_le h)
        skipTrivia q.rest q.counters
    else some p
termination_by cs.length

/-- Scans digits. They stand alone unless an identifier character follows them directly. -/
def scanNumber (source : String) (cs : List Char) (k : Counters) : Option (Scan × SourceCursor) := do
  let stop ← eatWhile Char.isDigit cs k
  let lexeme ← slice source k.offset stop.counters.offset
  let scan : Scan :=
    if stop.rest.head?.any isIdentStart then .error ⟨.identifierAfterNumber, k.span lexeme⟩
    else if Text.decimal lexeme.toList ≤ Word.greatest then .ok ⟨.number, lexeme, k.span lexeme⟩
    else .error ⟨.numberTooLarge lexeme, k.span lexeme⟩
  return (scan, stop)

def scanIdentifier (source : String) (cs : List Char) (k : Counters) :
    Option (Scan × SourceCursor) := do
  let stop ← eatWhile isIdentRest cs k
  let lexeme ← slice source k.offset stop.counters.offset
  return (.ok ⟨.ofIdentifier lexeme, lexeme, k.span lexeme⟩, stop)

/-- Scans a sign of one or two characters. -/
def scanSymbol (source : String) (c : Char) (cs : List Char) (k : Counters) :
    Option (Scan × SourceCursor) := do
  let b := biteSymbol c cs
  let counters ← k.stepAll (c :: b.tail)
  match b.verdict with
  | .error cause =>
    return (.error ⟨cause, k.line.toNat, k.col.toNat, c.utf8Size⟩, ⟨b.rest, counters⟩)
  | .ok kind =>
    let lexeme ← slice source k.offset counters.offset
    return (.ok ⟨kind, lexeme, k.span lexeme⟩, ⟨b.rest, counters⟩)

/-- Scans one token. There is no scan where the text is too long for the counters. -/
def scan (source : String) (p : SourceCursor) : Option (Scan × SourceCursor) := do
  let p ← skipTrivia p.rest p.counters
  match p.rest with
  | [] => return (.ok ⟨.eof, "", p.counters.span ""⟩, p)
  | c :: cs =>
    if c.isDigit then scanNumber source (c :: cs) p.counters
    else if isIdentStart c then scanIdentifier source (c :: cs) p.counters
    else scanSymbol source c cs p.counters

theorem skipTrivia_rest_length_le {cs : List Char} {k : Counters} {p : SourceCursor}
    (h : skipTrivia cs k = some p) : p.rest.length ≤ cs.length := by
  fun_induction skipTrivia cs k with
  | case1 | case2 => cases h
  | case3 cs k p hblank hslash q hcomment hlt ih =>
    exact Nat.le_of_lt (Nat.lt_of_le_of_lt (ih h) hlt)
  | case4 cs k p hblank hslash =>
    cases h
    exact eatWhile_rest_length_le hblank

theorem scan_rest_shorter {source : String} {p q : SourceCursor} {t : Token}
    (h : scan source p = some (.ok t, q)) (ht : t.kind ≠ .eof) : q.rest.length < p.rest.length := by
  obtain ⟨p₁, hp₁, h⟩ := Option.bind_eq_some_iff.mp h
  refine Nat.lt_of_lt_of_le ?_ (skipTrivia_rest_length_le hp₁)
  split at h
  next =>
    cases h
    exact absurd rfl ht
  next c cs hrest =>
    have hhead : (c :: cs).head? = some c := rfl
    rw [hrest]
    split at h
    next hdigit =>
      obtain ⟨stop, hstop, h⟩ := Option.bind_eq_some_iff.mp h
      obtain ⟨lexeme, -, h⟩ := Option.bind_eq_some_iff.mp h
      obtain ⟨-, rfl⟩ := Prod.mk.inj (Option.some.inj h)
      exact eatWhile_rest_shorter hstop hhead hdigit
    next =>
      split at h
      next hident =>
        obtain ⟨stop, hstop, h⟩ := Option.bind_eq_some_iff.mp h
        obtain ⟨lexeme, -, h⟩ := Option.bind_eq_some_iff.mp h
        obtain ⟨-, rfl⟩ := Prod.mk.inj (Option.some.inj h)
        exact eatWhile_rest_shorter hstop hhead (isIdentRest_of_isIdentStart hident)
      next =>
        obtain ⟨counters, -, h⟩ := Option.bind_eq_some_iff.mp h
        split at h
        next => cases h
        next =>
          obtain ⟨lexeme, -, h⟩ := Option.bind_eq_some_iff.mp h
          obtain ⟨-, rfl⟩ := Prod.mk.inj (Option.some.inj h)
          exact Nat.lt_succ_of_le (biteSymbol_rest_length_le c cs)

/-- Scans up to the end of the text or the first lexical error. -/
def tokens (source : String) (p : SourceCursor) : Option (Except LexError (List Token)) :=
  match h : scan source p with
  | none => none
  | some (.error e, _) => some (.error e)
  | some (.ok t, q) =>
    if ht : t.kind = .eof then some (.ok [t])
    else
      have := scan_rest_shorter h ht
      (tokens source q).map fun ts => ts.map (t :: ·)
termination_by p.rest.length

def tokenize (source : String) : Option (Except LexError (List Token)) :=
  tokens source ⟨source.toList, {}⟩

end SourceCursor

end LetStack
