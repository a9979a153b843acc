import LetStack.Token.Lexer

namespace LetStack

/-- What is left of a text, and where it starts. -/
structure Lexer.Cursor where
  pos : Position
  rest : List Char
deriving DecidableEq, Repr

/-- Scans one token. At the end of the text every scan gives the end again. -/
def Lexer.Cursor.scan (cursor : Cursor) : Scan × Cursor :=
  match skipTrivia false cursor.pos cursor.rest with
  | (q, []) => (.ok ⟨.eof, "", .point q.line q.col⟩, ⟨q, []⟩)
  | (q, c :: cs) =>
    let b := bite c cs
    (b.scan q (String.ofList (c :: b.tail)), ⟨q.after (c :: b.tail), b.rest⟩)

/-- Scans a text on demand. The buffer holds the tokens that were looked at before their turn. -/
structure Reader where
  buffer : Array Token
  cursor : Lexer.Cursor
deriving Repr

namespace Reader

def ofSource (source : String) : Reader := ⟨#[], .start, source.toList⟩

def next (r : Reader) : Scan × Reader :=
  match r.buffer[0]? with
  | some t => (.ok t, { r with buffer := r.buffer.extract 1 })
  | none =>
    let (scan, cursor) := r.cursor.scan
    (scan, { r with cursor })

/-- Scans `n` more tokens into the buffer, or as many as stand in front of a lexical error. -/
def fill : Nat → Reader → Option LexError × Reader
  | 0, r => (none, r)
  | n + 1, r =>
    match r.cursor.scan with
    | (.ok t, cursor) => fill n ⟨r.buffer.push t, cursor⟩
    | (.error e, cursor) => (some e, { r with cursor })

theorem fill_size {n : Nat} {r r' : Reader} (h : fill n r = (none, r')) :
    r'.buffer.size = r.buffer.size + n := by
  induction n generalizing r with
  | zero =>
    cases h
    rfl
  | succ n ih =>
    unfold fill at h
    split at h
    · rw [ih h, Array.size_push]
      omega
    · cases h

/-- The token `n` places ahead, which waits in the buffer from then on. -/
def peek (n : Nat) (r : Reader) : Scan × Reader :=
  match h : fill (n + 1 - r.buffer.size) r with
  | (some e, r') => (.error e, r')
  | (none, r') =>
    have hlt : n < r'.buffer.size := by
      have := fill_size h
      omega
    (.ok r'.buffer[n], r')

end Reader

end LetStack
