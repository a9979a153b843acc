namespace LetStack

/-- A stretch of source text: line and byte column of its start, counted from one, and its length
in bytes. -/
structure Span where
  line : Nat
  col : Nat
  len : Nat
deriving DecidableEq, Repr

namespace Span

def point (line col : Nat) : Span := ⟨line, col, 0⟩

def isEmpty (s : Span) : Bool := s.len == 0

/-- The column just behind the span. -/
def stop (s : Span) : Nat := s.col + s.len

/-- On one line the hull of both spans; across lines the first start with the two lengths added. -/
def merge (s t : Span) : Span :=
  if s.line = t.line then
    let col := min s.col t.col
    ⟨s.line, col, max s.stop t.stop - col⟩
  else
    ⟨s.line, s.col, s.len + t.len⟩

def text (s : Span) : String := s!"{s.line}:{s.col}"

instance : ToString Span := ⟨text⟩

end Span

end LetStack
