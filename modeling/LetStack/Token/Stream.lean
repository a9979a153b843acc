import LetStack.Token.Lexer

namespace LetStack

/-- The scans still ahead, and the end-of-input token that follows them for ever. -/
structure Stream where
  ahead : List Scan
  eof : Token
deriving Repr

namespace Stream

def ofSource (source : String) : Stream :=
  let (scans, eof) := Lexer.scanAll .start source.toList
  ⟨scans, eof⟩

def next (s : Stream) : Scan × Stream :=
  match s.ahead with
  | [] => (.ok s.eof, s)
  | scan :: rest => (scan, { s with ahead := rest })

/-- The scan `n` places ahead, and the scans left. A lexical error on the way is reported and
dropped; the tokens in front of it stay. -/
def look (eof : Token) : Nat → List Scan → Scan × List Scan
  | _, [] => (.ok eof, [])
  | _, .error e :: rest => (.error e, rest)
  | 0, .ok t :: rest => (.ok t, .ok t :: rest)
  | n + 1, .ok t :: rest =>
    let (scan, rest) := look eof n rest
    (scan, .ok t :: rest)

def peek (n : Nat) (s : Stream) : Scan × Stream :=
  let (scan, ahead) := look s.eof n s.ahead
  (scan, { s with ahead })

end Stream

end LetStack
