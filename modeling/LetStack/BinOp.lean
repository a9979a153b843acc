namespace LetStack

inductive BinOp where
  | eq
  | lt
  | add
  | sub
deriving DecidableEq, Repr

/-- Whether an operator may be regrouped to the right without changing its value. -/
inductive Associativity where
  | left
  | both
deriving DecidableEq, Repr

namespace BinOp

def symbol : BinOp → String
  | eq => "=="
  | lt => "<"
  | add => "+"
  | sub => "-"

def ofSymbol? (s : String) : Option BinOp :=
  [eq, lt, add, sub].find? fun op => op.symbol == s

/-- Sums bind tighter than comparisons. -/
def precedence : BinOp → Nat
  | eq | lt => 2
  | add | sub => 3

def associativity : BinOp → Associativity
  | add => .both
  | eq | lt | sub => .left

/-- How tightly an operator holds its two sides; the right side more, so that equal operators
group to the left. -/
def bindingPower (op : BinOp) : Nat × Nat := (2 * op.precedence, 2 * op.precedence + 1)

instance : ToString BinOp := ⟨symbol⟩

end BinOp

end LetStack
