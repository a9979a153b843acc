import LetStack.BinOp
import LetStack.Ty
import LetStack.Word

namespace LetStack

inductive Value where
  | num (n : Word)
  | bool (b : Bool)
deriving DecidableEq, Repr

namespace Value

def ty : Value → Ty
  | num _ => .num
  | bool _ => .bool

def text : Value → String
  | num n => n.text
  | bool b => if b then "true" else "false"

/-- The machine's form of a value. -/
def word : Value → Word
  | num n => n
  | bool b => .ofBool b

end Value

/-- The value of an operator, where its operands fit. -/
def BinOp.apply? (op : BinOp) (left right : Value) : Option Value :=
  match op, left, right with
  | .add, .num a, .num b => some (.num (a + b))
  | .sub, .num a, .num b => some (.num (a - b))
  | .lt, .num a, .num b => some (.bool (a < b))
  | .eq, .num a, .num b => some (.bool (a == b))
  | .eq, .bool a, .bool b => some (.bool (a == b))
  | _, _, _ => none

end LetStack
