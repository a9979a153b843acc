import LetStack.Program

namespace LetStack

inductive TypeError where
  | undeclaredVariable (name : String) (span : Span)
  | undeclaredFunction (name : String) (span : Span)
  | argumentMismatch (function : String) (expected found : Ty) (span : Span)
  | arityMismatch (function : String) (expected found : Nat) (span : Span)
  | resultMismatch (function : String) (expected found : Ty) (span : Span)
  | operandMismatch (op : BinOp) (left right : Ty) (span : Span)
deriving DecidableEq, Repr

/-- The type of an operator's result, where its operands fit. -/
def BinOp.result? (op : BinOp) (left right : Ty) : Option Ty :=
  match op, left, right with
  | .add, .num, .num | .sub, .num, .num => some .num
  | .lt, .num, .num => some .bool
  | .eq, _, _ => if left = right then some .bool else none
  | _, _, _ => none

def BinOp.demand (op : BinOp) : String :=
  match op with
  | .eq => s!"'{op}' expects operands of the same type"
  | .lt | .add | .sub => s!"'{op}' expects number operands"

namespace TypeError

def span : TypeError → Span
  | undeclaredVariable _ s | undeclaredFunction _ s | argumentMismatch _ _ _ s
  | arityMismatch _ _ _ s | resultMismatch _ _ _ s | operandMismatch _ _ _ s => s

def message : TypeError → String
  | undeclaredVariable name s => s!"at {s}: variable '{name}' not declared"
  | undeclaredFunction name s => s!"at {s}: function '{name}' not declared"
  | argumentMismatch function expected found s =>
    s!"at {s}: argument type mismatch in call to '{function}': expected {expected}, found {found}"
  | arityMismatch function expected found s =>
    s!"at {s}: '{function}' expects {expected} argument(s), found {found}"
  | resultMismatch function expected found s =>
    s!"at {s}: return type mismatch in '{function}': declared {expected}, body has {found}"
  | operandMismatch op left right s =>
    s!"at {s}: {op.demand} (found {left} {op} {right})"

end TypeError

/-- A function of one parameter; `display` names it in messages. -/
structure Arrow where
  display : String
  param : Ty
  result : Ty
deriving DecidableEq, Repr

/-- A function of a lifted program. -/
structure Signature where
  params : List Ty
  result : Ty
deriving DecidableEq, Repr

def Function.signature (f : Function) : Signature := ⟨f.params.map Param.ty, f.resultTy⟩

/-- Variables and functions in sight, innermost first, and the functions of lifted programs, latest
first. -/
structure Scopes where
  vars : List (String × Ty) := []
  funs : List (String × Arrow) := []
  lifted : List (String × Signature) := []
deriving DecidableEq, Repr

namespace Scopes

def var (s : Scopes) (x : String) (ty : Ty) : Scopes := { s with vars := (x, ty) :: s.vars }

def arrow (s : Scopes) (f : String) (a : Arrow) : Scopes := { s with funs := (f, a) :: s.funs }

/-- Of two parameters of one name the later is the one in sight. -/
def params (s : Scopes) (ps : List Param) : Scopes := ps.foldl (fun s p => s.var p.name p.ty) s

/-- Of two functions of one name the later is the one that calls refer to. -/
def declare (s : Scopes) (fs : List Function) : Scopes :=
  { s with lifted := fs.foldl (fun l f => (f.name, f.signature) :: l) s.lifted }

end Scopes

end LetStack
