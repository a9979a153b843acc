import LetStack.Expr

namespace LetStack

structure Param where
  name : String
  display : String
  ty : Ty
deriving DecidableEq, Repr

/-- A top-level function: the parameter it was written with, then one for each captured variable. -/
structure Function where
  name : String
  params : List Param
  resultTy : Ty
  body : Expr
  span : Span

namespace Function

def arity (f : Function) : Nat := f.params.length

def captures (f : Function) : List String := (f.params.drop 1).map Param.name

end Function

/-- Top-level functions and the expression that uses them. -/
structure Program where
  functions : List Function
  main : Expr

def Program.function? (p : Program) (name : String) : Option Function :=
  p.functions.find? fun f => f.name == name

end LetStack
