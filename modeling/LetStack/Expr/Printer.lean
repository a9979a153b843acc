import LetStack.Expr

namespace LetStack

/-- Which of its two spellings a name is printed with. -/
inductive NameMode where
  | resolved
  | display
deriving DecidableEq, Repr

def Name.shown (mode : NameMode) (n : Name) : String :=
  match mode with
  | .resolved => n.id
  | .display => n.display

namespace Expr

/-- How tightly the printed form of a tree holds together: a sequence least, an atom most. -/
def level : Expr → Nat
  | seq .. => 0
  | letIn .. | letFun .. => 1
  | binary _ op .. => op.precedence
  | apply .. | call .. => 4
  | var .. | num .. | bool .. => 5

/-- Puts parentheses around the text of a tree that is looser than its place allows. -/
def wrap (least : Nat) (e : Expr) (text : String) : String :=
  if e.level < least then "(" ++ text ++ ")" else text

/-- A sum to the right of `+` needs no parentheses; other right operands must be tighter than
their operator. -/
def rightLevel (op : BinOp) : Expr → Nat
  | binary _ .add .. => if op = .add then op.precedence else op.precedence + 1
  | _ => op.precedence + 1

mutual

def render (mode : NameMode) : Expr → String
  | letIn _ x value body =>
    s!"let {x.shown mode} = " ++ value.wrap 1 (value.render mode) ++ " in " ++
      body.wrap 1 (body.render mode)
  | letFun _ f x paramTy resultTy body rest =>
    s!"let {f.shown mode} {x.shown mode} : {paramTy} -> {resultTy} = " ++
      body.wrap 1 (body.render mode) ++ " in " ++ rest.wrap 1 (rest.render mode)
  | apply _ f arg => f.shown mode ++ " " ++ arg.wrap 5 (arg.render mode)
  | call _ f args => f ++ renderArgs mode args
  | seq _ first second =>
    first.wrap 1 (first.render mode) ++ ", " ++ second.wrap 0 (second.render mode)
  | binary _ op left right =>
    left.wrap op.precedence (left.render mode) ++ s!" {op} " ++
      right.wrap (rightLevel op right) (right.render mode)
  | var _ x => x.shown mode
  | num _ n => n.text
  | bool _ b => if b then "true" else "false"

def renderArgs (mode : NameMode) : List Expr → String
  | [] => ""
  | e :: es => " " ++ e.wrap 5 (e.render mode) ++ renderArgs mode es

end

end Expr

end LetStack
