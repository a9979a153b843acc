import LetStack.Typing

namespace LetStack

/-- Where checking stopped: the error, and the scopes that were open there. -/
structure Stuck where
  error : TypeError
  scopes : Scopes
deriving DecidableEq, Repr

namespace Expr

mutual

/-- Finds the type of a tree and marks every node it gets through with its type. On an error the
nodes checked by then keep their marks. -/
def check (s : Scopes) : Expr → Expr × Except Stuck Ty
  | letIn i x value body =>
    match value.check s with
    | (value, .error e) => (letIn i x value body, .error e)
    | (value, .ok t) =>
      match body.check (s.var x.id t) with
      | (body, .error e) => (letIn i x value body, .error e)
      | (body, .ok t) => (letIn (i.typed t) x value body, .ok t)
  | letFun i f x paramTy resultTy body rest =>
    let outer := s.arrow f.id ⟨f.display, paramTy, resultTy⟩
    let inner := outer.var x.id paramTy
    match body.check inner with
    | (body, .error e) => (letFun i f x paramTy resultTy body rest, .error e)
    | (body, .ok t) =>
      if t = resultTy then
        match rest.check outer with
        | (rest, .error e) => (letFun i f x paramTy resultTy body rest, .error e)
        | (rest, .ok t) => (letFun (i.typed t) f x paramTy resultTy body rest, .ok t)
      else
        (letFun i f x paramTy resultTy body rest,
          .error ⟨.resultMismatch f.display resultTy t body.span, inner⟩)
  | apply i f arg =>
    match s.funs.lookup f.id with
    | none => (apply i f arg, .error ⟨.undeclaredFunction f.display i.span, s⟩)
    | some a =>
      match arg.check s with
      | (arg, .error e) => (apply i f arg, .error e)
      | (arg, .ok t) =>
        if t = a.param then
          (apply (i.typed a.result) f arg, .ok a.result)
        else
          (apply i f arg, .error ⟨.argumentMismatch a.display a.param t arg.span, s⟩)
  | call i f args =>
    match s.lifted.lookup f with
    | none => (call i f args, .error ⟨.undeclaredFunction f i.span, s⟩)
    | some sig =>
      if args.length = sig.params.length then
        match checkArgs s f args sig.params with
        | (args, .error e) => (call i f args, .error e)
        | (args, .ok ()) => (call (i.typed sig.result) f args, .ok sig.result)
      else
        (call i f args,
          .error ⟨.arityMismatch f sig.params.length args.length i.span, s⟩)
  | seq i first second =>
    match first.check s with
    | (first, .error e) => (seq i first second, .error e)
    | (first, .ok _) =>
      match second.check s with
      | (second, .error e) => (seq i first second, .error e)
      | (second, .ok t) => (seq (i.typed t) first second, .ok t)
  | binary i op left right =>
    match left.check s with
    | (left, .error e) => (binary i op left right, .error e)
    | (left, .ok t) =>
      match right.check s with
      | (right, .error e) => (binary i op left right, .error e)
      | (right, .ok u) =>
        match op.result? t u with
        | none => (binary i op left right, .error ⟨.operandMismatch op t u i.span, s⟩)
        | some v => (binary (i.typed v) op left right, .ok v)
  | var i x =>
    match s.vars.lookup x.id with
    | none => (var i x, .error ⟨.undeclaredVariable x.display i.span, s⟩)
    | some t => (var (i.typed t) x, .ok t)
  | num i n => (num (i.typed .num) n, .ok .num)
  | bool i b => (bool (i.typed .bool) b, .ok .bool)

def checkArgs (s : Scopes) (callee : String) : List Expr → List Ty → List Expr × Except Stuck Unit
  | arg :: args, expected :: params =>
    match arg.check s with
    | (arg, .error e) => (arg :: args, .error e)
    | (arg, .ok t) =>
      if t = expected then
        match checkArgs s callee args params with
        | (args, outcome) => (arg :: args, outcome)
      else
        (arg :: args, .error ⟨.argumentMismatch callee expected t arg.span, s⟩)
  | args, _ => (args, .ok ())

end

end Expr

/-- Checks the body of a lifted function with nothing but its parameters added to the scopes. -/
def Function.check (s : Scopes) (f : Function) : Function × Except Stuck Unit :=
  let inner := s.params f.params
  match f.body.check inner with
  | (body, .error e) => ({ f with body }, .error e)
  | (body, .ok t) =>
    if t = f.resultTy then
      ({ f with body }, .ok ())
    else
      ({ f with body }, .error ⟨.resultMismatch f.name f.resultTy t body.span, inner⟩)

namespace Program

def checkFunctions (s : Scopes) : List Function → List Function × Except Stuck Unit
  | [] => ([], .ok ())
  | f :: fs =>
    match f.check s with
    | (f, .error e) => (f :: fs, .error e)
    | (f, .ok ()) =>
      match checkFunctions s fs with
      | (fs, outcome) => (f :: fs, outcome)

/-- Checks every function, then the main expression, in scopes that know all functions. -/
def check (s : Scopes) (p : Program) : Program × Except Stuck Ty :=
  match checkFunctions s p.functions with
  | (functions, .error e) => ({ p with functions }, .error e)
  | (functions, .ok ()) =>
    match p.main.check s with
    | (main, outcome) => (⟨functions, main⟩, outcome)

end Program

/-- A checked item with its marks, its type or the first error, and the scopes that the next check
starts from: after an error those that it left open. -/
structure Checked (α : Type) where
  item : α
  outcome : Except TypeError Ty
  scopes : Scopes

namespace Checked

def ofCheck {α : Type} (s : Scopes) : α × Except Stuck Ty → Checked α
  | (item, .ok t) => ⟨item, .ok t, s⟩
  | (item, .error e) => ⟨item, .error e.error, e.scopes⟩

end Checked

namespace Scopes

def checkExpr (s : Scopes) (e : Expr) : Checked Expr := .ofCheck s (e.check s)

/-- The functions of a program stay known to later checks. -/
def checkProgram (s : Scopes) (p : Program) : Checked Program :=
  let s := s.declare p.functions
  .ofCheck s (p.check s)

end Scopes

def Expr.typecheck (e : Expr) : Checked Expr := Scopes.checkExpr {} e

end LetStack
