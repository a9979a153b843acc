import LetStack.Table
import LetStack.Typing.Check

namespace LetStack

/-- Tables inside each other, the innermost first. -/
abbrev TableStack (α : Type) := List (Table α)

namespace TableStack

variable {α : Type}

/-- Binds in the innermost table, if there is one. -/
def bind : TableStack α → String → α → TableStack α
  | [], _, _ => []
  | scope :: outer, x, a => scope.put x a :: outer

def find? (stack : TableStack α) (x : String) : Option α := stack.findSome? (·.lookup x)

end TableStack

/-- The state of the checker: two stacks that grow and shrink together, and the functions of lifted
programs. -/
structure Checker where
  vars : TableStack Ty := []
  funs : TableStack Arrow := []
  lifted : Table Signature := []
deriving DecidableEq, Repr

/-- A tree or a program after the checker was there, what it said, and its state. -/
structure Visit (α β : Type) where
  item : α
  outcome : Except TypeError β
  checker : Checker

namespace Checker

def pushScope (c : Checker) : Checker := { c with vars := [] :: c.vars, funs := [] :: c.funs }

def popScope (c : Checker) : Checker := { c with vars := c.vars.tail, funs := c.funs.tail }

def bindVar (c : Checker) (x : String) (ty : Ty) : Checker := { c with vars := c.vars.bind x ty }

def bindFun (c : Checker) (f : String) (a : Arrow) : Checker := { c with funs := c.funs.bind f a }

def bindParams (c : Checker) (ps : List Param) : Checker :=
  ps.foldl (fun c p => c.bindVar p.name p.ty) c

def declare (c : Checker) (fs : List Function) : Checker :=
  { c with lifted := fs.foldl (fun t f => t.put f.name f.signature) c.lifted }

mutual

/-- Pushes a scope for every binder on the way in and pops it on the way out. An error goes straight
out, past every scope that is still to be popped. -/
def expr : Expr → Checker → Visit Expr Ty
  | .letIn i x value body, c =>
    match expr value c with
    | ⟨value, .error e, c⟩ => ⟨.letIn i x value body, .error e, c⟩
    | ⟨value, .ok t, c⟩ =>
      match expr body (c.pushScope.bindVar x.id t) with
      | ⟨body, .error e, c⟩ => ⟨.letIn i x value body, .error e, c⟩
      | ⟨body, .ok t, c⟩ => ⟨.letIn (i.typed t) x value body, .ok t, c.popScope⟩
  | .letFun i f x paramTy resultTy body rest, c =>
    let outer := c.pushScope.bindFun f.id ⟨f.display, paramTy, resultTy⟩
    match expr body (outer.pushScope.bindVar x.id paramTy) with
    | ⟨body, .error e, c⟩ => ⟨.letFun i f x paramTy resultTy body rest, .error e, c⟩
    | ⟨body, .ok t, c⟩ =>
      if t = resultTy then
        -- The parameter's scope ends here; the function's stays for what is behind it.
        match expr rest c.popScope with
        | ⟨rest, .error e, c⟩ => ⟨.letFun i f x paramTy resultTy body rest, .error e, c⟩
        | ⟨rest, .ok t, c⟩ =>
          ⟨.letFun (i.typed t) f x paramTy resultTy body rest, .ok t, c.popScope⟩
      else
        ⟨.letFun i f x paramTy resultTy body rest,
          .error (.resultMismatch f.display resultTy t body.span), c⟩
  | .apply i f arg, c =>
    match c.funs.find? f.id with
    | none => ⟨.apply i f arg, .error (.undeclaredFunction f.display i.span), c⟩
    | some a =>
      match expr arg c with
      | ⟨arg, .error e, c⟩ => ⟨.apply i f arg, .error e, c⟩
      | ⟨arg, .ok t, c⟩ =>
        if t = a.param then ⟨.apply (i.typed a.result) f arg, .ok a.result, c⟩
        else ⟨.apply i f arg, .error (.argumentMismatch a.display a.param t arg.span), c⟩
  | .call i f args, c =>
    match c.lifted.lookup f with
    | none => ⟨.call i f args, .error (.undeclaredFunction f i.span), c⟩
    | some sig =>
      if args.length = sig.params.length then
        match arguments f args sig.params c with
        | ⟨args, .error e, c⟩ => ⟨.call i f args, .error e, c⟩
        | ⟨args, .ok (), c⟩ => ⟨.call (i.typed sig.result) f args, .ok sig.result, c⟩
      else ⟨.call i f args, .error (.arityMismatch f sig.params.length args.length i.span), c⟩
  | .seq i first second, c =>
    match expr first c with
    | ⟨first, .error e, c⟩ => ⟨.seq i first second, .error e, c⟩
    | ⟨first, .ok _, c⟩ =>
      match expr second c with
      | ⟨second, .error e, c⟩ => ⟨.seq i first second, .error e, c⟩
      | ⟨second, .ok t, c⟩ => ⟨.seq (i.typed t) first second, .ok t, c⟩
  | .binary i op left right, c =>
    match expr left c with
    | ⟨left, .error e, c⟩ => ⟨.binary i op left right, .error e, c⟩
    | ⟨left, .ok t, c⟩ =>
      match expr right c with
      | ⟨right, .error e, c⟩ => ⟨.binary i op left right, .error e, c⟩
      | ⟨right, .ok u, c⟩ =>
        match op.result? t u with
        | none => ⟨.binary i op left right, .error (.operandMismatch op t u i.span), c⟩
        | some v => ⟨.binary (i.typed v) op left right, .ok v, c⟩
  | .var i x, c =>
    match c.vars.find? x.id with
    | none => ⟨.var i x, .error (.undeclaredVariable x.display i.span), c⟩
    | some t => ⟨.var (i.typed t) x, .ok t, c⟩
  | .num i n, c => ⟨.num (i.typed .num) n, .ok .num, c⟩
  | .bool i b, c => ⟨.bool (i.typed .bool) b, .ok .bool, c⟩

def arguments (callee : String) : List Expr → List Ty → Checker → Visit (List Expr) Unit
  | arg :: args, expected :: params, c =>
    match expr arg c with
    | ⟨arg, .error e, c⟩ => ⟨arg :: args, .error e, c⟩
    | ⟨arg, .ok t, c⟩ =>
      if t = expected then
        match arguments callee args params c with
        | ⟨args, outcome, c⟩ => ⟨arg :: args, outcome, c⟩
      else ⟨arg :: args, .error (.argumentMismatch callee expected t arg.span), c⟩
  | args, _, c => ⟨args, .ok (), c⟩

end

def function (f : Function) (c : Checker) : Visit Function Unit :=
  match expr f.body (c.pushScope.bindParams f.params) with
  | ⟨body, .error e, c⟩ => ⟨{ f with body }, .error e, c⟩
  | ⟨body, .ok t, c⟩ =>
    if t = f.resultTy then ⟨{ f with body }, .ok (), c.popScope⟩
    else ⟨{ f with body }, .error (.resultMismatch f.name f.resultTy t body.span), c⟩

def functions : List Function → Checker → Visit (List Function) Unit
  | [], c => ⟨[], .ok (), c⟩
  | f :: fs, c =>
    match function f c with
    | ⟨f, .error e, c⟩ => ⟨f :: fs, .error e, c⟩
    | ⟨f, .ok (), c⟩ =>
      match functions fs c with
      | ⟨fs, outcome, c⟩ => ⟨f :: fs, outcome, c⟩

def program (p : Program) (c : Checker) : Visit Program Ty :=
  match functions p.functions (c.declare p.functions) with
  | ⟨functions, .error e, c⟩ => ⟨{ p with functions }, .error e, c⟩
  | ⟨functions, .ok (), c⟩ =>
    match expr p.main c with
    | ⟨main, outcome, c⟩ => ⟨⟨functions, main⟩, outcome, c⟩

end Checker

end LetStack
