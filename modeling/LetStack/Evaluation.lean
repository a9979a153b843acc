import LetStack.Program
import LetStack.Value

namespace LetStack

inductive EvalError where
  | unboundVariable (name : String) (span : Span)
  | unboundFunction (name : String) (span : Span)
  | operandMismatch (op : BinOp) (span : Span)
  | arityMismatch (name : String) (expected found : Nat) (span : Span)
deriving DecidableEq, Repr

namespace EvalError

def span : EvalError → Span
  | unboundVariable _ s | unboundFunction _ s | operandMismatch _ s | arityMismatch _ _ _ s => s

def message : EvalError → String
  | unboundVariable name s => s!"at {s}: variable '{name}' not found"
  | unboundFunction name s => s!"at {s}: function '{name}' not found"
  | operandMismatch op s => s!"at {s}: operands of '{op}' have the wrong kind"
  | arityMismatch name expected found s =>
    s!"at {s}: '{name}' expects {expected} argument(s), got {found}"

end EvalError

/-- Why an evaluation ended without a value: an error, or calls nested deeper than allowed. -/
inductive Stop where
  | failed (error : EvalError)
  | tooDeep
deriving DecidableEq, Repr

inductive Binding where
  | var (name : String) (value : Value)
  | fn (name param : String) (body : Expr)

/-- The bindings in sight, innermost first. What a function sees is what lies beneath its own
binding, and that binding itself. -/
abbrev Env := List Binding

namespace Env

def value? (name : String) : Env → Option Value
  | [] => none
  | .var x v :: env => if x = name then some v else value? name env
  | .fn .. :: env => value? name env

/-- A function's parameter, body and environment. -/
def closure? (name : String) : Env → Option (String × Expr × Env)
  | [] => none
  | .var .. :: env => closure? name env
  | .fn f x body :: env =>
    if f = name then some (x, body, .fn f x body :: env) else closure? name env

/-- Of two parameters of one name the later is the one in sight. -/
def ofArgs (params : List Param) (args : List Value) : Env :=
  (params.zip args).foldl (fun env (p, v) => .var p.name v :: env) []

end Env

/-- Evaluation counts the calls it makes. -/
abbrev Eval := EStateM Stop Nat

namespace Eval

def fail {α : Type} (e : EvalError) : Eval α := throw (.failed e)

def countCall : Eval Unit := modify (· + 1)

end Eval

namespace Expr

mutual

/-- The value of a tree. `functions` are those of a lifted program, the latest first; `enter`
evaluates the body of a function that is called. -/
def evalWith (functions : List Function) (enter : Env → Expr → Eval Value) (env : Env) :
    Expr → Eval Value
  | letIn _ x value body => do
    let v ← value.evalWith functions enter env
    body.evalWith functions enter (.var x.id v :: env)
  | letFun _ f x _ _ body rest => rest.evalWith functions enter (.fn f.id x.id body :: env)
  | apply i f arg =>
    match env.closure? f.id with
    | none => .fail (.unboundFunction f.display i.span)
    | some (x, body, inner) => do
      -- The body sees the bindings around its definition, the function itself among them.
      let v ← arg.evalWith functions enter env
      .countCall
      enter (.var x v :: inner) body
  | call i f args =>
    match functions.find? fun g => g.name == f with
    | none => .fail (.unboundFunction f i.span)
    | some g =>
      if g.arity = args.length then do
        let vs ← evalArgs functions enter env args
        .countCall
        enter (.ofArgs g.params vs) g.body
      else
        .fail (.arityMismatch f g.arity args.length i.span)
  | seq _ first second => do
    let _ ← first.evalWith functions enter env
    second.evalWith functions enter env
  | binary i op left right => do
    let a ← left.evalWith functions enter env
    let b ← right.evalWith functions enter env
    match op.apply? a b with
    | some v => return v
    | none => .fail (.operandMismatch op i.span)
  | var i x =>
    match env.value? x.id with
    | some v => return v
    | none => .fail (.unboundVariable x.display i.span)
  | num _ n => return .num n
  | bool _ b => return .bool b

def evalArgs (functions : List Function) (enter : Env → Expr → Eval Value) (env : Env) :
    List Expr → Eval (List Value)
  | [] => return []
  | e :: es => do
    let v ← e.evalWith functions enter env
    let vs ← evalArgs functions enter env es
    return v :: vs

end

/-- Evaluation with at most `depth` calls inside one another. -/
def eval (functions : List Function) : (depth : Nat) → Env → Expr → Eval Value
  | 0 => evalWith functions fun _ _ => throw .tooDeep
  | depth + 1 => evalWith functions (eval functions depth)

end Expr

namespace Eval

/-- How deep calls may nest before an evaluation is given up. -/
def depthLimit : Nat := 10000

/-- Runs an evaluation that follows `calls` earlier calls. -/
def run (calls : Nat) (e : Eval Value) : Except Stop Value × Nat :=
  match e calls with
  | .ok v calls => (.ok v, calls)
  | .error stop calls => (.error stop, calls)

end Eval

/-- The functions of a program, the latest first: of two with one name the later is called. -/
def Program.callees (p : Program) : List Function := p.functions.reverse

def Expr.evaluate (e : Expr) (depth : Nat := Eval.depthLimit) : Except Stop Value :=
  ((e.eval [] depth []).run 0).1

def Program.evaluate (p : Program) (depth : Nat := Eval.depthLimit) : Except Stop Value :=
  ((p.main.eval p.callees depth []).run 0).1

end LetStack
