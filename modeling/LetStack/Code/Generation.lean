import LetStack.Code.Emitter
import LetStack.Code.Frame

namespace LetStack

/-- The code so far and the cells in sight. -/
structure Generator where
  emitter : Emitter := {}
  frame : Frame := .forMain
deriving Repr

namespace Generator

def emit (g : Generator) (f : Emitter → Emitter) : Generator := { g with emitter := f g.emitter }

def enter (g : Generator) (frame : Frame) : Generator := { g with frame }

def declare (g : Generator) (name : String) (ty : Ty) (offset : Int) : Generator :=
  { g with frame := g.frame.declare name ty offset }

def release (g : Generator) : Generator := { g with frame := g.frame.release }

def label (g : Generator) (name : String) : Except Fault Generator := do
  let emitter ← g.emitter.label name
  return { g with emitter }

def typeOf (e : Expr) : Except Fault Ty :=
  match e.ty with
  | some ty => .ok ty
  | none => .error (.untypedNode e.form e.span)

/-- The instruction for an operator; equality depends on the type of its operands. -/
def operator (op : BinOp) (left : Expr) : Except Fault OpCode :=
  match op with
  | .add => .ok .add
  | .sub => .ok .sub
  | .lt => .ok .ltInt
  | .eq => do
    match ← typeOf left with
    | .num => return .eqInt
    | .bool => return .eqBool

mutual

/-- Adds code that leaves the value of the expression on top of the stack. A `let` has two cells,
one for its result and one for its variable. -/
def expr : Expr → Generator → Except Fault Generator
  | .letIn _ x value body, g => do
    -- A missing type is found before any code is emitted, unlike that of `==` below.
    let valueTy ← typeOf value
    let bodyTy ← typeOf body
    let result := g.emitter.nextSlot
    let g := g.emit (·.decl 1)
    let slot := g.emitter.nextSlot
    let g := g.emit fun e => (e.decl 1).lval slot
    let g ← expr value g
    let g := (g.emit (·.store valueTy)).declare x.id valueTy slot
    let g ← expr body (g.emit (·.lval result))
    return (g.emit (·.store bodyTy)).release.emit (·.pop 1)
  | .call _ f args, g => do
    let g ← arguments args (g.emit (·.decl 1))
    return g.emit fun e => (e.call f).pop args.length
  | .seq _ first second, g => do
    let g ← expr first g
    expr second (g.emit (·.pop 1))
  | .binary _ op left right, g => do
    let g ← expr left g
    let g ← expr right g
    let op ← operator op left
    return g.emit (·.emit op)
  | .var _ x, g =>
    match g.frame.get? x.id with
    | some slot => .ok (g.emit (·.load slot.ty slot.offset))
    | none => .error (.unboundOffset x.id)
  | .num _ n, g => .ok (g.emit (·.pushInt n))
  | .bool _ b, g => .ok (g.emit (·.pushBool b))
  | .letFun .., _ => .error (.unexpectedForm .letFun)
  | .apply .., _ => .error (.unexpectedForm .apply)

/-- The last argument first, so that the first ends up next to the frame. -/
def arguments : List Expr → Generator → Except Fault Generator
  | [], g => .ok g
  | arg :: args, g => do
    let g ← arguments args g
    expr arg g

end

/-- Depth counts from the frame that the function's first instruction sets up. -/
def function (f : Function) (g : Generator) : Except Fault Generator := do
  let g ← (g.enter (.forFunction f.params)).label f.name
  let g := g.emit fun e => (e.emit .link).resetDepth.lval (Frame.returnOffset f.params)
  let g ← expr f.body g
  return g.emit fun e => ((e.store f.resultTy).emit .unlink).emit .rts

def functions : List Function → Generator → Except Fault Generator
  | [], g => .ok g
  | f :: fs, g => do
    let g ← function f g
    functions fs g

def program (p : Program) (g : Generator) : Except Fault Generator := do
  let g ← functions p.functions g
  let g ← ((g.enter .forMain).emit (·.resetDepth)).label Module.mainLabel
  let g ← expr p.main g
  return g.emit (·.emit .halt)

end Generator

/-- The functions in order, then the main expression under its label; calls refer to labels. -/
def Program.generate (p : Program) : Except Fault Module := do
  let g ← Generator.program p {}
  return g.emitter.module

end LetStack
