import LetStack.Code.Generation

namespace LetStack

/-- Why there is no code: an error of the generator, or a number on the way that is no word. -/
inductive WordFault where
  | fault (fault : Fault)
  | overflow
deriving DecidableEq, Repr

def Word.fit (n : Int) : Except WordFault Word :=
  if -2147483648 ≤ n ∧ n ≤ 2147483647 then .ok (.ofInt n) else .error .overflow

/-- Code in the making, with the depth in a word. -/
structure WordEmitter where
  module : Module := {}
  labels : List String := []
  depth : Word := 0
deriving DecidableEq, Repr

namespace WordEmitter

def nextSlot (e : WordEmitter) : Except WordFault Word := do
  let next ← Word.fit (e.depth.toInt + 1)
  Word.fit (-next.toInt)

def resetDepth (e : WordEmitter) : WordEmitter := { e with depth := 0 }

def push (e : WordEmitter) (i : Instruction) : Except WordFault WordEmitter := do
  let effect ← Word.fit i.effect
  let depth ← Word.fit (e.depth.toInt + effect.toInt)
  return { e with module := e.module.push i, depth }

def label (e : WordEmitter) (name : String) : Except WordFault WordEmitter :=
  if name ∈ e.labels then .error (.fault (.duplicateLabel name))
  else push { e with labels := name :: e.labels } ⟨.label, .label name⟩

end WordEmitter

structure WordGenerator where
  emitter : WordEmitter := {}
  frame : Frame := .forMain
deriving DecidableEq, Repr

namespace WordGenerator

def emit (g : WordGenerator) (i : Instruction) : Except WordFault WordGenerator := do
  let emitter ← g.emitter.push i
  return { g with emitter }

def enter (g : WordGenerator) (frame : Frame) : WordGenerator := { g with frame }

def resetDepth (g : WordGenerator) : WordGenerator := { g with emitter := g.emitter.resetDepth }

def declare (g : WordGenerator) (name : String) (ty : Ty) (offset : Word) : WordGenerator :=
  { g with frame := g.frame.declare name ty offset.toInt }

def release (g : WordGenerator) : WordGenerator := { g with frame := g.frame.release }

def label (g : WordGenerator) (name : String) : Except WordFault WordGenerator := do
  let emitter ← g.emitter.label name
  return { g with emitter }

def typeOf (e : Expr) : Except WordFault Ty := (Generator.typeOf e).mapError .fault

def operator (op : BinOp) (left : Expr) : Except WordFault OpCode :=
  (Generator.operator op left).mapError .fault

/-- A `let` with both of its cells, about to compute its value. -/
structure OpenLet where
  result : Word
  slot : Word
  generator : WordGenerator

def openLet (g : WordGenerator) : Except WordFault OpenLet := do
  let result ← g.emitter.nextSlot
  let g ← g.emit (.decl 1)
  let slot ← g.emitter.nextSlot
  let g ← g.emit (.decl 1)
  let generator ← g.emit (.lval slot.toInt)
  return { result, slot, generator }

/-- Puts the value into its cell and its name in sight. The body comes next. -/
def bindLet (g : WordGenerator) (x : String) (ty : Ty) (opened : OpenLet) :
    Except WordFault WordGenerator := do
  let g ← g.emit (.store ty)
  (g.declare x ty opened.slot).emit (.lval opened.result.toInt)

mutual

/-- The same code as without bounds, as long as every depth and every cell's offset is a word. -/
def expr : Expr → WordGenerator → Except WordFault WordGenerator
  | .letIn _ x value body, g => do
    let valueTy ← typeOf value
    let bodyTy ← typeOf body
    let opened ← g.openLet
    let g ← expr value opened.generator
    let g ← g.bindLet x.id valueTy opened
    let g ← expr body g
    let g ← g.emit (.store bodyTy)
    g.release.emit (.pop 1)
  | .call _ f args, g => do
    let g ← g.emit (.decl 1)
    let g ← arguments args g
    let g ← g.emit ⟨.bsr, .label f⟩
    g.emit (.pop args.length)
  | .seq _ first second, g => do
    let g ← expr first g
    let g ← g.emit (.pop 1)
    expr second g
  | .binary _ op left right, g => do
    let g ← expr left g
    let g ← expr right g
    let op ← operator op left
    g.emit ⟨op, .empty⟩
  | .var _ x, g =>
    match g.frame.get? x.id with
    | some slot => g.emit (.load slot)
    | none => .error (.fault (.unboundOffset x.id))
  | .num _ n, g => g.emit ⟨.pushInt, .int n⟩
  | .bool _ b, g => g.emit ⟨.pushBool, .int (.ofBool b)⟩
  | .letFun .., _ => .error (.fault (.unexpectedForm .letFun))
  | .apply .., _ => .error (.fault (.unexpectedForm .apply))

def arguments : List Expr → WordGenerator → Except WordFault WordGenerator
  | [], g => .ok g
  | arg :: args, g => do
    let g ← arguments args g
    expr arg g

end

/-- The state in which the body of a function starts. -/
def openFunction (f : Function) (g : WordGenerator) : Except WordFault WordGenerator := do
  let result ← Word.fit (Frame.returnOffset f.params)
  let g ← (g.enter (.forFunction f.params)).label f.name
  let g ← g.emit ⟨.link, .empty⟩
  g.resetDepth.emit (.lval result.toInt)

def function (f : Function) (g : WordGenerator) : Except WordFault WordGenerator := do
  let g ← openFunction f g
  let g ← expr f.body g
  let g ← g.emit (.store f.resultTy)
  let g ← g.emit ⟨.unlink, .empty⟩
  g.emit ⟨.rts, .empty⟩

def functions : List Function → WordGenerator → Except WordFault WordGenerator
  | [], g => .ok g
  | f :: fs, g => do
    let g ← function f g
    functions fs g

def openMain (g : WordGenerator) : Except WordFault WordGenerator :=
  ((g.enter .forMain).resetDepth).label Module.mainLabel

def program (p : Program) (g : WordGenerator) : Except WordFault WordGenerator := do
  let g ← functions p.functions g
  let g ← openMain g
  let g ← expr p.main g
  g.emit ⟨.halt, .empty⟩

end WordGenerator

def Program.generateInWords (p : Program) : Except WordFault Module := do
  let g ← WordGenerator.program p {}
  return g.emitter.module

end LetStack
