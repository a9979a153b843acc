import LetStack.Code.Frame
import LetStack.Code.Module
import LetStack.Fault

namespace LetStack

namespace Instruction

def lval (offset : Int) : Instruction := ⟨.lval, .int (.ofInt offset)⟩

def decl (count : Int) : Instruction := ⟨.decl, .int (.ofInt count)⟩

def pop (count : Int) : Instruction := ⟨.pop, .int (.ofInt count)⟩

def store : Ty → Instruction
  | .num => ⟨.assInt, .empty⟩
  | .bool => ⟨.assBool, .empty⟩

def load (slot : Slot) : Instruction :=
  match slot.ty with
  | .num => ⟨.rvalInt, .int (.ofInt slot.offset)⟩
  | .bool => ⟨.rvalBool, .int (.ofInt slot.offset)⟩

/-- By how many cells the instruction makes the stack grow. -/
def effect (i : Instruction) : Int := i.op.stackEffect ((i.int?.map Int32.toInt).getD 0)

end Instruction

/-- Code in the making. `depth` is the number of cells between the frame pointer and the top of the
stack once the code so far has run. -/
structure Emitter where
  module : Module := {}
  labels : List String := []
  depth : Int := 0
deriving Repr

namespace Emitter

/-- The offset of the cell that the next push fills. -/
def nextSlot (e : Emitter) : Int := -(e.depth + 1)

def resetDepth (e : Emitter) : Emitter := { e with depth := 0 }

def push (e : Emitter) (i : Instruction) : Emitter :=
  { e with
    module := e.module.push i
    depth := e.depth + i.op.stackEffect ((i.int?.map Int32.toInt).getD 0) }

def emit (e : Emitter) (op : OpCode) : Emitter := e.push ⟨op, .empty⟩

def emitInt (e : Emitter) (op : OpCode) (w : Word) : Emitter := e.push ⟨op, .int w⟩

/-- A label can be marked once. -/
def label (e : Emitter) (name : String) : Except Fault Emitter :=
  if name ∈ e.labels then .error (.duplicateLabel name)
  else .ok ({ e with labels := name :: e.labels }.push ⟨.label, .label name⟩)

def call (e : Emitter) (name : String) : Emitter := e.push ⟨.bsr, .label name⟩

def pushInt (e : Emitter) (w : Word) : Emitter := e.emitInt .pushInt w

def pushBool (e : Emitter) (b : Bool) : Emitter := e.emitInt .pushBool (.ofBool b)

def lval (e : Emitter) (offset : Int) : Emitter := e.emitInt .lval (.ofInt offset)

def load (e : Emitter) (ty : Ty) (offset : Int) : Emitter :=
  match ty with
  | .num => e.emitInt .rvalInt (.ofInt offset)
  | .bool => e.emitInt .rvalBool (.ofInt offset)

def store (e : Emitter) (ty : Ty) : Emitter :=
  match ty with
  | .num => e.emit .assInt
  | .bool => e.emit .assBool

def decl (e : Emitter) (count : Int) : Emitter := e.emitInt .decl (.ofInt count)

def pop (e : Emitter) (count : Int) : Emitter := e.emitInt .pop (.ofInt count)

end Emitter

end LetStack
