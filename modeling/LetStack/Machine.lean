import LetStack.Code.Module
import LetStack.Memory

namespace LetStack

inductive MachineError where
  | stackOverflow (pc : Nat)
  | stackUnderflow (pc : Nat)
  | invalidAddress (address : Int) (pc : Nat)
  | pcOutOfBounds (pc : Nat)
  | unlinkedTarget (label : String) (pc : Nat)
  | malformedInstruction (pc : Nat)
  | missingEntryPoint
  | stepLimit (limit : Nat)
deriving DecidableEq, Repr

def MachineError.message : MachineError → String
  | stackOverflow pc => s!"stack overflow at pc {pc}"
  | stackUnderflow pc => s!"stack underflow at pc {pc}"
  | invalidAddress address pc => s!"invalid address {address} at pc {pc}"
  | pcOutOfBounds pc => s!"program counter {pc} out of bounds"
  | unlinkedTarget label pc => s!"unlinked target '{label}' at pc {pc}"
  | malformedInstruction pc => s!"malformed instruction at pc {pc}"
  | missingEntryPoint => "module has no main entry point"
  | stepLimit limit => s!"step limit of {limit} exceeded"

structure Machine.Config where
  stackSize : Nat := 4096
  maxSteps : Nat := 1000000
deriving DecidableEq, Repr

/-- A stack machine. The stack lies in `memory` and grows downwards: its top is at `sp`, and it is
empty when `sp` is the stack size. -/
structure Machine where
  config : Machine.Config
  memory : Memory
  sp : Nat
  fp : Nat
  pc : Nat
  steps : Nat
  output : Array Word
deriving Repr

namespace Machine

def new (config : Config) : Machine :=
  ⟨config, .zeros config.stackSize, config.stackSize, config.stackSize, 0, 0, #[]⟩

def reset (m : Machine) : Machine :=
  { m with
    memory := .zeros m.memory.size
    sp := m.config.stackSize
    fp := m.config.stackSize
    pc := 0
    steps := 0
    output := #[] }

/-- Part of an instruction's work; on an error the machine stays as far as it got. -/
abbrev Exec := EStateM MachineError Machine

def push (w : Word) : Exec Unit := fun m =>
  if m.sp = 0 then .error (.stackOverflow m.pc) m
  else .ok () { m with sp := m.sp - 1, memory := m.memory.set (m.sp - 1) w }

def peek : Exec Word := fun m =>
  match m.memory[m.sp]? with
  | some w => .ok w m
  | none => .error (.stackUnderflow m.pc) m

def pop : Exec Word := do
  let w ← peek
  modify fun m => { m with sp := m.sp + 1 }
  return w

def pushZeros : Nat → Exec Unit
  | 0 => return ()
  | n + 1 => do
    push 0
    pushZeros n

def drop (count : Nat) : Exec Unit := fun m =>
  if m.sp + count > m.config.stackSize then .error (.stackUnderflow m.pc) m
  else .ok () { m with sp := m.sp + count }

def binary (f : Word → Word → Word) : Exec Unit := do
  let right ← pop
  let left ← pop
  push (f left right)

def malformed {α : Type} : Exec α := fun m => .error (.malformedInstruction m.pc) m

def intOperand (i : Instruction) : Exec Word :=
  match i.int? with
  | some w => return w
  | none => malformed

def countOperand (i : Instruction) : Exec Nat := do
  let w ← intOperand i
  if w.toInt < 0 then malformed else return w.toInt.toNat

def checkAddress (address : Int) : Exec Nat := fun m =>
  if 0 ≤ address ∧ address < m.config.stackSize then .ok address.toNat m
  else .error (.invalidAddress address m.pc) m

/-- A frame may also start where the stack is empty. -/
def checkFrame (saved : Word) : Exec Nat := fun m =>
  if 0 ≤ saved.toInt ∧ saved.toInt ≤ m.config.stackSize then .ok saved.toInt.toNat m
  else .error (.invalidAddress saved.toInt m.pc) m

def frameAddress (i : Instruction) : Exec Nat := do
  let offset ← intOperand i
  fun m => checkAddress (m.fp + offset.toInt) m

def load (address : Nat) : Exec Word := fun m => .ok (m.memory.getD address 0) m

def store (address : Nat) (w : Word) : Exec Unit := fun m =>
  .ok () { m with memory := m.memory.set address w }

def target (i : Instruction) : Exec Nat :=
  match i.operand with
  | .address a => return a
  | .label name => fun m => .error (.unlinkedTarget name m.pc) m
  | _ => malformed

def write (w : Word) : Exec Unit := modify fun m => { m with output := m.output.push w }

def link : Exec Unit := do
  fun m => push (.ofAddress m.fp) m
  modify fun m => { m with fp := m.sp }

def unlink : Exec Unit := do
  modify fun m => { m with sp := m.fp }
  let saved ← pop
  let fp ← checkFrame saved
  modify fun m => { m with fp }

def pushReturn : Exec Unit := fun m => push (.ofAddress (m.pc + 1)) m

def popReturn : Exec Nat := do
  let address ← pop
  if address.toInt < 0 then
    fun m => .error (.pcOutOfBounds m.pc) m
  else
    return address.toInt.toNat

end Machine

end LetStack
