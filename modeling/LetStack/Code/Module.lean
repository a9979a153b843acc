import LetStack.Code.Instruction

namespace LetStack

/-- A sequence of instructions; the address of an instruction is its index. -/
structure Module where
  code : Array Instruction := #[]
deriving DecidableEq, Repr

namespace Module

/-- The label where a run starts. -/
def mainLabel : String := "main"

def size (m : Module) : Nat := m.code.size

def get? (m : Module) (pc : Nat) : Option Instruction := m.code[pc]?

def push (m : Module) (i : Instruction) : Module := ⟨m.code.push i⟩

/-- The address of the first instruction that marks this label. -/
def labelIndex? (m : Module) (name : String) : Option Nat :=
  m.code.toList.findIdx? fun i => i.op = .label ∧ i.operand = .label name

def entry? (m : Module) : Option Nat := m.labelIndex? mainLabel

def listing (m : Module) : String :=
  String.join (m.code.toList.zipIdx.map fun (i, index) => s!"{index}\t{i.text}\n")

end Module

end LetStack
