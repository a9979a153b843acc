import LetStack.Machine

namespace LetStack

/-- Where control goes after an instruction. -/
inductive Flow where
  | next
  | jump (target : Nat)
  | halt
deriving DecidableEq, Repr

namespace Machine

def proceed (work : Exec Unit) : Exec Flow := do
  work
  return .next

def step (i : Instruction) : Exec Flow :=
  match i.op with
  | .pushInt | .pushBool => proceed do
    let w ← intOperand i
    push w
  | .lval => proceed do
    let address ← frameAddress i
    push (.ofAddress address)
  | .rvalInt | .rvalBool => proceed do
    let address ← frameAddress i
    let w ← load address
    push w
  | .assInt | .assBool => proceed do
    let w ← pop
    let cell ← pop
    let address ← checkAddress cell.toInt
    store address w
  | .add => proceed (binary (· + ·))
  | .sub => proceed (binary (· - ·))
  | .eqInt => proceed (binary fun a b => .ofBool (a == b))
  | .eqBool => proceed (binary fun a b => .ofBool ((a != 0) == (b != 0)))
  | .ltInt => proceed (binary fun a b => .ofBool (a < b))
  | .decl => proceed do
    let count ← countOperand i
    pushZeros count
  | .pop => proceed do
    let count ← countOperand i
    drop count
  | .brf => do
    -- A bad target is an error before the stack is touched, also where the branch is not taken.
    let address ← target i
    let w ← pop
    return if w = 0 then .jump address else .next
  | .bra => do
    let address ← target i
    return .jump address
  | .writeInt => proceed do
    let w ← pop
    write w
  | .link => proceed link
  | .unlink => proceed unlink
  | .bsr => do
    let address ← target i
    pushReturn
    return .jump address
  | .rts => do
    let address ← popReturn
    return .jump address
  | .halt => return .halt
  | .label => return .next

/-- Fetches and executes one instruction. At the end of the program it gives the top of the stack.
-/
def cycle (code : Module) : Exec (Option Word) := fun m =>
  -- The step counts even where there is nothing to fetch.
  let m := { m with steps := m.steps + 1 }
  match code.get? m.pc with
  | none => .error (.pcOutOfBounds m.pc) m
  | some i =>
    match step i m with
    | .error e m => .error e m
    | .ok .next m => .ok none { m with pc := m.pc + 1 }
    | .ok (.jump target) m => .ok none { m with pc := target }
    | .ok .halt m =>
      match peek m with
      | .error e m => .error e m
      | .ok w m => .ok (some w) m

/-- Executes at most the given number of instructions. -/
def loop (code : Module) : Nat → Exec Word
  | 0 => fun m => .error (.stepLimit m.config.maxSteps) m
  | n + 1 => fun m =>
    match cycle code m with
    | .error e m => .error e m
    | .ok (some w) m => .ok w m
    | .ok none m => loop code n m

/-- Runs a module from its main label on a cleared machine. -/
def run (m : Machine) (code : Module) : Except MachineError Word × Machine :=
  let m := m.reset
  match code.entry? with
  | none => (.error .missingEntryPoint, m)
  | some pc =>
    match loop code m.config.maxSteps { m with pc } with
    | .ok w m => (.ok w, m)
    | .error e m => (.error e, m)

end Machine

def Module.execute (code : Module) (config : Machine.Config := {}) : Except MachineError Word :=
  ((Machine.new config).run code).1

end LetStack
