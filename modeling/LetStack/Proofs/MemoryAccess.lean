import Mathlib
import LetStack.Proofs.OpenCalls
import LetStack.Proofs.ProgramRuns

namespace LetStack.Machine

def afterRuns (config : Config) (history : List Module) : Machine :=
  history.foldl (fun m code => (m.run code).2) (new config)

def conclude : EStateM.Result MachineError Machine Word → Except MachineError Word × Machine
  | .ok w m => (.ok w, m)
  | .error e m => (.error e, m)

theorem run_of_entry {code : Module} {pc : Nat} (h : code.entry? = some pc) (m : Machine) :
    m.run code = conclude (loop code m.reset.config.maxSteps { m.reset with pc }) := by
  simp only [run, h]
  cases loop code m.reset.config.maxSteps { m.reset with pc } <;> rfl

section

variable {c : Config} {n : Nat} {m : Machine}

theorem new_inOrder (c : Config) : InOrder c 0 (new c) :=
  ⟨rfl, rfl, by simp [new], Nat.le_refl _, Nat.le_refl _⟩

/-- Nothing of an earlier run is left. -/
theorem reset_eq (h : InOrder c n m) : m.reset = new c := by
  rw [reset, h.size, h.config]
  rfl

theorem run_eq_of_inOrder (h : InOrder c n m) (code : Module) : m.run code = (new c).run code := by
  unfold run
  rw [reset_eq h, reset_eq (new_inOrder c)]

/-- A loop keeps the machine in order and counts no more steps than it may make. -/
theorem loop_inOrder (code : Module) (h : InOrder c n m) (k : Nat) :
    ∃ j ≤ k, InOrder c (n + j) (conclude (loop code k m)).2 := by
  induction k generalizing n m with
  | zero => exact ⟨0, Nat.le_refl _, h⟩
  | succ k ih =>
    have hnext := cycle_inOrder code h
    unfold loop
    cases hcycle : cycle code m with
    | error e m' =>
      rw [hcycle] at hnext
      exact ⟨1, by omega, hnext⟩
    | ok result m' =>
      rw [hcycle] at hnext
      cases result with
      | some w => exact ⟨1, by omega, hnext⟩
      | none =>
        obtain ⟨j, hj, hend⟩ := ih hnext
        have hsteps : n + (j + 1) = n + 1 + j := by omega
        exact ⟨j + 1, by omega, hsteps ▸ hend⟩

theorem run_inOrder (c : Config) (code : Module) :
    ∃ n ≤ c.maxSteps, InOrder c n ((new c).run code).2 := by
  cases hentry : code.entry? with
  | none =>
    refine ⟨0, Nat.zero_le _, ?_⟩
    simp only [run, hentry, reset_eq (new_inOrder c)]
    exact new_inOrder c
  | some pc =>
    obtain ⟨n, hn, hend⟩ := loop_inOrder code (start_inOrder c pc) c.maxSteps
    rw [Nat.zero_add] at hend
    exact ⟨n, hn, by rw [run_of_entry hentry]; exact hend⟩

theorem afterRuns_inOrder (c : Config) (history : List Module) :
    ∃ n, InOrder c n (afterRuns c history) := by
  induction history using List.reverseRecOn with
  | nil => exact ⟨0, new_inOrder c⟩
  | append_singleton history code ih =>
    obtain ⟨n, hn⟩ := ih
    obtain ⟨k, -, hk⟩ := run_inOrder c code
    rw [← run_eq_of_inOrder hn] at hk
    exact ⟨k, by simpa [afterRuns] using hk⟩

/-- A machine runs a module as if it had run none before. -/
theorem run_afterRuns (c : Config) (history : List Module) (code : Module) :
    (afterRuns c history).run code = (new c).run code := by
  obtain ⟨n, hn⟩ := afterRuns_inOrder c history
  exact run_eq_of_inOrder hn code

end

def settle : EStateM.Result MachineError Machine Flow →
    EStateM.Result MachineError Machine (Option Word)
  | .error e m => .error e m
  | .ok .next m => .ok none { m with pc := m.pc + 1 }
  | .ok (.jump target) m => .ok none { m with pc := target }
  | .ok .halt m =>
    match peek m with
    | .error e m => .error e m
    | .ok w m => .ok (some w) m

theorem cycle_outside {code : Module} {m : Machine} (h : code.get? m.pc = none) :
    cycle code m = .error (.pcOutOfBounds m.pc) { m with steps := m.steps + 1 } := by
  simp only [cycle, h]

theorem cycle_at {code : Module} {m : Machine} {i : Instruction} (h : code.get? m.pc = some i) :
    cycle code m = settle (step i { m with steps := m.steps + 1 }) := by
  cases hstep : step i { m with steps := m.steps + 1 } with
  | error e m' => simp only [cycle, h, hstep, settle]
  | ok flow m' =>
    cases flow with
    | next | jump => simp only [cycle, h, hstep, settle]
    | halt => cases htop : peek m' <;> simp only [cycle, h, hstep, settle, htop]

/-- Work that can also end without any result. -/
def Raw (α : Type) : Type := Machine → Option (EStateM.Result MachineError Machine α)

namespace Raw

instance : Monad Raw where
  pure a := fun m => some (.ok a m)
  bind work next := fun m =>
    match work m with
    | none => none
    | some (.error e m) => some (.error e m)
    | some (.ok a m) => next a m

/-- Work that leaves memory alone, or asks for its size before it reads a cell. -/
def guarded {α : Type} (work : Exec α) : Raw α := fun m => some (work m)

def load (address : Nat) : Raw Word := fun m =>
  if h : address < m.memory.size then some (.ok m.memory[address] m) else none

def store (address : Nat) (w : Word) : Raw Unit := fun m =>
  if address < m.memory.size then some (.ok () { m with memory := m.memory.set address w })
  else none

def lower : Raw Unit := fun m =>
  match m.sp with
  | 0 => none
  | sp + 1 => some (.ok () { m with sp })

def push (w : Word) : Raw Unit := do
  guarded fun m => if m.sp = 0 then .error (.stackOverflow m.pc) m else .ok () m
  lower
  fun m => store m.sp w m

def pushZeros : Nat → Raw Unit
  | 0 => return ()
  | n + 1 => do
    push 0
    pushZeros n

def binary (f : Word → Word → Word) : Raw Unit := do
  let right ← guarded pop
  let left ← guarded pop
  push (f left right)

def proceed (work : Raw Unit) : Raw Flow := do
  work
  return .next

/-- The instructions at the end only pop words, which is never without a look at the size of memory.
-/
def step (i : Instruction) : Raw Flow :=
  match i.op with
  | .pushInt | .pushBool => proceed do
    let w ← guarded (intOperand i)
    push w
  | .lval => proceed do
    let address ← guarded (frameAddress i)
    push (.ofAddress address)
  | .rvalInt | .rvalBool => proceed do
    let address ← guarded (frameAddress i)
    let w ← load address
    push w
  | .assInt | .assBool => proceed do
    let w ← guarded pop
    let cell ← guarded pop
    let address ← guarded (checkAddress cell.toInt)
    store address w
  | .add => proceed (binary (· + ·))
  | .sub => proceed (binary (· - ·))
  | .eqInt => proceed (binary fun a b => .ofBool (a == b))
  | .eqBool => proceed (binary fun a b => .ofBool ((a != 0) == (b != 0)))
  | .ltInt => proceed (binary fun a b => .ofBool (a < b))
  | .decl => proceed do
    let count ← guarded (countOperand i)
    pushZeros count
  | .link => proceed do
    fun m => push (.ofAddress m.fp) m
    guarded (modify fun m => { m with fp := m.sp })
  | .bsr => do
    let address ← guarded (target i)
    fun m => push (.ofAddress (m.pc + 1)) m
    return .jump address
  | .pop | .brf | .bra | .writeInt | .unlink | .rts | .halt | .label => guarded (Machine.step i)

def cycle (code : Module) : Raw (Option Word) := fun m =>
  let m := { m with steps := m.steps + 1 }
  match code.get? m.pc with
  | none => some (.error (.pcOutOfBounds m.pc) m)
  | some i => (step i m).map settle

def loop (code : Module) : Nat → Raw Word
  | 0 => guarded fun m => .error (.stepLimit m.config.maxSteps) m
  | n + 1 => do
    let result ← cycle code
    match result with
    | some w => return w
    | none => loop code n

def run (m : Machine) (code : Module) : Option (Except MachineError Word × Machine) :=
  let m := m.reset
  match code.entry? with
  | none => some (.error .missingEntryPoint, m)
  | some pc => (loop code m.config.maxSteps { m with pc }).map conclude

end Raw

def Agrees {α : Type} (P : Machine → Prop) (work : Exec α) (raw : Raw α) : Prop :=
  ∀ m, P m → raw m = some (work m)

namespace Agrees

variable {α β : Type} {P : Machine → Prop} {Q : α → Prop}

theorem guarded {work : Exec α} : Agrees P work (Raw.guarded work) := fun _ _ => rfl

theorem pure (a : α) : Agrees P (Pure.pure a) (Pure.pure a) := fun _ _ => rfl

theorem bind {work : Exec α} {raw : Raw α} {next : α → Exec β} {raw' : α → Raw β}
    (h : Agrees P work raw) (hkeeps : Keeps P work Q) (h' : ∀ a, Q a → Agrees P (next a) (raw' a)) :
    Agrees P (work >>= next) (raw >>= raw') := by
  intro m hm
  have hwork := hkeeps m hm
  have hraw := h m hm
  cases hend : work m with
  | error e m' =>
    rw [hend] at hraw
    simp only [Bind.bind, EStateM.bind, hend, hraw]
  | ok a m' =>
    rw [hend] at hwork hraw
    simp only [Bind.bind, EStateM.bind, hend, hraw]
    exact h' a hwork.2 m' hwork.1

theorem proceed {work : Exec Unit} {raw : Raw Unit} (h : Agrees P work raw) (hkeeps : Keeps P work) :
    Agrees P (proceed work) (Raw.proceed raw) :=
  h.bind hkeeps fun _ _ => .pure _

end Agrees

section

variable {c : Config} {n : Nat}

theorem load_agrees {address : Nat} (h : address < c.stackSize) :
    Agrees (InOrder c n) (load address) (Raw.load address) := by
  intro m hm
  have hlt : address < m.memory.size := hm.size ▸ h
  simp [Raw.load, load, hlt, Memory.getD_eq_getElem]

theorem store_agrees {address : Nat} (h : address < c.stackSize) (w : Word) :
    Agrees (InOrder c n) (store address w) (Raw.store address w) := by
  intro m hm
  have hlt : address < m.memory.size := hm.size ▸ h
  simp [Raw.store, store, hlt]

/-- The cell below the top lies in memory, since the top is in the stack or just behind it. -/
theorem push_agrees (w : Word) : Agrees (InOrder c n) (push w) (Raw.push w) := by
  intro m hm
  cases hsp : m.sp with
  | zero => simp [Raw.push, Raw.guarded, push, hsp, Bind.bind]
  | succ sp =>
    have hlt : sp < m.memory.size := by
      have := hm.sp
      rw [hm.size]
      omega
    simp [Raw.push, Raw.guarded, Raw.lower, Raw.store, push, hsp, hlt, Bind.bind]

theorem pushZeros_agrees (count : Nat) :
    Agrees (InOrder c n) (pushZeros count) (Raw.pushZeros count) := by
  induction count with
  | zero => exact .pure _
  | succ count ih => exact (push_agrees 0).bind (push_keeps 0) fun _ _ => ih

theorem binary_agrees (f : Word → Word → Word) :
    Agrees (InOrder c n) (binary f) (Raw.binary f) :=
  .bind .guarded pop_keeps fun _ _ => .bind .guarded pop_keeps fun _ _ => push_agrees _

theorem step_agrees (i : Instruction) : Agrees (InOrder c n) (step i) (Raw.step i) := by
  rcases i with ⟨op, operand⟩
  cases op with
  | pushInt | pushBool =>
    refine .proceed (.bind .guarded (intOperand_keeps _) fun w _ => push_agrees w) ?_
    exact (intOperand_keeps _).bind fun w _ => push_keeps w
  | lval =>
    refine .proceed (.bind .guarded (frameAddress_keeps _) fun _ _ => push_agrees _) ?_
    exact (frameAddress_keeps _).bind fun _ _ => push_keeps _
  -- `ha`: the check of the address has bounded it, and nothing has touched memory since
  | rvalInt | rvalBool =>
    refine .proceed (.bind .guarded (frameAddress_keeps _) fun a ha => ?_) ?_
    · exact (load_agrees ha).bind (load_keeps a) fun w _ => push_agrees w
    · exact (frameAddress_keeps _).bind fun a _ => (load_keeps a).bind fun w _ => push_keeps w
  | assInt | assBool =>
    refine .proceed (.bind .guarded pop_keeps fun w _ =>
      .bind .guarded pop_keeps fun cell _ => ?_) ?_
    · exact .bind .guarded (checkAddress_keeps _) fun a ha => store_agrees ha w
    · refine pop_keeps.bind fun w _ => pop_keeps.bind fun cell _ => ?_
      exact (checkAddress_keeps _).bind fun a _ => store_keeps a w
  | add | sub | eqInt | eqBool | ltInt => exact .proceed (binary_agrees _) (binary_keeps _)
  | decl =>
    refine .proceed (.bind .guarded (countOperand_keeps _) fun count _ => pushZeros_agrees count) ?_
    exact (countOperand_keeps _).bind fun count _ => pushZeros_keeps count
  | link =>
    have hpush : Keeps (InOrder c n) fun m => push (.ofAddress m.fp) m := fun m => push_keeps _ m
    exact .proceed (.bind (fun m => push_agrees _ m) hpush fun _ _ => .guarded) link_keeps
  | bsr =>
    refine .bind .guarded (target_keeps _) fun _ _ => ?_
    exact .bind (fun m => push_agrees _ m) pushReturn_keeps fun _ _ => .pure _
  | pop | brf | bra | writeInt | unlink | rts | halt | label => exact .guarded

theorem cycle_agrees (code : Module) : Agrees (InOrder c n) (cycle code) (Raw.cycle code) := by
  intro m hm
  have hcounted : InOrder c (n + 1) { m with steps := m.steps + 1 } :=
    ⟨hm.config, congrArg (· + 1) hm.steps, hm.size, hm.sp, hm.fp⟩
  cases hi : code.get? m.pc with
  | none => simp only [Raw.cycle, hi, cycle_outside hi]
  | some i => simp only [Raw.cycle, hi, cycle_at hi, step_agrees i _ hcounted, Option.map_some]

theorem loop_agrees (code : Module) (k : Nat) :
    Agrees (InOrder c n) (loop code k) (Raw.loop code k) := by
  induction k generalizing n with
  | zero => exact .guarded
  | succ k ih =>
    intro m hm
    have hnext := cycle_inOrder code hm
    have hraw := cycle_agrees code m hm
    simp only [Raw.loop, loop, Bind.bind, hraw]
    cases hcycle : cycle code m with
    | error e m' => rfl
    | ok result m' =>
      rw [hcycle] at hnext
      cases result with
      | some w => rfl
      | none => exact ih m' hnext

theorem run_agrees {m : Machine} (h : InOrder c n m) (code : Module) :
    Raw.run m code = some (m.run code) := by
  cases hentry : code.entry? with
  | none => simp only [Raw.run, run, hentry]
  | some pc =>
    have hstart : InOrder c 0 { m.reset with pc } := by
      rw [reset_eq h]
      exact ⟨rfl, rfl, by simp [new], Nat.le_refl _, Nat.le_refl _⟩
    rw [run_of_entry hentry]
    simp only [Raw.run, hentry]
    rw [loop_agrees code _ _ hstart, Option.map_some]

end

/-- Whatever modules a machine has run, and whatever module it runs next, its memory has the
configured size at every step, and its registers point into the stack or just behind it. So the run
never touches a cell outside memory and never lowers the stack pointer below zero: it ends with a
word or an error of the machine, and with no more steps than the limit. -/
theorem run_stays_in_memory (config : Config) (history : List Module) (code : Module) :
    (∃ n, InOrder config n (afterRuns config history)) ∧
    (∀ entry n m, code.entry? = some entry →
      Reaches code n { (afterRuns config history).reset with pc := entry } m → InOrder config n m) ∧
    Raw.run (afterRuns config history) code = some ((afterRuns config history).run code) ∧
    ((afterRuns config history).run code).2.steps ≤ config.maxSteps := by
  obtain ⟨k, hk⟩ := afterRuns_inOrder config history
  refine ⟨⟨k, hk⟩, fun entry n m hentry hreach => ?_, run_agrees hk code, ?_⟩
  · rw [reset_eq hk] at hreach
    have hstart : { new config with pc := entry } = start config entry := by
      rw [start, reset_eq (new_inOrder config)]
    rw [hstart] at hreach
    have hm := hreach.inOrder (start_inOrder config entry)
    rwa [Nat.zero_add] at hm
  · obtain ⟨n, hn, hend⟩ := run_inOrder config code
    rw [run_afterRuns, hend.steps]
    exact hn

/-- Overwrites the saved frame pointer by one that lies outside the stack. -/
def forgedFrame : Module :=
  ⟨#[⟨.label, .label "main"⟩, ⟨.link, .empty⟩, ⟨.lval, .int 0⟩, ⟨.pushInt, .int 100⟩,
    ⟨.assInt, .empty⟩, ⟨.unlink, .empty⟩]⟩

/-- The forged frame pointer is found out before the machine follows it, also the second time. -/
theorem run_stays_in_memory_forgedFrame :
    let m := afterRuns ⟨4, 10⟩ [forgedFrame]
    (∃ m', Reaches forgedFrame 5 { m.reset with pc := 0 } m' ∧ m'.pc = 5 ∧ InOrder ⟨4, 10⟩ 5 m') ∧
      Raw.run m forgedFrame = some (m.run forgedFrame) ∧
      (m.run forgedFrame).1 = .error (.invalidAddress 100 5) := by
  intro m
  obtain ⟨-, hreach, hraw, -⟩ := run_stays_in_memory ⟨4, 10⟩ [forgedFrame] forgedFrame
  have hsteps : (advance forgedFrame 5 { (afterRuns ⟨4, 10⟩ [forgedFrame]).reset with pc := 0 }).map
      (·.pc) = some 5 := by cbv
  obtain ⟨m', hm', hpc⟩ := Option.map_eq_some_iff.mp hsteps
  have hm' := reaches_of_advance hm'
  have hresult : ((afterRuns ⟨4, 10⟩ [forgedFrame]).run forgedFrame).1 =
      .error (.invalidAddress 100 5) := by cbv
  exact ⟨⟨m', hm', hpc, hreach 0 5 m' (by decide) hm'⟩, hraw, hresult⟩

end LetStack.Machine
