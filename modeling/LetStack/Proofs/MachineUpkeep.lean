import LetStack.Machine.Run
import LetStack.Proofs.MemoryCells

namespace LetStack

namespace Machine

/-- The registers point into a stack of the configured size, or just behind it, and the machine has
counted so many steps. -/
structure InOrder (c : Config) (n : Nat) (m : Machine) : Prop where
  config : m.config = c
  steps : m.steps = n
  size : m.memory.size = c.stackSize
  sp : m.sp ≤ c.stackSize
  fp : m.fp ≤ c.stackSize

/-- The work keeps a property of the machine, also where it fails, and what it gives has another. -/
def Keeps {α : Type} (P : Machine → Prop) (work : Exec α) (Q : α → Prop := fun _ => True) : Prop :=
  ∀ m, P m → match work m with
    | .ok a m' => P m' ∧ Q a
    | .error _ m' => P m'

namespace Keeps

variable {α β : Type} {P : Machine → Prop} {Q : α → Prop} {R : β → Prop}

theorem pure {a : α} (h : Q a) : Keeps P (Pure.pure a) Q := fun _ hm => ⟨hm, h⟩

theorem fail (error : Machine → MachineError) : Keeps P (fun m => .error (error m) m) Q :=
  fun _ hm => hm

theorem bind {work : Exec α} {next : α → Exec β} (h : Keeps P work Q)
    (h' : ∀ a, Q a → Keeps P (next a) R) : Keeps P (work >>= next) R := by
  intro m hm
  have hwork := h m hm
  simp only [Bind.bind, EStateM.bind]
  cases hend : work m with
  | ok a m' =>
    rw [hend] at hwork
    exact h' a hwork.2 m' hwork.1
  | error e m' =>
    rw [hend] at hwork
    exact hwork

theorem ite {p : Prop} [Decidable p] {work work' : Exec α} (h : Keeps P work Q)
    (h' : Keeps P work' Q) : Keeps P (if p then work else work') Q := by
  by_cases hp : p
  · exact if_pos hp ▸ h
  · exact if_neg hp ▸ h'

theorem proceed {work : Exec Unit} (h : Keeps P work) : Keeps P (proceed work) :=
  h.bind fun _ _ => pure trivial

end Keeps

section

variable {c : Config} {n : Nat}

theorem push_keeps (w : Word) : Keeps (InOrder c n) (push w) := by
  intro m hm
  by_cases hfull : m.sp = 0
  · rw [push, if_pos hfull]
    exact hm
  · rw [push, if_neg hfull]
    have hsp := hm.sp
    exact ⟨⟨hm.config, hm.steps, by simpa using hm.size, by simp only; omega, hm.fp⟩, trivial⟩

theorem pop_keeps : Keeps (InOrder c n) pop := by
  intro m hm
  cases hw : m.memory[m.sp]? with
  | none =>
    have hpop : pop m = .error (.stackUnderflow m.pc) m := by
      simp only [pop, Bind.bind, EStateM.bind, peek, hw]
    rw [hpop]
    exact hm
  | some w =>
    have hpop : pop m = .ok w { m with sp := m.sp + 1 } := by
      simp only [pop, Bind.bind, EStateM.bind, peek, hw]
      rfl
    rw [hpop]
    obtain ⟨hlt, -⟩ := Memory.getElem?_eq_some_iff.mp hw
    rw [hm.size] at hlt
    exact ⟨⟨hm.config, hm.steps, hm.size, hlt, hm.fp⟩, trivial⟩

theorem pushZeros_keeps (count : Nat) : Keeps (InOrder c n) (pushZeros count) := by
  induction count with
  | zero => exact .pure trivial
  | succ count ih => exact (push_keeps 0).bind fun _ _ => ih

theorem drop_keeps (count : Nat) : Keeps (InOrder c n) (drop count) := by
  intro m hm
  by_cases hmany : m.sp + count > m.config.stackSize
  · rw [drop, if_pos hmany]
    exact hm
  · rw [drop, if_neg hmany]
    rw [hm.config] at hmany
    exact ⟨⟨hm.config, hm.steps, hm.size, Nat.not_lt.mp hmany, hm.fp⟩, trivial⟩

theorem binary_keeps (f : Word → Word → Word) : Keeps (InOrder c n) (binary f) :=
  pop_keeps.bind fun _ _ => pop_keeps.bind fun _ _ => push_keeps _

theorem intOperand_keeps (i : Instruction) : Keeps (InOrder c n) (intOperand i) := by
  unfold intOperand
  cases i.int? with
  | none => exact .fail _
  | some w => exact .pure trivial

theorem countOperand_keeps (i : Instruction) : Keeps (InOrder c n) (countOperand i) :=
  (intOperand_keeps i).bind fun _ _ => .ite (.fail _) (.pure trivial)

theorem checkAddress_keeps (address : Int) :
    Keeps (InOrder c n) (checkAddress address) fun a => a < c.stackSize := by
  intro m hm
  by_cases hin : 0 ≤ address ∧ address < m.config.stackSize
  · rw [checkAddress, if_pos hin]
    rw [hm.config] at hin
    exact ⟨hm, by omega⟩
  · rw [checkAddress, if_neg hin]
    exact hm

theorem checkFrame_keeps (saved : Word) :
    Keeps (InOrder c n) (checkFrame saved) fun fp => fp ≤ c.stackSize := by
  intro m hm
  by_cases hin : 0 ≤ saved.toInt ∧ saved.toInt ≤ m.config.stackSize
  · rw [checkFrame, if_pos hin]
    rw [hm.config] at hin
    exact ⟨hm, by omega⟩
  · rw [checkFrame, if_neg hin]
    exact hm

theorem frameAddress_keeps (i : Instruction) :
    Keeps (InOrder c n) (frameAddress i) fun a => a < c.stackSize :=
  (intOperand_keeps i).bind fun _ _ m => checkAddress_keeps _ m

theorem load_keeps (address : Nat) : Keeps (InOrder c n) (load address) := fun _ hm => ⟨hm, trivial⟩

theorem store_keeps (address : Nat) (w : Word) : Keeps (InOrder c n) (store address w) :=
  fun _ hm => ⟨⟨hm.config, hm.steps, by simpa using hm.size, hm.sp, hm.fp⟩, trivial⟩

theorem target_keeps (i : Instruction) : Keeps (InOrder c n) (target i) := by
  unfold target
  cases i.operand with
  | address a => exact .pure trivial
  | _ => exact .fail _

theorem write_keeps (w : Word) : Keeps (InOrder c n) (write w) :=
  fun _ hm => ⟨⟨hm.config, hm.steps, hm.size, hm.sp, hm.fp⟩, trivial⟩

theorem link_keeps : Keeps (InOrder c n) link := by
  refine Keeps.bind (fun m => push_keeps (.ofAddress m.fp) m) fun _ _ m hm => ?_
  exact ⟨⟨hm.config, hm.steps, hm.size, hm.sp, hm.sp⟩, trivial⟩

theorem unlink_keeps : Keeps (InOrder c n) unlink := by
  have hsp : Keeps (InOrder c n) (modify fun m => { m with sp := m.fp }) :=
    fun m hm => ⟨⟨hm.config, hm.steps, hm.size, hm.fp, hm.fp⟩, trivial⟩
  refine hsp.bind fun _ _ => pop_keeps.bind fun saved _ => ?_
  refine (checkFrame_keeps saved).bind fun fp hfp m hm => ?_
  exact ⟨⟨hm.config, hm.steps, hm.size, hm.sp, hfp⟩, trivial⟩

theorem pushReturn_keeps : Keeps (InOrder c n) pushReturn := fun m => push_keeps _ m

theorem popReturn_keeps : Keeps (InOrder c n) popReturn :=
  pop_keeps.bind fun _ _ => .ite (.fail _) (.pure trivial)

theorem step_keeps (i : Instruction) : Keeps (InOrder c n) (step i) := by
  rcases i with ⟨op, operand⟩
  cases op with
  | pushInt | pushBool => exact .proceed ((intOperand_keeps _).bind fun w _ => push_keeps w)
  | lval => exact .proceed ((frameAddress_keeps _).bind fun _ _ => push_keeps _)
  | rvalInt | rvalBool =>
    refine .proceed ((frameAddress_keeps _).bind fun address _ => ?_)
    exact (load_keeps address).bind fun w _ => push_keeps w
  | assInt | assBool =>
    refine .proceed (pop_keeps.bind fun w _ => pop_keeps.bind fun cell _ => ?_)
    exact (checkAddress_keeps cell.toInt).bind fun address _ => store_keeps address w
  | add | sub | eqInt | eqBool | ltInt => exact .proceed (binary_keeps _)
  | decl => exact .proceed ((countOperand_keeps _).bind fun count _ => pushZeros_keeps count)
  | pop => exact .proceed ((countOperand_keeps _).bind fun count _ => drop_keeps count)
  | brf => exact (target_keeps _).bind fun _ _ => pop_keeps.bind fun _ _ => .pure trivial
  | bra => exact (target_keeps _).bind fun _ _ => .pure trivial
  | writeInt => exact .proceed (pop_keeps.bind fun w _ => write_keeps w)
  | link => exact .proceed link_keeps
  | unlink => exact .proceed unlink_keeps
  | bsr => exact (target_keeps _).bind fun _ _ => pushReturn_keeps.bind fun _ _ => .pure trivial
  | rts => exact popReturn_keeps.bind fun _ _ => .pure trivial
  | halt | label => exact .pure trivial

/-- A cycle counts one step, also when it fails. -/
theorem cycle_inOrder (code : Module) {m : Machine} (h : InOrder c n m) :
    match cycle code m with
    | .ok _ m' | .error _ m' => InOrder c (n + 1) m' := by
  -- The step counter moves before the instruction is read, so a failing cycle counts too.
  have hcounted : InOrder c (n + 1) { m with steps := m.steps + 1 } :=
    ⟨h.config, congrArg (· + 1) h.steps, h.size, h.sp, h.fp⟩
  have hpc {m' : Machine} (h : InOrder c (n + 1) m') (pc : Nat) :
      InOrder c (n + 1) { m' with pc := pc } := ⟨h.config, h.steps, h.size, h.sp, h.fp⟩
  cases hi : code.get? m.pc with
  | none =>
    simp only [cycle, hi]
    exact hcounted
  | some i =>
    have hwork := step_keeps i _ hcounted
    cases hstep : step i { m with steps := m.steps + 1 } with
    | error e m' =>
      rw [hstep] at hwork
      simp only [cycle, hi, hstep]
      exact hwork
    | ok flow m' =>
      rw [hstep] at hwork
      cases flow with
      | next | jump =>
        simp only [cycle, hi, hstep]
        exact hpc hwork.1 _
      | halt =>
        cases hw : m'.memory[m'.sp]? <;> simp only [cycle, hi, hstep, peek, hw] <;> exact hwork.1

end

end Machine

end LetStack
