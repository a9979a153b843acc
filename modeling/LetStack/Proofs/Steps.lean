import LetStack.Machine.Run
import LetStack.Proofs.Generation
import LetStack.Proofs.MemoryCells

namespace LetStack

theorem Word.toInt_ofAddress {a : Nat} (h : a ≤ Word.greatest) : (Word.ofAddress a).toInt = a := by
  unfold Word.greatest at h
  exact Int32.toInt_ofNat_of_lt (by omega)

namespace Machine

variable {code : Module}

/-- `Reaches code n m m'`: from `m` the machine gets to `m'` in `n` steps. -/
inductive Reaches (code : Module) : Nat → Machine → Machine → Prop
  | refl (m : Machine) : Reaches code 0 m m
  | cons {n : Nat} {m m' m'' : Machine} (hfirst : cycle code m = .ok none m')
      (hrest : Reaches code n m' m'') : Reaches code (n + 1) m m''

theorem Reaches.trans {n k : Nat} {m m' m'' : Machine} (h : Reaches code n m m')
    (h' : Reaches code k m' m'') : Reaches code (n + k) m m'' := by
  induction h with
  | refl => simpa using h'
  | @cons n _ _ _ hfirst _ ih =>
    rw [Nat.add_right_comm]
    exact .cons hfirst (ih h')

/-- From `m` the machine gets to a push for which the stack has no cell left. -/
def Overflows (code : Module) (m : Machine) : Prop :=
  ∃ n m' pc m'', Reaches code n m m' ∧ cycle code m' = .error (.stackOverflow pc) m''

theorem Overflows.after {n : Nat} {m m' : Machine} (h : Reaches code n m m')
    (h' : Overflows code m') : Overflows code m := by
  obtain ⟨k, m₁, pc, m₂, hreach, hcycle⟩ := h'
  exact ⟨n + k, m₁, pc, m₂, h.trans hreach, hcycle⟩

structure Fits (m : Machine) : Prop where
  size : m.memory.size = m.config.stackSize
  sp : m.sp ≤ m.config.stackSize
  bound : m.config.stackSize ≤ Word.greatest

/-- The state has the words `ws` on the stack of `m`, the top one first, and is otherwise as far
from `m` as registers tell. -/
structure Above (m : Machine) (ws : List Word) (fp pc : Nat) (m' : Machine) : Prop where
  fits : m.Fits
  config : m'.config = m.config
  size : m'.memory.size = m.memory.size
  sp : m'.sp + ws.length = m.sp
  fp : m'.fp = fp
  pc : m'.pc = pc
  top : ∀ (k : Nat) (w : Word), ws[k]? = some w → m'.memory[m'.sp + k]? = some w
  below : ∀ a, m.sp ≤ a → m'.memory[a]? = m.memory[a]?

namespace Above

variable {m m' m'' : Machine} {ws ws' : List Word} {w : Word} {fp fp' pc pc' : Nat}

theorem refl (h : m.Fits) : Above m [] m.fp m.pc m :=
  ⟨h, rfl, rfl, rfl, rfl, rfl, by simp, fun _ _ => rfl⟩

theorem trans (h : Above m ws fp pc m') (h' : Above m' ws' fp' pc' m'') :
    Above m (ws' ++ ws) fp' pc' m'' := by
  have hsp := h.sp
  have hsp' := h'.sp
  refine ⟨h.fits, h'.config.trans h.config, h'.size.trans h.size, ?_, h'.fp, h'.pc, ?_, ?_⟩
  · rw [List.length_append]
    omega
  · intro k w hk
    by_cases hlt : k < ws'.length
    · rw [List.getElem?_append_left hlt] at hk
      exact h'.top k w hk
    · rw [List.getElem?_append_right (by omega)] at hk
      have haddr : m''.sp + k = m'.sp + (k - ws'.length) := by omega
      rw [haddr, h'.below _ (by omega)]
      exact h.top _ w hk
  · intro a ha
    rw [h'.below a (by omega), h.below a ha]

/-- A later state fits as the one that it started from. -/
theorem fits' (h : Above m ws fp pc m') : m'.Fits := by
  have hsp := h.sp
  have hfits := h.fits
  refine ⟨by rw [h.size, hfits.size, h.config], ?_, by rw [h.config]; exact hfits.bound⟩
  rw [h.config]
  exact Nat.le_trans (by omega) hfits.sp

theorem setSteps (h : Above m ws fp pc m') (n : Nat) : Above m ws fp pc { m' with steps := n } :=
  ⟨h.fits, h.config, h.size, h.sp, h.fp, h.pc, h.top, h.below⟩

theorem setPc (h : Above m ws fp pc m') (pc' : Nat) : Above m ws fp pc' { m' with pc := pc' } :=
  ⟨h.fits, h.config, h.size, h.sp, h.fp, rfl, h.top, h.below⟩

theorem setFp (h : Above m ws fp pc m') (fp' : Nat) : Above m ws fp' pc { m' with fp := fp' } :=
  ⟨h.fits, h.config, h.size, h.sp, rfl, h.pc, h.top, h.below⟩

/-- A push fails only for want of a cell. -/
theorem push (h : Above m ws fp pc m') (w : Word) :
    if m'.sp = 0 then Machine.push w m' = .error (.stackOverflow pc) m'
    else ∃ m'', Machine.push w m' = .ok () m'' ∧ Above m (w :: ws) fp pc m'' := by
  have hsp := h.sp
  have hfits := h.fits'
  split
  next hzero => simp [Machine.push, hzero, h.pc]
  next hpos =>
    refine ⟨_, if_neg hpos, h.fits, h.config, ?_, ?_, h.fp, h.pc, ?_, ?_⟩
    · simpa using h.size
    · simp only [List.length_cons]
      omega
    · have hlt : m'.sp - 1 < m'.memory.size := by
        have := hfits.sp
        rw [hfits.size]
        omega
      intro k u hk
      cases k with
      | zero =>
        obtain rfl : w = u := by simpa using hk
        exact Memory.getElem?_set_self hlt w
      | succ k =>
        have haddr : m'.sp - 1 + (k + 1) = m'.sp + k := by omega
        rw [haddr, Memory.getElem?_set_ne (by omega)]
        exact h.top k u (by simpa using hk)
    · intro a ha
      rw [Memory.getElem?_set_ne (by omega)]
      exact h.below a ha

theorem pop (h : Above m (w :: ws) fp pc m') :
    ∃ m'', Machine.pop m' = .ok w m'' ∧ Above m ws fp pc m'' := by
  have hsp := h.sp
  rw [List.length_cons] at hsp
  have htop : m'.memory[m'.sp]? = some w := h.top 0 w rfl
  refine ⟨{ m' with sp := m'.sp + 1 }, ?_, h.fits, h.config, h.size, ?_, h.fp, h.pc, ?_, h.below⟩
  · have hpeek : peek m' = .ok w m' := by simp only [peek, htop]
    simp only [Machine.pop, bind, EStateM.bind, hpeek]
    rfl
  · simp only
    omega
  · intro k u hk
    have haddr : m'.sp + 1 + k = m'.sp + (k + 1) := by omega
    simp only [haddr]
    exact h.top (k + 1) u hk

theorem drop {n : Nat} (h : Above m ws fp pc m') (hn : n ≤ ws.length) :
    ∃ m'', Machine.drop n m' = .ok () m'' ∧ Above m (ws.drop n) fp pc m'' := by
  have hsp := h.sp
  have hle := h.fits.sp
  refine ⟨{ m' with sp := m'.sp + n }, ?_, h.fits, h.config, h.size, ?_, h.fp, h.pc, ?_, h.below⟩
  · refine if_neg ?_
    rw [h.config]
    omega
  · rw [List.length_drop]
    simp only
    omega
  · intro k u hk
    rw [List.getElem?_drop] at hk
    simp only [Nat.add_assoc]
    exact h.top (n + k) u hk

/-- Writing to the cell of a word changes that word. -/
theorem store {a j : Nat} (h : Above m ws fp pc m') (ha : a + ws.length = m.sp + j)
    (hj : j < ws.length) (w : Word) :
    ∃ m'', Machine.store a w m' = .ok () m'' ∧ Above m (ws.set j w) fp pc m'' := by
  have hsp := h.sp
  have hfits := h.fits'
  have hlt : a < m'.memory.size := by
    have hle := h.fits.sp
    rw [h.size, h.fits.size]
    omega
  refine ⟨_, rfl, h.fits, h.config, ?_, ?_, h.fp, h.pc, ?_, ?_⟩
  · simpa using h.size
  · simpa using hsp
  · intro k u hk
    by_cases hkj : k = j
    · subst hkj
      have haddr : m'.sp + k = a := by omega
      obtain rfl : w = u := by simpa [hj] using hk
      rw [haddr]
      exact Memory.getElem?_set_self hlt w
    · rw [List.getElem?_set_ne (Ne.symm hkj)] at hk
      rw [Memory.getElem?_set_ne (by simp only; omega)]
      exact h.top k u hk
  · intro b hb
    rw [Memory.getElem?_set_ne (by omega)]
    exact h.below b hb

end Above

def after (pc : Nat) : Flow → Option Nat
  | .next => some (pc + 1)
  | .jump target => some target
  | .halt => none

theorem cycle_of_step {i : Instruction} {flow : Flow} {m m' : Machine} {pc' : Nat}
    (hi : code.get? m.pc = some i) (hstep : step i { m with steps := m.steps + 1 } = .ok flow m')
    (hpc : m'.pc = m.pc) (hflow : after m.pc flow = some pc') :
    cycle code m = .ok none { m' with pc := pc' } := by
  cases flow with
  | halt => cases hflow
  | next | jump => cases hflow; simp [cycle, hi, hstep, hpc]

/-- A step that goes on has executed its instruction and then moved the program counter. -/
theorem of_cycle_ok {i : Instruction} {m m' : Machine} (h : cycle code m = .ok none m')
    (hi : code.get? m.pc = some i) :
    ∃ flow m₁ pc, step i { m with steps := m.steps + 1 } = .ok flow m₁ ∧
      after m₁.pc flow = some pc ∧ m' = { m₁ with pc := pc } := by
  simp only [cycle, hi] at h
  cases hstep : step i { m with steps := m.steps + 1 } with
  | error e m₁ => simp [hstep] at h
  | ok flow m₁ =>
    rw [hstep] at h
    cases flow with
    | next => exact ⟨.next, m₁, _, rfl, rfl, (EStateM.Result.ok.inj h).2.symm⟩
    | jump target => exact ⟨.jump target, m₁, _, rfl, rfl, (EStateM.Result.ok.inj h).2.symm⟩
    | halt =>
      simp only at h
      split at h <;> simp at h

theorem proceed_ok {work : Exec Unit} {m m' : Machine} (h : work m = .ok () m') :
    proceed work m = .ok .next m' := by
  simp only [proceed, bind, EStateM.bind, h]
  rfl

/-- The instruction at `pc` takes `taken` new cells: from every state above `m` with the words `ws`
it overflows for want of them or goes on to a state with the words `ws'`. -/
def Moves (code : Module) (m : Machine) (taken : Nat) (ws : List Word) (fp pc : Nat)
    (ws' : List Word) (fp' pc' : Nat) : Prop :=
  ∀ m', Above m ws fp pc m' →
    if m'.sp < taken then ∃ m'', cycle code m' = .error (.stackOverflow pc) m''
    else ∃ m'', cycle code m' = .ok none m'' ∧ Above m ws' fp' pc' m''

namespace Moves

variable {fp fp' pc pc' : Nat} {m : Machine} {ws ws' : List Word} {i : Instruction}

/-- A step that succeeds does what the instruction says. -/
theorem above {taken : Nat} {m' m'' : Machine} (h : Moves code m taken ws fp pc ws' fp' pc')
    (hm : Above m ws fp pc m') (hcycle : cycle code m' = .ok none m'') :
    Above m ws' fp' pc' m'' := by
  have hmove := h m' hm
  split at hmove
  next =>
    obtain ⟨m₁, herror⟩ := hmove
    rw [hcycle] at herror
    cases herror
  next =>
    obtain ⟨m₁, hok, habove⟩ := hmove
    rw [hcycle] at hok
    cases hok
    exact habove

theorem ok {m' : Machine} (h : Moves code m 0 ws fp pc ws' fp' pc') (hm : Above m ws fp pc m') :
    ∃ m'', cycle code m' = .ok none m'' ∧ Above m ws' fp' pc' m'' := by
  simpa using h m' hm

/-- An instruction that takes no new cell. -/
theorem next (hi : code.get? pc = some i) (flow : Flow)
    (hstep : ∀ m', Above m ws fp pc m' → ∃ m'', step i m' = .ok flow m'' ∧ Above m ws' fp' pc m'')
    (hflow : after pc flow = some pc') : Moves code m 0 ws fp pc ws' fp' pc' := by
  intro m₁ hm₁
  rw [if_neg (Nat.not_lt_zero _)]
  obtain ⟨m₂, hm₂, habove⟩ := hstep _ (hm₁.setSteps (m₁.steps + 1))
  have hcycle := cycle_of_step (hm₁.pc ▸ hi) hm₂ (habove.pc.trans hm₁.pc.symm) (hm₁.pc ▸ hflow)
  exact ⟨_, hcycle, habove.setPc pc'⟩

/-- An instruction that pushes a word and then does the rest of its work. -/
theorem push {w : Word} (hi : code.get? pc = some i) (rest : Unit → Exec Flow) (flow : Flow)
    (hstep : ∀ m', Above m ws fp pc m' → step i m' = (Machine.push w >>= rest) m')
    (hrest : ∀ m', Above m (w :: ws) fp pc m' →
      ∃ m'', rest () m' = .ok flow m'' ∧ Above m (w :: ws) fp' pc m'')
    (hflow : after pc flow = some pc') : Moves code m 1 ws fp pc (w :: ws) fp' pc' := by
  intro m₁ hm₁
  have hm₁' := hm₁.setSteps (m₁.steps + 1)
  have hpush := hm₁'.push w
  have hi₁ : code.get? m₁.pc = some i := hm₁.pc ▸ hi
  have hstep₁ := hstep _ hm₁'
  simp only [bind, EStateM.bind] at hstep₁
  split
  next hroom =>
    rw [if_pos (by simp only; omega)] at hpush
    rw [hpush] at hstep₁
    exact ⟨{ m₁ with steps := m₁.steps + 1 }, by simp only [cycle, hi₁, hstep₁]⟩
  next hroom =>
    rw [if_neg (by simp only; omega)] at hpush
    obtain ⟨m₂, hm₂, habove₂⟩ := hpush
    obtain ⟨m₃, hm₃, habove₃⟩ := hrest m₂ habove₂
    rw [hm₂] at hstep₁
    have hcycle := cycle_of_step hi₁ (hstep₁.trans hm₃) (habove₃.pc.trans hm₁.pc.symm)
      (hm₁.pc ▸ hflow)
    exact ⟨_, hcycle, habove₃.setPc pc'⟩

theorem pushWord {op : OpCode} {w : Word} (hop : op = .pushInt ∨ op = .pushBool)
    (hi : code.get? pc = some ⟨op, .int w⟩) : Moves code m 1 ws fp pc (w :: ws) fp (pc + 1) := by
  refine .push hi (fun _ => pure .next) .next ?_ (fun m' hm' => ⟨m', rfl, hm'⟩) rfl
  rcases hop with rfl | rfl <;> exact fun _ _ => rfl

theorem decl (hi : code.get? pc = some (.decl 1)) :
    Moves code m 1 ws fp pc (0 :: ws) fp (pc + 1) := by
  refine .push hi (fun _ => pure .next) .next ?_ (fun m' hm' => ⟨m', rfl, hm'⟩) rfl
  intro m' _
  have hstep : step (.decl 1) m' = (pushZeros 1 >>= fun _ => pure .next) m' := rfl
  have hzeros : pushZeros 1 m' = Machine.push 0 m' := by
    simp only [pushZeros, bind, EStateM.bind]
    cases Machine.push 0 m' <;> rfl
  simp only [hstep, bind, EStateM.bind, hzeros]

/-- A cell that lies in memory is found from the frame pointer. -/
theorem frameAddress_eq (op : OpCode) {offset : Int} {a : Nat} {m' : Machine}
    (hm : Above m ws fp pc m') (hfp : fp ≤ m.config.stackSize) (ha : (fp : Int) + offset = a)
    (hlt : a < m.config.stackSize) :
    frameAddress ⟨op, .int (.ofInt offset)⟩ m' = .ok a m' := by
  have hbound := hm.fits.bound
  unfold Word.greatest at hbound
  have hoffset : (Int32.ofInt offset).toInt = offset := Int32.toInt_ofInt_of_le (by omega) (by omega)
  have hcheck : checkAddress (m'.fp + (Int32.ofInt offset).toInt) m' = .ok a m' := by
    rw [hoffset, hm.fp, ha]
    simp [checkAddress, hm.config, hlt]
  exact hcheck

theorem lval {offset : Int} {a : Nat} (hi : code.get? pc = some (.lval offset))
    (hfp : fp ≤ m.config.stackSize)
    (ha : ws.length ≤ m.sp → (fp : Int) + offset = a ∧ a < m.config.stackSize) :
    Moves code m 1 ws fp pc (.ofAddress a :: ws) fp (pc + 1) := by
  refine .push hi (fun _ => pure .next) .next ?_ (fun m' hm' => ⟨m', rfl, hm'⟩) rfl
  intro m' hm'
  have hsp := hm'.sp
  obtain ⟨ha, hlt⟩ := ha (by omega)
  have haddr := frameAddress_eq .lval hm' hfp ha hlt
  simp only [step, Instruction.lval, proceed, bind, EStateM.bind, haddr]

theorem load {slot : Slot} {a : Nat} {w : Word} (hi : code.get? pc = some (.load slot))
    (hfp : fp ≤ m.config.stackSize) (ha : (fp : Int) + slot.offset = a)
    (hw : ∀ m', Above m ws fp pc m' → m'.memory[a]? = some w) :
    Moves code m 1 ws fp pc (w :: ws) fp (pc + 1) := by
  refine .push hi (fun _ => pure .next) .next ?_ (fun m' hm' => ⟨m', rfl, hm'⟩) rfl
  intro m' hm'
  have hlt : a < m.config.stackSize := by
    rw [← hm'.fits.size, ← hm'.size]
    exact (Memory.getElem?_eq_some_iff.mp (hw m' hm')).1
  have hload : m'.memory.getD a 0 = w := Memory.getD_of_getElem? (hw m' hm') 0
  rcases slot with ⟨offset, _ | _⟩
  · have haddr := frameAddress_eq .rvalInt hm' hfp ha hlt
    simp only [step, Instruction.load, proceed, bind, EStateM.bind, haddr, Machine.load, hload]
  · have haddr := frameAddress_eq .rvalBool hm' hfp ha hlt
    simp only [step, Instruction.load, proceed, bind, EStateM.bind, haddr, Machine.load, hload]

/-- The address of a cell under the value and the address names a word of the state. -/
theorem store {t : Ty} {w : Word} {a j : Nat} (hi : code.get? pc = some (.store t))
    (ha : ws.length ≤ m.sp → a + ws.length = m.sp + j) (hj : j < ws.length) :
    Moves code m 0 (w :: .ofAddress a :: ws) fp pc (ws.set j w) fp (pc + 1) := by
  refine .next hi .next (fun m₀ hm₀ => ?_) rfl
  have hsp₀ := hm₀.sp
  simp only [List.length_cons] at hsp₀
  have ha := ha (by omega)
  obtain ⟨m₁, hpop₁, hm₁⟩ := hm₀.pop
  obtain ⟨m₂, hpop₂, hm₂⟩ := hm₁.pop
  obtain ⟨m₃, hstore, hm₃⟩ := hm₂.store ha hj w
  -- the cell lies in the stack, whose size is a word
  have hcheck : checkAddress (Word.ofAddress a).toInt m₂ = .ok a m₂ := by
    have hsp := hm₂.sp
    have hle := hm₂.fits'.sp
    have hbound := hm₂.fits'.bound
    have hlt : a < m₂.config.stackSize := by
      have := hm₂.fits.sp
      rw [hm₂.config]
      omega
    rw [Word.toInt_ofAddress (by omega)]
    simp [checkAddress, hlt]
  refine ⟨m₃, ?_, hm₃⟩
  cases t <;> exact proceed_ok (by simp only [bind, EStateM.bind, hpop₁, hpop₂, hcheck, hstore])

theorem binary {f : Word → Word → Word} {l r : Word} (hi : code.get? pc = some i)
    (hstep : step i = proceed (Machine.binary f)) :
    Moves code m 0 (r :: l :: ws) fp pc (f l r :: ws) fp (pc + 1) := by
  refine .next hi .next (fun m₀ hm₀ => ?_) rfl
  obtain ⟨m₁, hpop₁, hm₁⟩ := hm₀.pop
  obtain ⟨m₂, hpop₂, hm₂⟩ := hm₁.pop
  have hpush := hm₂.push (f l r)
  have hsp₀ := hm₀.sp
  have hsp₂ := hm₂.sp
  simp only [List.length_cons] at hsp₀
  -- the result takes the cell of an operand
  rw [if_neg (by omega)] at hpush
  obtain ⟨m₃, hpush, hm₃⟩ := hpush
  refine ⟨m₃, ?_, hm₃⟩
  rw [hstep]
  exact proceed_ok (by simp only [Machine.binary, bind, EStateM.bind, hpop₁, hpop₂, hpush])

/-- The instruction of an operator computes the operator on the words of its operands. -/
theorem operator {op : BinOp} {a b v : Value} (hi : code.get? pc = some (op.instruction a.ty))
    (hv : op.apply? a b = some v) :
    Moves code m 0 (b.word :: a.word :: ws) fp pc (v.word :: ws) fp (pc + 1) := by
  have heqBool : ∀ a b : Bool, Word.ofBool ((Word.ofBool a != 0) == (Word.ofBool b != 0)) =
      Word.ofBool (a == b) := by decide
  cases op <;> cases a <;> cases b <;> simp only [reduceCtorEq, BinOp.apply?] at hv <;> cases hv
  · exact .binary (f := fun a b => .ofBool (a == b)) hi rfl
  · rename_i a b
    simp only [Value.word]
    rw [← heqBool]
    exact .binary (f := fun a b => .ofBool ((a != 0) == (b != 0))) hi rfl
  · exact .binary (f := fun a b => .ofBool (a < b)) hi rfl
  · exact .binary (f := (· + ·)) hi rfl
  · exact .binary (f := (· - ·)) hi rfl

theorem pop {n : Nat} (hi : code.get? pc = some (.pop n)) (hn : n ≤ ws.length)
    (hbound : n ≤ Word.greatest) : Moves code m 0 ws fp pc (ws.drop n) fp (pc + 1) := by
  refine .next hi .next (fun m₀ hm₀ => ?_) rfl
  obtain ⟨m₁, hdrop, hm₁⟩ := hm₀.drop hn
  refine ⟨m₁, proceed_ok ?_, hm₁⟩
  have hint : (Int32.ofInt n).toInt = n := by
    unfold Word.greatest at hbound
    exact Int32.toInt_ofInt_of_le (by omega) (by omega)
  have hcount : countOperand (.pop n) m₀ = .ok n m₀ := by
    simp only [countOperand, intOperand, Instruction.pop, Instruction.int?, pure_bind, hint,
      Int.toNat_natCast, if_neg (by omega : ¬ (n : Int) < 0)]
    rfl
  simp only [bind, EStateM.bind, hcount, hdrop]

theorem label {name : String} (hi : code.get? pc = some ⟨.label, .label name⟩) :
    Moves code m 0 ws fp pc ws fp (pc + 1) :=
  .next hi .next (fun m' hm' => ⟨m', rfl, hm'⟩) rfl

/-- A call remembers where it returns to. -/
theorem bsr {target : Nat} (hi : code.get? pc = some ⟨.bsr, .address target⟩) :
    Moves code m 1 ws fp pc (.ofAddress (pc + 1) :: ws) fp target := by
  refine .push hi (fun _ => pure (.jump target)) (.jump target) ?_ (fun m' hm' => ⟨m', rfl, hm'⟩) rfl
  intro m' hm'
  rw [← hm'.pc]
  rfl

/-- A new frame starts at the cell that saves the old frame pointer. -/
theorem link (hi : code.get? pc = some ⟨.link, .empty⟩) :
    Moves code m 1 ws fp pc (.ofAddress fp :: ws) (m.sp - (ws.length + 1)) (pc + 1) := by
  refine .push hi (fun _ => proceed (modify fun m => { m with fp := m.sp })) .next ?_ ?_ rfl
  · intro m' hm'
    rw [← hm'.fp]
    simp only [step, proceed, Machine.link, bind, EStateM.bind]
    cases Machine.push (.ofAddress m'.fp) m' <;> rfl
  · intro m' hm'
    have hsp := hm'.sp
    rw [List.length_cons] at hsp
    refine ⟨{ m' with fp := m'.sp }, rfl, ?_⟩
    have hfp : m.sp - (ws.length + 1) = m'.sp := by omega
    rw [hfp]
    exact hm'.setFp m'.sp

/-- At the start of its frame the machine gets the old frame pointer back. -/
theorem unlink {saved : Nat} (hi : code.get? pc = some ⟨.unlink, .empty⟩)
    (hfp : ws.length + 1 ≤ m.sp → fp + (ws.length + 1) = m.sp)
    (hsaved : saved ≤ m.config.stackSize) :
    Moves code m 0 (.ofAddress saved :: ws) fp pc ws saved (pc + 1) := by
  refine .next hi .next (fun m₀ hm₀ => ?_) rfl
  have hsp := hm₀.sp
  rw [List.length_cons] at hsp
  have hfp₀ : m₀.fp = m₀.sp := by
    have := hfp (by omega)
    rw [hm₀.fp]
    omega
  -- the stack is already cut back to the start of the frame
  have hself : { m₀ with sp := m₀.fp } = m₀ := congrArg (fun sp => { m₀ with sp }) hfp₀
  obtain ⟨m₁, hpop, hm₁⟩ := hm₀.pop
  have hcheck : checkFrame (.ofAddress saved) m₁ = .ok saved m₁ := by
    have hbound := hm₁.fits.bound
    have hint : (Word.ofAddress saved).toInt = saved := Word.toInt_ofAddress (by omega)
    simp [checkFrame, hint, hm₁.config, hsaved]
  refine ⟨{ m₁ with fp := saved }, proceed_ok ?_, hm₁.setFp saved⟩
  have hcut : (modify fun m => { m with sp := m.fp } : Exec Unit) m₀ = .ok () m₀ :=
    congrArg (EStateM.Result.ok ()) hself
  simp only [Machine.unlink, bind, EStateM.bind, hcut, hpop, hcheck]
  rfl

theorem rts {a : Nat} (hi : code.get? pc = some ⟨.rts, .empty⟩) (ha : a ≤ Word.greatest) :
    Moves code m 0 (.ofAddress a :: ws) fp pc ws fp a := by
  refine .next hi (.jump a) (fun m₀ hm₀ => ?_) rfl
  obtain ⟨m₁, hpop, hm₁⟩ := hm₀.pop
  refine ⟨m₁, ?_, hm₁⟩
  -- the return address is that of an instruction, so the word did not wrap
  have hint := Word.toInt_ofAddress ha
  have hneg : ¬ (Word.ofAddress a).toInt < 0 := by
    rw [hint]
    omega
  have hreturn : popReturn m₀ = .ok a m₁ := by
    simp only [popReturn, bind, EStateM.bind, hpop]
    refine (congrFun (if_neg hneg) m₁).trans ?_
    rw [hint]
    rfl
  simp only [step, bind, EStateM.bind, hreturn]
  rfl

end Moves

end Machine

end LetStack
