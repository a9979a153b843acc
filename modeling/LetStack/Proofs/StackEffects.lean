import LetStack.Code.Emitter
import LetStack.Machine.Run
import LetStack.Proofs.MemoryCells

namespace LetStack.Machine

section

variable {α β : Type} {i : Instruction} {m m' : Machine} {w : Word}

theorem exists_of_bind_ok {work : Exec α} {next : α → Exec β} {b : β}
    (h : (work >>= next) m = .ok b m') : ∃ a m₁, work m = .ok a m₁ ∧ next a m₁ = .ok b m' := by
  simp only [bind, EStateM.bind] at h
  cases hwork : work m with
  | error e m₁ => simp [hwork] at h
  | ok a m₁ => exact ⟨a, m₁, rfl, by simpa [hwork] using h⟩

theorem of_proceed_ok {work : Exec Unit} {flow : Flow} (h : proceed work m = .ok flow m') :
    work m = .ok () m' := by
  obtain ⟨u, m₁, hwork, hflow⟩ := exists_of_bind_ok h
  obtain ⟨-, rfl⟩ := EStateM.Result.ok.inj hflow
  exact hwork

theorem of_push_ok {u : Unit} (h : push w m = .ok u m') :
    m.sp ≠ 0 ∧ m' = { m with sp := m.sp - 1, memory := m.memory.set (m.sp - 1) w } := by
  unfold push at h
  split at h
  next => cases h
  next hsp => exact ⟨hsp, (EStateM.Result.ok.inj h).2.symm⟩

theorem of_pop_ok (h : pop m = .ok w m') :
    m.memory[m.sp]? = some w ∧ m' = { m with sp := m.sp + 1 } := by
  obtain ⟨v, m₁, hpeek, hrest⟩ := exists_of_bind_ok h
  unfold peek at hpeek
  split at hpeek
  next hv =>
    cases hpeek
    cases hrest
    exact ⟨hv, rfl⟩
  next => cases hpeek

theorem of_intOperand_ok (h : intOperand i m = .ok w m') : i.int? = some w ∧ m' = m := by
  unfold intOperand at h
  cases hint : i.int? with
  | none =>
    rw [hint] at h
    cases h
  | some v =>
    rw [hint] at h
    cases h
    exact ⟨rfl, rfl⟩

theorem of_countOperand_ok {count : Nat} (h : countOperand i m = .ok count m') :
    (∃ w, i.int? = some w ∧ w.toInt = count) ∧ m' = m := by
  obtain ⟨w, m₁, hoperand, hcount⟩ := exists_of_bind_ok h
  obtain ⟨hint, rfl⟩ := of_intOperand_ok hoperand
  split at hcount
  next => cases hcount
  next hneg =>
    cases hcount
    exact ⟨⟨w, hint, by omega⟩, rfl⟩

theorem of_checkAddress_ok {address : Int} {a : Nat} (h : checkAddress address m = .ok a m') :
    address = a ∧ a < m.config.stackSize ∧ m' = m := by
  unfold checkAddress at h
  split at h
  next hin =>
    cases h
    exact ⟨by omega, by omega, rfl⟩
  next => cases h

theorem of_frameAddress_ok {a : Nat} (h : frameAddress i m = .ok a m') :
    (∃ w, i.int? = some w ∧ m.fp + w.toInt = a) ∧ a < m.config.stackSize ∧ m' = m := by
  obtain ⟨w, m₁, hoperand, haddress⟩ := exists_of_bind_ok h
  obtain ⟨hint, rfl⟩ := of_intOperand_ok hoperand
  obtain ⟨ha, hlt, rfl⟩ := of_checkAddress_ok haddress
  exact ⟨⟨w, hint, ha⟩, hlt, rfl⟩

theorem of_target_ok {a : Nat} (h : target i m = .ok a m') : i.operand = .address a ∧ m' = m := by
  unfold target at h
  cases hoperand : i.operand with
  | address b =>
    rw [hoperand] at h
    cases h
    exact ⟨rfl, rfl⟩
  | empty | int | label =>
    rw [hoperand] at h
    cases h

end

/-- From `m` to `m'` the stack has grown by so many cells. The frame pointer is the same, and so are
the cells beyond the tops of both. -/
structure Grown (growth : Int) (m m' : Machine) : Prop where
  sp : (m.sp : Int) - m'.sp = growth
  fp : m'.fp = m.fp
  memory : ∀ a, max m.sp m'.sp < a → m'.memory[a]? = m.memory[a]?

section

variable {i : Instruction} {m m' : Machine} {flow : Flow} {w : Word}

theorem Grown.refl (m : Machine) : Grown 0 m m := ⟨by omega, rfl, fun _ _ => rfl⟩

theorem grown_of_push {u : Unit} (h : push w m = .ok u m') : Grown 1 m m' := by
  obtain ⟨hsp, rfl⟩ := of_push_ok h
  refine ⟨by simp only; omega, rfl, fun a ha => ?_⟩
  exact Memory.getElem?_set_ne (by simp only at ha; omega) w

theorem grown_of_pop (h : pop m = .ok w m') : Grown (-1) m m' := by
  obtain ⟨-, rfl⟩ := of_pop_ok h
  exact ⟨by simp only; omega, rfl, fun _ _ => rfl⟩

theorem grown_of_pushZeros {count : Nat} {u : Unit} (h : pushZeros count m = .ok u m') :
    Grown count m m' := by
  induction count generalizing m with
  | zero =>
    cases h
    exact .refl _
  | succ count ih =>
    obtain ⟨v, m₁, hpush, hrest⟩ := exists_of_bind_ok h
    have hfirst := grown_of_push hpush
    have hrest := ih hrest
    have hsp := hfirst.sp
    have hsp' := hrest.sp
    refine ⟨by omega, hrest.fp.trans hfirst.fp, fun a ha => ?_⟩
    rw [hrest.memory a (by omega), hfirst.memory a (by omega)]

theorem grown_of_drop {count : Nat} {u : Unit} (h : drop count m = .ok u m') :
    Grown (-count) m m' := by
  unfold drop at h
  split at h
  next => cases h
  next =>
    cases h
    exact ⟨by simp only; omega, rfl, fun _ _ => rfl⟩

/-- The result of an operation takes the place of its left operand. -/
theorem grown_of_binary {f : Word → Word → Word} {u : Unit} (h : binary f m = .ok u m') :
    Grown (-1) m m' := by
  obtain ⟨right, m₁, hright, h⟩ := exists_of_bind_ok h
  obtain ⟨left, m₂, hleft, h⟩ := exists_of_bind_ok h
  obtain ⟨-, rfl⟩ := of_pop_ok hright
  obtain ⟨-, rfl⟩ := of_pop_ok hleft
  obtain ⟨-, rfl⟩ := of_push_ok h
  refine ⟨by simp only; omega, rfl, fun a ha => ?_⟩
  exact Memory.getElem?_set_ne (by simp only at ha ⊢; omega) _

/-- The cell that an assignment would write to: its address lies beneath the value. -/
def Assigns (m : Machine) (a : Nat) : Prop :=
  ∃ cell, m.memory[m.sp + 1]? = some cell ∧ cell.toInt = a

theorem of_assign_ok (hop : i.op = .assInt ∨ i.op = .assBool) (h : step i m = .ok flow m') :
    ∃ w a, m.memory[m.sp]? = some w ∧ m.Assigns a ∧
      m' = { m with sp := m.sp + 2, memory := m.memory.set a w } := by
  have hwork : (do
      let w ← pop
      let cell ← pop
      let address ← checkAddress cell.toInt
      store address w : Exec Unit) m = .ok () m' := by
    rcases hop with hop | hop <;> simp only [step, hop] at h <;> exact of_proceed_ok h
  obtain ⟨w, m₁, hpop, hrest⟩ := exists_of_bind_ok hwork
  obtain ⟨cell, m₂, hpop', hrest⟩ := exists_of_bind_ok hrest
  obtain ⟨a, m₃, hcheck, hstore⟩ := exists_of_bind_ok hrest
  obtain ⟨hw, rfl⟩ := of_pop_ok hpop
  obtain ⟨hcell, rfl⟩ := of_pop_ok hpop'
  obtain ⟨ha, -, rfl⟩ := of_checkAddress_ok hcheck
  cases hstore
  exact ⟨w, a, hw, ⟨cell, hcell, ha⟩, rfl⟩

/-- The instructions that the table is about, assignments apart. -/
theorem grown_of_step (h : step i m = .ok flow m')
    (hop : i.op ∉ [.link, .unlink, .bsr, .rts, .assInt, .assBool]) :
    Grown (i.op.stackEffect ((i.int?.map Int32.toInt).getD 0)) m m' := by
  -- The opcodes left out build or leave a frame, or write below the top of the stack.
  rcases i with ⟨op, operand⟩
  cases op with
  | pushInt | pushBool =>
    obtain ⟨w, m₁, hoperand, hpush⟩ := exists_of_bind_ok (of_proceed_ok h)
    obtain ⟨-, rfl⟩ := of_intOperand_ok hoperand
    exact grown_of_push hpush
  | lval =>
    obtain ⟨a, m₁, haddress, hpush⟩ := exists_of_bind_ok (of_proceed_ok h)
    obtain ⟨-, -, rfl⟩ := of_frameAddress_ok haddress
    exact grown_of_push hpush
  | rvalInt | rvalBool =>
    obtain ⟨a, m₁, haddress, hrest⟩ := exists_of_bind_ok (of_proceed_ok h)
    obtain ⟨w, m₂, hload, hpush⟩ := exists_of_bind_ok hrest
    obtain ⟨-, -, rfl⟩ := of_frameAddress_ok haddress
    cases hload
    exact grown_of_push hpush
  | assInt | assBool => simp at hop
  | add | sub | eqInt | eqBool | ltInt => exact grown_of_binary (of_proceed_ok h)
  | decl =>
    obtain ⟨count, m₁, hcount, hzeros⟩ := exists_of_bind_ok (of_proceed_ok h)
    obtain ⟨⟨w, hint, hw⟩, rfl⟩ := of_countOperand_ok hcount
    simpa [OpCode.stackEffect, hint, hw] using grown_of_pushZeros hzeros
  | pop =>
    obtain ⟨count, m₁, hcount, hdrop⟩ := exists_of_bind_ok (of_proceed_ok h)
    obtain ⟨⟨w, hint, hw⟩, rfl⟩ := of_countOperand_ok hcount
    simpa [OpCode.stackEffect, hint, hw] using grown_of_drop hdrop
  | brf =>
    obtain ⟨a, m₁, htarget, hrest⟩ := exists_of_bind_ok h
    obtain ⟨w, m₂, hpop, hflow⟩ := exists_of_bind_ok hrest
    obtain ⟨-, rfl⟩ := of_target_ok htarget
    obtain ⟨-, rfl⟩ := EStateM.Result.ok.inj hflow
    exact grown_of_pop hpop
  | bra =>
    obtain ⟨a, m₁, htarget, hflow⟩ := exists_of_bind_ok h
    obtain ⟨-, rfl⟩ := of_target_ok htarget
    cases hflow
    exact .refl _
  | writeInt =>
    obtain ⟨w, m₁, hpop, hwrite⟩ := exists_of_bind_ok (of_proceed_ok h)
    have hgrown := grown_of_pop hpop
    cases hwrite
    exact ⟨hgrown.sp, hgrown.fp, hgrown.memory⟩
  | link | unlink | bsr | rts => simp at hop
  | halt | label =>
    cases h
    exact .refl _

end

/-- The table of the emitter agrees with the machine. Where an instruction other than those of calls
and returns succeeds, in whatever state and with whatever operand, the stack has grown by as many
cells as the emitter adds to its count, the frame pointer has not moved, and no cell beyond the tops
of both stacks is written to, unless by an assignment to that very cell. -/
theorem step_grows_by_stackEffect {i : Instruction} {m m' : Machine} {flow : Flow}
    (hop : i.op ∉ [.link, .unlink, .bsr, .rts]) (h : step i m = .ok flow m') :
    (m.sp : Int) - m'.sp = i.op.stackEffect ((i.int?.map Int32.toInt).getD 0) ∧
      (∀ e : Emitter, (e.push i).depth = e.depth + (m.sp - m'.sp)) ∧
      m'.fp = m.fp ∧
      ∀ a, max m.sp m'.sp < a → m'.memory[a]? ≠ m.memory[a]? →
        (i.op = .assInt ∨ i.op = .assBool) ∧ m.Assigns a := by
  by_cases hassign : i.op = .assInt ∨ i.op = .assBool
  · obtain ⟨w, a, -, ha, rfl⟩ := of_assign_ok hassign h
    have heffect : i.op.stackEffect ((i.int?.map Int32.toInt).getD 0) = -2 := by
      rcases hassign with hassign | hassign <;> rw [hassign] <;> rfl
    have hsp : (m.sp : Int) - (m.sp + 2 : Nat) = -2 := by omega
    refine ⟨by rw [heffect, hsp], fun e => ?_, rfl, fun b _ hne => ⟨hassign, ?_⟩⟩
    · rw [Emitter.push, heffect, hsp]
    · by_cases hb : a = b
      · exact hb ▸ ha
      · exact absurd (Memory.getElem?_set_ne hb w) hne
  · have hgrown := grown_of_step h (by simp_all)
    refine ⟨hgrown.sp, fun e => ?_, hgrown.fp, fun a ha hne => absurd (hgrown.memory a ha) hne⟩
    rw [hgrown.sp]
    rfl

def assigning : Machine := ⟨⟨6, 10⟩, ⟨6, #[0, 0, 5, 7]⟩, 2, 6, 0, 0, #[]⟩

/-- The assignment takes two cells away and changes the one that it names, which lies beyond both
tops. -/
theorem step_grows_by_stackEffect_assigning : ∃ m',
    step ⟨.assInt, .empty⟩ assigning = .ok .next m' ∧
      (assigning.sp : Int) - m'.sp = OpCode.stackEffect .assInt 0 ∧ m'.fp = assigning.fp ∧
      m'.memory[5]? ≠ assigning.memory[5]? ∧ assigning.Assigns 5 := by
  have hstep : step ⟨.assInt, .empty⟩ assigning =
      .ok .next { assigning with sp := 4, memory := ⟨6, #[7, 0, 5, 7]⟩ } := rfl
  obtain ⟨hsp, -, hfp, hmemory⟩ := step_grows_by_stackEffect (by decide) hstep
  have hchanged : ({ size := 6, filled := #[7, 0, 5, 7] } : Memory)[5]? ≠ assigning.memory[5]? := by
    decide
  exact ⟨_, hstep, hsp, hfp, hchanged, (hmemory 5 (by decide) hchanged).2⟩

end LetStack.Machine
