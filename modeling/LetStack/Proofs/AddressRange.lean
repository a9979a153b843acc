import Mathlib
import LetStack.Proofs.Compilation
import LetStack.Proofs.StackEffects

namespace LetStack

open Machine LetStack.Module

namespace Machine

/-- In `n` steps from `m` to `m'` no instruction takes the word of the cell from the stack. -/
inductive Spares (code : Module) (cell : Nat) : Nat → Machine → Machine → Prop
  | refl (m : Machine) : Spares code cell 0 m m
  | cons {n : Nat} {m m₁ m' : Machine} (hcell : m.popsTo code ≤ cell)
      (hcycle : cycle code m = .ok none m₁) (hrest : Spares code cell n m₁ m') :
      Spares code cell (n + 1) m m'

/-- Whenever the word of an address is on the stack it stands for that address, and the instruction
that takes it is the one that belongs to the push: an assignment has it under the value, and the end
of a frame at the start of the frame. -/
structure KeepsAddresses (code : Module) (config : Config) : Prop where
  lval : ∀ {entry n k m m₁ m₂ offset}, code.entry? = some entry →
    Reaches code n (start config entry) m → code.get? m.pc = some ⟨.lval, .int offset⟩ →
    cycle code m = .ok none m₁ → Spares code m₁.sp k m₁ m₂ →
      (∃ w, m₂.memory[m₁.sp]? = some w ∧ w.toInt = m.fp + offset.toInt) ∧
      (m₁.sp < m₂.popsTo code →
        (m₂.op? code = some .assInt ∨ m₂.op? code = some .assBool) ∧ m₂.sp + 1 = m₁.sp)
  link : ∀ {entry n k m m₁ m₂}, code.entry? = some entry →
    Reaches code n (start config entry) m → code.get? m.pc = some ⟨.link, .empty⟩ →
    cycle code m = .ok none m₁ → Spares code m₁.sp k m₁ m₂ →
      (∃ w, m₂.memory[m₁.sp]? = some w ∧ w.toInt = m.fp) ∧
      (m₁.sp < m₂.popsTo code → m₂.op? code = some .unlink ∧ m₂.fp = m₁.sp)
  valid : ∀ address pc, code.execute config ≠ .error (.invalidAddress address pc)

section

variable {code : Module} {config : Config} {n : Nat} {m m₁ m₂ : Machine}

/-- A word that is spared is still there, and what takes it is the instruction that it is kept for.
-/
theorem Until.of_spares {base : Machine} {post : Machine → Prop} {d : Nat}
    (h : Until code (fun _ => Still code base) post n d m)
    (hpops : ∀ m', post m' → m'.popsTo code = base.sp + 1)
    (hcell : ∀ m', post m' → m'.memory[base.sp]? = base.memory[base.sp]?)
    (hspares : Spares code base.sp n m m₂) :
    m₂.memory[base.sp]? = base.memory[base.sp]? ∧ (base.sp < m₂.popsTo code → post m₂) := by
  induction hspares generalizing d with
  | refl =>
    cases h with
    | done hpost => exact ⟨hcell _ hpost, fun _ => hpost⟩
    | step hstill =>
      exact ⟨hstill.memory _ (Nat.le_refl _), fun hlt => absurd hlt (Nat.not_lt.mpr hstill.popsTo)⟩
  | cons hspared hcycle _ ih =>
    cases h with
    | done hpost =>
      have hlt := hpops _ hpost
      omega
    | step _ _ hnext => exact ih (hnext _ (Nat.lt_succ_self _) _ hcycle)

theorem Assigning.popsTo_eq {base : Machine} (h : Assigning code base m) :
    m.popsTo code = base.sp + 1 := by
  have hsp := h.sp
  rcases h.op with hop | hop <;> obtain ⟨i, hi, hi'⟩ := Option.map_eq_some_iff.mp hop <;>
    simp only [Machine.popsTo, hi, hi', Instruction.pops, reduceCtorEq, if_false] <;> omega

theorem Unlinking.popsTo_eq {base : Machine} (h : Unlinking code base m) :
    m.popsTo code = base.sp + 1 := by
  obtain ⟨i, hi, hi'⟩ := Option.map_eq_some_iff.mp h.op
  simp only [Machine.popsTo, hi, hi', if_true, h.fp]

theorem of_lval {offset : Word} (hm : InOrder config n m)
    (hi : code.get? m.pc = some ⟨.lval, .int offset⟩) (hcycle : cycle code m = .ok none m₁) :
    ∃ a, (m.fp : Int) + offset.toInt = (a : Nat) ∧ a < config.stackSize ∧
      m₁.memory[m₁.sp]? = some (.ofAddress a) := by
  obtain ⟨flow, m', pc, hstep, -, rfl⟩ := of_cycle_ok hcycle hi
  obtain ⟨a, m'', haddress, hpush⟩ := exists_of_bind_ok (of_proceed_ok hstep)
  obtain ⟨⟨w, hw, ha⟩, hlt, rfl⟩ := of_frameAddress_ok haddress
  obtain ⟨hsp, rfl⟩ := of_push_ok hpush
  obtain rfl : offset = w := Option.some.inj hw
  have hle := hm.sp
  refine ⟨a, ha, hm.config ▸ hlt, Memory.getElem?_set_self ?_ _⟩
  simp only [hm.size] at hsp ⊢
  omega

theorem of_link (hm : InOrder config n m) (hi : code.get? m.pc = some ⟨.link, .empty⟩)
    (hcycle : cycle code m = .ok none m₁) : m₁.memory[m₁.sp]? = some (.ofAddress m.fp) := by
  obtain ⟨flow, m', pc, hstep, -, rfl⟩ := of_cycle_ok hcycle hi
  obtain ⟨u, m'', hpush, hmodify⟩ := exists_of_bind_ok (of_proceed_ok hstep)
  obtain ⟨hsp, rfl⟩ := of_push_ok hpush
  cases hmodify
  have hle := hm.sp
  refine Memory.getElem?_set_self ?_ _
  simp only [hm.size] at hsp ⊢
  omega

end

end Machine

/-- On a machine whose stack size is a word, compiled code keeps its addresses. -/
theorem Build.Stands.keepsAddresses {e : Expr} {build : Build} {labels : Labels}
    (h : build.Stands e labels) (hsize : build.module.size < 2 ^ 31) {config : Config}
    (hconfig : config.stackSize ≤ Word.greatest) : KeepsAddresses build.module config := by
  have hword : build.module.size ≤ Word.greatest := Nat.le_of_lt_succ hsize
  refine ⟨?_, ?_, ?_⟩
  · intro entry n k m m₁ m₂ offset hentry hreach hi hcycle hspares
    have hparks := Program.parks_of_reaches h.wellTyped h.linked hword hconfig hentry hreach (k + 1)
    have huntil := hparks.lval (by simp [op?, hi]) m₁ hcycle k (Nat.lt_succ_self k)
    obtain ⟨hcell, htaken⟩ := huntil.of_spares (fun _ h => h.popsTo_eq) (fun _ h => h.cell) hspares
    obtain ⟨a, ha, hlt, hpushed⟩ := of_lval (hreach.inOrder (start_inOrder config entry)) hi hcycle
    refine ⟨⟨_, hcell.trans hpushed, ?_⟩, fun hlt => ⟨(htaken hlt).op, (htaken hlt).sp⟩⟩
    exact (Word.toInt_ofAddress (by omega)).trans ha.symm
  · intro entry n k m m₁ m₂ hentry hreach hi hcycle hspares
    have hparks := Program.parks_of_reaches h.wellTyped h.linked hword hconfig hentry hreach (k + 1)
    have huntil := hparks.link (by simp [op?, hi]) m₁ hcycle k (Nat.lt_succ_self k)
    obtain ⟨hcell, htaken⟩ := huntil.of_spares (fun _ h => h.popsTo_eq) (fun _ h => h.cell) hspares
    have hm := hreach.inOrder (start_inOrder config entry)
    refine ⟨⟨_, hcell.trans (of_link hm hi hcycle), ?_⟩, fun hlt =>
      ⟨(htaken hlt).op, (htaken hlt).fp⟩⟩
    exact Word.toInt_ofAddress (Nat.le_trans hm.fp hconfig)
  · intro address pc herror
    rcases h.evaluate_cases hsize config.maxSteps with ⟨v, -, -, _, _, -, hgives⟩ | ⟨-, hlong⟩
    · rcases hgives.cases hconfig with hv | ⟨e, he, hexhausted⟩
      · simp [hv] at herror
      · obtain rfl : e = _ := Except.error.inj (he.symm.trans herror)
        exact hexhausted
    · obtain ⟨e, he, hexhausted⟩ := hlong config hconfig (Nat.le_refl _)
      obtain rfl : e = _ := Except.error.inj (he.symm.trans herror)
      exact hexhausted

def oneCall : String := "let f x: num -> num = x in f 1"

def oneCallCode : Module :=
  ⟨#[⟨.label, .label "f_0"⟩, ⟨.link, .empty⟩, .lval 3, .load ⟨2, .num⟩, .store .num,
    ⟨.unlink, .empty⟩, ⟨.rts, .empty⟩, ⟨.label, .label "main"⟩, .decl 1, ⟨.pushInt, .int 1⟩,
    ⟨.bsr, .address 0⟩, .pop 1, ⟨.halt, .empty⟩]⟩

theorem oneCall_compiled : ∃ e build, parse oneCall = .ok e ∧ compile e = .ok build ∧
    build.module = oneCallCode := by
  have hresults : (parse oneCall).toOption.bind (fun e => (compile e).toOption.map fun build =>
      build.module.code) = some oneCallCode.code := by cbv
  cases hparse : parse oneCall with
  | error error => rw [hparse] at hresults; cases hresults
  | ok e =>
    cases hcompile : compile e with
    | error error => simp [hparse, hcompile, Except.toOption] at hresults
    | ok build =>
      simp only [hparse, hcompile, Except.toOption, Option.bind_some, Option.map_some,
        Option.some.injEq] at hresults
      exact ⟨e, build, rfl, hcompile, congrArg Module.mk hresults⟩

/-- After five steps the function is called, and its first instruction saves the frame pointer,
which is still the stack size. -/
theorem oneCall_links (config : Config) (hstack : 4 ≤ config.stackSize) :
    ∃ m m₁, Reaches oneCallCode 5 (start config 7) m ∧ m.pc = 1 ∧ m.fp = config.stackSize ∧
      cycle oneCallCode m = .ok none m₁ := by
  obtain ⟨size, maxSteps⟩ := config
  obtain ⟨size, rfl⟩ : ∃ s, size = s + 4 := ⟨size - 4, by simp only at hstack; omega⟩
  exact ⟨_, _, .cons rfl (.cons rfl (.cons rfl (.cons rfl (.cons rfl (.refl _))))), rfl, rfl, rfl⟩

theorem not_keepsAddresses_oneCall {config : Config} (hstack : 2147483647 < config.stackSize) :
    ¬ KeepsAddresses oneCallCode config := by
  intro hkeeps
  obtain ⟨m, m₁, hreach, hpc, hfp, hcycle⟩ := oneCall_links config (by omega)
  have hi : oneCallCode.get? m.pc = some ⟨.link, .empty⟩ := by rw [hpc]; rfl
  obtain ⟨⟨w, -, hw⟩, -⟩ := hkeeps.link (by rfl) hreach hi hcycle (.refl m₁)
  -- no word is as great as the frame pointer that it should stand for
  have hlt := Int32.toInt_lt w
  omega

/-- Compiled code keeps the addresses that it puts on the stack on those machines whose stack size
is a word, and on no others: there, at every state of a run, the word that was pushed for an address
or a frame pointer still stands for it when the instruction takes it that belongs to the push, and
no run ends with an invalid address. -/
theorem addresses_kept_iff (config : Config) :
    (∀ e keepStages build, compile e keepStages = .ok build → build.module.size < 2 ^ 31 →
      KeepsAddresses build.module config) ↔ config.stackSize ≤ 2147483647 := by
  constructor
  · intro hkeeps
    by_contra hstack
    obtain ⟨e, build, -, hcompile, hcode⟩ := oneCall_compiled
    have hsize : build.module.size < 2 ^ 31 := by rw [hcode]; decide
    exact not_keepsAddresses_oneCall (by omega) (hcode ▸ hkeeps e false build hcompile hsize)
  · intro hstack e keepStages build hcompile hsize
    obtain ⟨labels, hstands⟩ := stands_of_compile hcompile
    exact hstands.keepsAddresses hsize hstack

/-- One cell more than a word can count: the saved frame pointer comes back as a negative number. -/
theorem addresses_lost_oneCall : ∃ e build, parse oneCall = .ok e ∧ compile e = .ok build ∧
    e.evaluate 1 = .ok (.num 1) ∧
    build.module.execute ⟨2147483647, 1000000⟩ = .ok 1 ∧
    build.module.execute ⟨2147483648, 1000000⟩ = .error (.invalidAddress (-2147483648) 5) := by
  obtain ⟨e, build, hparse, hcompile, hcode⟩ := oneCall_compiled
  refine ⟨e, build, hparse, hcompile, ?_, ?_, ?_⟩
  · have hvalue : (parse oneCall).toOption.map (fun e => e.evaluate 1) =
        some (.ok (.num 1)) := by cbv
    simpa [hparse, Except.toOption] using hvalue
  · rw [hcode]
    cbv
  · rw [hcode]
    cbv

end LetStack
