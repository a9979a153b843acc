import LetStack.Proofs.Execution
import LetStack.Proofs.MachineUpkeep

namespace LetStack

def MachineError.Exhausted : MachineError → Prop
  | stackOverflow _ | stepLimit _ => True
  | _ => False

theorem MachineError.exhausted_iff {e : MachineError} :
    e.Exhausted ↔ (∃ pc, e = .stackOverflow pc) ∨ ∃ limit, e = .stepLimit limit := by
  cases e <;> simp [Exhausted]

namespace Machine

variable {code : Module} {m m' : Machine} {n : Nat}

theorem Reaches.loop_add (h : Reaches code n m m') (k : Nat) :
    loop code (n + k) m = loop code k m' := by
  induction h with
  | refl => rw [Nat.zero_add]
  | cons hfirst _ ih =>
    rw [Nat.add_right_comm]
    simp only [loop, hfirst, ih]

theorem Reaches.loop_le (h : Reaches code n m m') {k : Nat} (hk : k ≤ n) :
    ∃ limit m'', loop code k m = .error (.stepLimit limit) m'' := by
  induction h generalizing k with
  | refl m =>
    obtain rfl : k = 0 := by omega
    exact ⟨_, m, rfl⟩
  | @cons _ m _ _ hfirst _ ih =>
    cases k with
    | zero => exact ⟨_, m, rfl⟩
    | succ k =>
      simp only [loop, hfirst]
      exact ih (by omega)

theorem Overflows.loop (h : Overflows code m) (k : Nat) :
    ∃ e m', loop code k m = .error e m' ∧ e.Exhausted := by
  obtain ⟨n, m₁, pc, m₂, hreach, hcycle⟩ := h
  by_cases hk : k ≤ n
  · obtain ⟨limit, m₃, hloop⟩ := hreach.loop_le hk
    exact ⟨_, m₃, hloop, trivial⟩
  · have hsplit : k = n + (k - n - 1 + 1) := by omega
    refine ⟨.stackOverflow pc, m₂, ?_, trivial⟩
    rw [hsplit, hreach.loop_add]
    simp only [Machine.loop, hcycle]

theorem Long.loop (h : Long code n m) {k : Nat} (hk : k ≤ n) :
    ∃ e m', loop code k m = .error e m' ∧ e.Exhausted := by
  rcases h with h | ⟨j, m₁, hj, hreach⟩
  · exact h.loop k
  · obtain ⟨limit, m₂, hloop⟩ := hreach.loop_le (by omega : k ≤ j)
    exact ⟨_, m₂, hloop, trivial⟩

theorem Reaches.inOrder {c : Config} {k : Nat} (h : Reaches code n m m') (hm : InOrder c k m) :
    InOrder c (k + n) m' := by
  induction h generalizing k with
  | refl => exact hm
  | @cons n _ _ _ hfirst _ ih =>
    have hnext := cycle_inOrder code hm
    rw [hfirst] at hnext
    rw [Nat.add_comm n, ← Nat.add_assoc]
    exact ih hnext

def start (config : Config) (pc : Nat) : Machine := { (new config).reset with pc := pc }

theorem start_inOrder (config : Config) (pc : Nat) : InOrder config 0 (start config pc) :=
  ⟨rfl, rfl, by simp [start, new, reset], Nat.le_refl _, Nat.le_refl _⟩

theorem start_holds {config : Config} (h : config.stackSize ≤ Word.greatest) (pc : Nat) :
    Holds .forMain [] 0 (start config pc) := by
  refine ⟨⟨?_, Nat.le_refl _, h⟩, rfl, Nat.le_refl _, fun x slot hslot => ?_⟩
  · simp [start, new, reset]
  · cases hslot

theorem cycle_halt {w : Word} (hi : code.get? m.pc = some ⟨.halt, .empty⟩)
    (hw : m.memory[m.sp]? = some w) : ∃ m', cycle code m = .ok (some w) m' := by
  simp [cycle, hi, step, peek, hw, pure, EStateM.pure]

end Machine

namespace Module

open Machine

variable {code : Module}

theorem run_of_loop {config : Config} {entry : Nat} {w : Word} {m : Machine}
    (hentry : code.entry? = some entry)
    (h : loop code config.maxSteps (start config entry) = .ok w m) :
    (new config).run code = (.ok w, m) := by
  have hrun : loop code (new config).reset.config.maxSteps { (new config).reset with pc := entry } =
    .ok w m := h
  simp only [run, hentry, hrun]

theorem execute_of_loop_error {config : Config} {entry : Nat} {e : MachineError} {m : Machine}
    (hentry : code.entry? = some entry)
    (h : loop code config.maxSteps (start config entry) = .error e m) :
    code.execute config = .error e := by
  have hrun : loop code (new config).reset.config.maxSteps { (new config).reset with pc := entry } =
    .error e m := h
  simp only [execute, run, hentry, hrun]

def RunsOut (code : Module) (config : Config) : Prop :=
  ∃ e, code.execute config = .error e ∧ e.Exhausted

/-- The module gives the word to every machine that has the cells it needs and the steps it costs,
and no other machine comes to an end. -/
structure Gives (code : Module) (need cost : Nat) (w : Word) : Prop where
  ends : ∀ config : Config, config.stackSize ≤ Word.greatest → need ≤ config.stackSize →
    cost ≤ config.maxSteps → ∃ m, (new config).run code = (.ok w, m) ∧ m.steps = cost
  runsOut : ∀ config : Config, config.stackSize ≤ Word.greatest →
    config.stackSize < need ∨ config.maxSteps < cost → code.RunsOut config

theorem Gives.ok {need cost : Nat} {w : Word} (h : code.Gives need cost w) (config : Config)
    (hsize : config.stackSize ≤ Word.greatest) (hroom : need ≤ config.stackSize)
    (hsteps : cost ≤ config.maxSteps) : code.execute config = .ok w := by
  obtain ⟨m, hrun, -⟩ := h.ends config hsize hroom hsteps
  rw [execute, hrun]

/-- A module gives no other word, and no error but that of a machine too small. -/
theorem Gives.cases {need cost : Nat} {w : Word} (h : code.Gives need cost w) {config : Config}
    (hsize : config.stackSize ≤ Word.greatest) :
    code.execute config = .ok w ∨ code.RunsOut config := by
  by_cases hroom : need ≤ config.stackSize ∧ cost ≤ config.maxSteps
  · exact .inl (h.ok config hsize hroom.1 hroom.2)
  · exact .inr (h.runsOut config hsize (by omega))

theorem RunsOut.ne_ok {config : Config} (h : code.RunsOut config) (w : Word) :
    code.execute config ≠ .ok w := by
  obtain ⟨e, he, -⟩ := h
  simp [he]

/-- What a module gives to one machine it gives to every larger one, in as many steps. -/
theorem Gives.larger {need cost : Nat} {v w : Word} (h : code.Gives need cost v)
    {small large : Config} (hstack : small.stackSize ≤ large.stackSize)
    (hlarge : large.stackSize ≤ Word.greatest) (hsteps : small.maxSteps ≤ large.maxSteps)
    (hrun : ((new small).run code).1 = .ok w) :
    ((new large).run code).1 = .ok w ∧
      ((new large).run code).2.steps = ((new small).run code).2.steps := by
  have hsmall : small.stackSize ≤ Word.greatest := Nat.le_trans hstack hlarge
  by_cases hroom : need ≤ small.stackSize ∧ cost ≤ small.maxSteps
  · obtain ⟨m, hm, hcost⟩ := h.ends small hsmall hroom.1 hroom.2
    obtain ⟨m', hm', hcost'⟩ := h.ends large hlarge (by omega) (by omega)
    rw [hm] at hrun ⊢
    rw [hm']
    exact ⟨hrun, hcost'.trans hcost.symm⟩
  · exact absurd hrun ((h.runsOut small hsmall (by omega)).ne_ok w)

end Module

namespace Program

open Machine LetStack.Module

variable {p : Program} {t : Ty} {code : Module} {labels : Labels}

/-- The main expression starts behind the main label with an empty stack. -/
theorem main_starts (hlinked : p.Linked code labels) {config : Config}
    (hsize : config.stackSize ≤ Word.greatest) :
    ∃ entry, code.entry? = some entry ∧
      (∀ n, Runs code (p.Called code labels) n (start config entry) 0 1 (start config entry) []
        (start config entry).fp (entry + 1)) ∧
      code.Placed labels (entry + 1) (p.main.code .forMain 0) ∧
      code.get? (entry + 1 + (p.main.code .forMain 0).length) = some ⟨.halt, .empty⟩ := by
  obtain ⟨entry, hentry, hplaced⟩ := hlinked.main
  obtain ⟨hfront, hhalt⟩ := Placed.append.mp hplaced
  obtain ⟨hlabel, hcode⟩ := Placed.cons.mp hfront
  refine ⟨entry, hentry, ?_, hcode, ?_⟩
  · exact fun n => (Runs.start (start_holds hsize entry).fits).label hlabel
  · have hhalt := (Placed.cons.mp hhalt).1
    rwa [List.length_cons, Nat.add_comm _ 1, ← Nat.add_assoc] at hhalt

/-- The label is one step before the code of the main expression, and `halt` stands behind it. -/
theorem main_leads (hlinked : p.Linked code labels) {need cost : Nat} {w : Word}
    (h : Computes p code labels need cost .forMain [] 0 (p.main.code .forMain 0) [w])
    {config : Config} (hsize : config.stackSize ≤ Word.greatest) (n : Nat) :
    ∃ entry, code.entry? = some entry ∧
      Leads code (p.Called code labels) n (start config entry) need (cost + 1) (start config entry)
        fun m => code.get? m.pc = some ⟨.halt, .empty⟩ ∧ m.memory[m.sp]? = some w := by
  obtain ⟨entry, hentry, hstart, hcode, hhalt⟩ := main_starts hlinked hsize
  have hrun := h.next (hstart n) (start_holds hsize entry) hcode
  refine ⟨entry, hentry, (hrun.imp fun m hm => ?_).cast (by simp) (Nat.add_comm 1 cost)⟩
  exact ⟨hm.pc ▸ hhalt, hm.top 0 w rfl⟩

theorem main_lasts (hlinked : p.Linked code labels) {n : Nat}
    (h : Exhausts p code labels n .forMain [] 0 (p.main.code .forMain 0)) {config : Config}
    (hsize : config.stackSize ≤ Word.greatest) :
    ∃ entry, code.entry? = some entry ∧
      Lasts code (p.Called code labels) n (start config entry) (start config entry) := by
  obtain ⟨entry, hentry, hstart, hcode, -⟩ := main_starts hlinked hsize
  exact ⟨entry, hentry, h.next (hstart n) (start_holds hsize entry) hcode⟩

theorem gives_of_computes (hlinked : p.Linked code labels) {need cost : Nat} {w : Word}
    (h : Computes p code labels need cost .forMain [] 0 (p.main.code .forMain 0) [w]) :
    code.Gives need (cost + 2) w := by
  constructor
  · intro config hsize hroom hsteps
    obtain ⟨entry, hentry, hlead⟩ := main_leads hlinked h hsize 0
    obtain ⟨m, hreach, hhalt, hw⟩ := hlead.reaches hroom
    obtain ⟨m', hcycle⟩ := cycle_halt hhalt hw
    have hsplit : config.maxSteps = cost + 1 + (config.maxSteps - (cost + 2) + 1) := by omega
    refine ⟨m', run_of_loop hentry ?_, ?_⟩
    · rw [hsplit, hreach.loop_add]
      simp only [loop, hcycle]
    · have hend := cycle_inOrder code (hreach.inOrder (start_inOrder config entry))
      rw [hcycle] at hend
      rw [hend.steps, Nat.zero_add]
  · intro config hsize hsmall
    obtain ⟨entry, hentry, hlead⟩ := main_leads hlinked h hsize 0
    -- with too few cells the stack overflows, unless the steps run out before
    have hlong : ∃ e m', loop code config.maxSteps (start config entry) = .error e m' ∧
        e.Exhausted := by
      by_cases hroom : config.stackSize < need
      · exact (hlead.overflows hroom).loop _
      · obtain ⟨m, hreach, -⟩ := hlead.reaches (Nat.not_lt.mp hroom)
        exact Long.loop (.inr ⟨_, m, Nat.le_refl _, hreach⟩) (by omega)
    obtain ⟨e, m', hloop, he⟩ := hlong
    exact ⟨e, execute_of_loop_error hentry hloop, he⟩

theorem runsOut_of_exhausts (hlinked : p.Linked code labels) {n : Nat}
    (h : Exhausts p code labels n .forMain [] 0 (p.main.code .forMain 0)) {config : Config}
    (hsize : config.stackSize ≤ Word.greatest) (hsteps : config.maxSteps ≤ n) :
    code.RunsOut config := by
  obtain ⟨entry, hentry, hlasts⟩ := main_lasts hlinked h hsize
  obtain ⟨e, m', hloop, he⟩ := hlasts.long.loop hsteps
  exact ⟨e, execute_of_loop_error hentry hloop, he⟩

theorem main_length_le (hlinked : p.Linked code labels) :
    (p.main.code .forMain 0).length ≤ code.size := by
  obtain ⟨entry, -, hplaced⟩ := hlinked.main
  have hfront := (Placed.append.mp hplaced).1
  exact (Placed.cons.mp hfront).2.length_le

theorem main_simulates (hp : p.WellTyped t) (hlinked : p.Linked code labels)
    (hsize : code.size ≤ Word.greatest) (depth : Nat) :
    Simulates p code labels (depth + 1) .forMain [] 0 (p.main.code .forMain 0)
      (p.main.eval p.callees depth []) := by
  have hframe : Frame.forMain.Covers { lifted := p.signatures } := fun x t hx => by cases hx
  exact Expr.eval_simulates hp hlinked hsize depth { lifted := p.signatures } [] p.main t .forMain 0
    rfl .nil hp.main.1 hp.main.2 hframe (Nat.le_trans (main_length_le hlinked) hsize)

/-- In a run of a program, every address that is pushed stays on the stack until the instruction
comes that belongs to it, and every call goes back to its caller. -/
theorem parks_of_reaches (hp : p.WellTyped t) (hlinked : p.Linked code labels)
    (hsize : code.size ≤ Word.greatest) {config : Config} {entry k : Nat} {m : Machine}
    (hconfig : config.stackSize ≤ Word.greatest) (hentry : code.entry? = some entry)
    (hreach : Reaches code k (start config entry) m) (n : Nat) :
    Parks code (p.Called code labels) n m := by
  have huntil : Until code (Confined code (p.Called code labels) (start config entry))
      (fun m => code.get? m.pc = some ⟨.halt, .empty⟩) (k + n) 0 (start config entry) := by
    rcases (main_simulates hp hlinked hsize (k + n)).outcome with ⟨v, -, need, cost, -, hv⟩ | hdeep
    · obtain ⟨entry', hentry', hlead⟩ := main_leads hlinked hv hconfig (k + n)
      obtain rfl : entry' = entry := Option.some.inj (hentry'.symm.trans hentry)
      exact (hlead.stays _ (Nat.le_refl _)).imp (fun _ _ => id) fun _ => And.left
    · obtain ⟨entry', hentry', hlasts⟩ := main_lasts hlinked hdeep hconfig
      obtain rfl : entry' = entry := Option.some.inj (hentry'.symm.trans hentry)
      exact (hlasts.stays _ (Nat.lt_succ_self _)).imp (fun _ _ => id) fun _ => False.elim
  have hstop (m₁ m₂ : Machine) (hm₁ : code.get? m₁.pc = some ⟨.halt, .empty⟩) :
      cycle code m₁ ≠ .ok none m₂ := by
    intro hcycle
    obtain ⟨flow, m₃, pc, hstep, hflow, -⟩ := of_cycle_ok hcycle hm₁
    cases hstep
    cases hflow
  rcases huntil.of_reaches hreach (by omega) hstop with hend | hok
  · exact .of_op rfl hend (by simp)
  · exact (Nat.add_sub_cancel_left k n) ▸ hok.parks

/-- At every depth of calls, evaluation of a well-typed program gives a value of its type, which the
machine gives too, or it is given up, and so is every run of as many steps. -/
theorem evaluate_cases (hp : p.WellTyped t) (hlinked : p.Linked code labels)
    (hsize : code.size ≤ Word.greatest) (depth : Nat) :
    (∃ v, p.evaluate depth = .ok v ∧ v.ty = t ∧
        ∃ need cost, need ≤ (depth + 1) * code.size ∧ code.Gives need cost v.word) ∨
      (p.evaluate depth = .error .tooDeep ∧ ∀ config : Config, config.stackSize ≤ Word.greatest →
        config.maxSteps ≤ depth → code.RunsOut config) := by
  have hmain := main_length_le hlinked
  have hsim := main_simulates hp hlinked hsize depth
  have hsafe := Expr.eval_safe hp.functionsTyped depth { lifted := p.signatures } [] p.main t rfl
    .nil hp.main.1
  have hends := (hsim.and hsafe) 0
  simp only [evaluate, Eval.run]
  rcases hn : p.main.eval p.callees depth [] 0 with ⟨v, n⟩ | ⟨stop | _, n⟩ <;> rw [hn] at hends
  · obtain ⟨⟨-, need, cost, hroom, hv⟩, hty⟩ := hends
    refine .inl ⟨v, rfl, hty, need, _, ?_, gives_of_computes hlinked hv⟩
    have hroom : need + code.size ≤
        (p.main.code .forMain 0).length + (depth + 1) * code.size := hroom
    omega
  · exact hends.elim
  · exact .inr ⟨rfl, fun config hconfig hsteps =>
      runsOut_of_exhausts hlinked hends hconfig (by omega)⟩

end Program

end LetStack
