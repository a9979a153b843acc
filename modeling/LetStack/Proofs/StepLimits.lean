import Mathlib
import LetStack.Proofs.MemoryAccess

namespace LetStack.Machine

def withLimit (m : Machine) (limit : Nat) : Machine :=
  { m with config := { m.config with maxSteps := limit } }

/-- The work does the same under every limit and does not fail for want of steps. It writes behind
what is written already. -/
def Blind {α : Type} (work : Exec α) : Prop :=
  ∀ m, match work m with
    | .ok a m' => (∀ limit, work (m.withLimit limit) = .ok a (m'.withLimit limit)) ∧
        m.output.toList <+: m'.output.toList
    | .error e m' => (∀ limit, work (m.withLimit limit) = .error e (m'.withLimit limit)) ∧
        m.output.toList <+: m'.output.toList ∧ ∀ limit, e ≠ .stepLimit limit

namespace Blind

variable {α β : Type}

theorem pure (a : α) : Blind (Pure.pure a) := fun _ => ⟨fun _ => rfl, List.prefix_rfl⟩

theorem fail {error : Machine → MachineError} (h : ∀ m limit, error (m.withLimit limit) = error m)
    (h' : ∀ m limit, error m ≠ .stepLimit limit) : Blind (fun m => .error (error m) m : Exec α) :=
  fun m => ⟨fun limit => congrArg (EStateM.Result.error · (m.withLimit limit)) (h m limit),
    List.prefix_rfl, h' m⟩

theorem modify {f : Machine → Machine} (h : ∀ m limit, f (m.withLimit limit) = (f m).withLimit limit)
    (h' : ∀ m, m.output.toList <+: (f m).output.toList) : Blind (modify f) :=
  fun m => ⟨fun limit => congrArg (EStateM.Result.ok ()) (h m limit), h' m⟩

theorem bind {work : Exec α} {next : α → Exec β} (h : Blind work) (h' : ∀ a, Blind (next a)) :
    Blind (work >>= next) := by
  intro m
  have hwork := h m
  simp only [Bind.bind, EStateM.bind]
  cases hend : work m with
  | error e m' =>
    rw [hend] at hwork
    obtain ⟨hlimit, houtput, he⟩ := hwork
    exact ⟨fun limit => by simp only [hlimit limit], houtput, he⟩
  | ok a m' =>
    rw [hend] at hwork
    obtain ⟨hlimit, houtput⟩ := hwork
    have hnext := h' a m'
    simp only [hlimit]
    cases hend' : next a m' with
    | error e m'' =>
      rw [hend'] at hnext
      obtain ⟨hlimit', houtput', he⟩ := hnext
      exact ⟨hlimit', houtput.trans houtput', he⟩
    | ok b m'' =>
      rw [hend'] at hnext
      exact ⟨hnext.1, houtput.trans hnext.2⟩

theorem ite {p : Prop} [Decidable p] {work work' : Exec α} (h : Blind work) (h' : Blind work') :
    Blind (if p then work else work') := by
  by_cases hp : p
  · exact if_pos hp ▸ h
  · exact if_neg hp ▸ h'

theorem proceed {work : Exec Unit} (h : Blind work) : Blind (proceed work) :=
  h.bind fun _ => pure _

end Blind

theorem push_blind (w : Word) : Blind (push w) := by
  intro m
  by_cases hfull : m.sp = 0
  · rw [push, if_pos hfull]
    exact ⟨fun limit => if_pos hfull, List.prefix_rfl, by simp⟩
  · rw [push, if_neg hfull]
    exact ⟨fun limit => if_neg hfull, List.prefix_rfl⟩

theorem peek_blind : Blind peek := by
  intro m
  cases hw : m.memory[m.sp]? with
  | none =>
    have hpeek (limit : Nat) :
        peek (m.withLimit limit) = .error (.stackUnderflow m.pc) (m.withLimit limit) := by
      simp only [peek, withLimit, hw]
    simp only [peek, hw]
    exact ⟨hpeek, List.prefix_rfl, by simp⟩
  | some w =>
    have hpeek (limit : Nat) : peek (m.withLimit limit) = .ok w (m.withLimit limit) := by
      simp only [peek, withLimit, hw]
    simp only [peek, hw]
    exact ⟨hpeek, List.prefix_rfl⟩

theorem pop_blind : Blind pop :=
  peek_blind.bind fun w => .bind (.modify (fun _ _ => rfl) fun _ => List.prefix_rfl) fun _ => .pure w

theorem pushZeros_blind (count : Nat) : Blind (pushZeros count) := by
  induction count with
  | zero => exact .pure ()
  | succ count ih => exact (push_blind 0).bind fun _ => ih

theorem drop_blind (count : Nat) : Blind (drop count) := by
  intro m
  by_cases hmany : m.sp + count > m.config.stackSize
  · rw [drop, if_pos hmany]
    exact ⟨fun limit => if_pos hmany, List.prefix_rfl, by simp⟩
  · rw [drop, if_neg hmany]
    exact ⟨fun limit => if_neg hmany, List.prefix_rfl⟩

theorem binary_blind (f : Word → Word → Word) : Blind (binary f) :=
  pop_blind.bind fun _ => pop_blind.bind fun _ => push_blind _

theorem malformed_blind {α : Type} : Blind (malformed : Exec α) := .fail (fun _ _ => rfl) (by simp)

theorem intOperand_blind (i : Instruction) : Blind (intOperand i) := by
  unfold intOperand
  cases i.int? with
  | none => exact malformed_blind
  | some w => exact .pure w

theorem countOperand_blind (i : Instruction) : Blind (countOperand i) :=
  (intOperand_blind i).bind fun _ => .ite malformed_blind (.pure _)

theorem checkAddress_blind (address : Int) : Blind (checkAddress address) := by
  intro m
  by_cases hin : 0 ≤ address ∧ address < m.config.stackSize
  · rw [checkAddress, if_pos hin]
    exact ⟨fun limit => if_pos hin, List.prefix_rfl⟩
  · rw [checkAddress, if_neg hin]
    exact ⟨fun limit => if_neg hin, List.prefix_rfl, by simp⟩

theorem checkFrame_blind (saved : Word) : Blind (checkFrame saved) := by
  intro m
  by_cases hin : 0 ≤ saved.toInt ∧ saved.toInt ≤ m.config.stackSize
  · rw [checkFrame, if_pos hin]
    exact ⟨fun limit => if_pos hin, List.prefix_rfl⟩
  · rw [checkFrame, if_neg hin]
    exact ⟨fun limit => if_neg hin, List.prefix_rfl, by simp⟩

theorem frameAddress_blind (i : Instruction) : Blind (frameAddress i) :=
  (intOperand_blind i).bind fun offset m => checkAddress_blind (m.fp + offset.toInt) m

theorem load_blind (address : Nat) : Blind (load address) := fun _ => ⟨fun _ => rfl, List.prefix_rfl⟩

theorem store_blind (address : Nat) (w : Word) : Blind (store address w) :=
  fun _ => ⟨fun _ => rfl, List.prefix_rfl⟩

theorem target_blind (i : Instruction) : Blind (target i) := by
  unfold target
  cases i.operand with
  | address a => exact .pure a
  | label name => exact .fail (fun _ _ => rfl) (by simp)
  | _ => exact malformed_blind

theorem write_blind (w : Word) : Blind (write w) := .modify (fun _ _ => rfl) fun m => by simp

theorem link_blind : Blind link :=
  .bind (fun m => push_blind (.ofAddress m.fp) m) fun _ => .modify (fun _ _ => rfl) fun _ =>
    List.prefix_rfl

theorem unlink_blind : Blind unlink := by
  refine .bind (.modify (fun _ _ => rfl) fun _ => List.prefix_rfl) fun _ =>
    pop_blind.bind fun saved => ?_
  exact (checkFrame_blind saved).bind fun fp => .modify (fun _ _ => rfl) fun _ => List.prefix_rfl

theorem pushReturn_blind : Blind pushReturn := fun m => push_blind (.ofAddress (m.pc + 1)) m

theorem popReturn_blind : Blind popReturn :=
  pop_blind.bind fun _ => .ite (.fail (fun _ _ => rfl) (by simp)) (.pure _)

theorem step_blind (i : Instruction) : Blind (step i) := by
  rcases i with ⟨op, operand⟩
  cases op with
  | pushInt | pushBool => exact .proceed ((intOperand_blind _).bind fun w => push_blind w)
  | lval => exact .proceed ((frameAddress_blind _).bind fun _ => push_blind _)
  | rvalInt | rvalBool =>
    refine .proceed ((frameAddress_blind _).bind fun address => ?_)
    exact (load_blind address).bind fun w => push_blind w
  | assInt | assBool =>
    refine .proceed (pop_blind.bind fun w => pop_blind.bind fun cell => ?_)
    exact (checkAddress_blind cell.toInt).bind fun address => store_blind address w
  | add | sub | eqInt | eqBool | ltInt => exact .proceed (binary_blind _)
  | decl => exact .proceed ((countOperand_blind _).bind fun count => pushZeros_blind count)
  | pop => exact .proceed ((countOperand_blind _).bind fun count => drop_blind count)
  | brf => exact (target_blind _).bind fun _ => pop_blind.bind fun _ => .pure _
  | bra => exact (target_blind _).bind fun _ => .pure _
  | writeInt => exact .proceed (pop_blind.bind fun w => write_blind w)
  | link => exact .proceed link_blind
  | unlink => exact .proceed unlink_blind
  | bsr => exact (target_blind _).bind fun _ => pushReturn_blind.bind fun _ => .pure _
  | rts => exact popReturn_blind.bind fun _ => .pure _
  | halt | label => exact .pure _

theorem cycle_blind (code : Module) : Blind (cycle code) := by
  intro m
  cases hi : code.get? m.pc with
  | none =>
    rw [cycle_outside hi]
    have hlimit (limit : Nat) := cycle_outside (show code.get? (m.withLimit limit).pc = none from hi)
    exact ⟨hlimit, List.prefix_rfl, by simp⟩
  | some i =>
    rw [cycle_at hi]
    have hcycle (limit : Nat) : cycle code (m.withLimit limit) =
        settle (step i (withLimit { m with steps := m.steps + 1 } limit)) := cycle_at hi
    simp only [hcycle]
    have hwork := step_blind i { m with steps := m.steps + 1 }
    cases hstep : step i { m with steps := m.steps + 1 } with
    | error e m' =>
      rw [hstep] at hwork
      obtain ⟨hlimit, hrest⟩ := hwork
      exact ⟨fun limit => by rw [hlimit]; rfl, hrest⟩
    | ok flow m' =>
      rw [hstep] at hwork
      obtain ⟨hlimit, houtput⟩ := hwork
      cases flow with
      | next | jump => exact ⟨fun limit => by rw [hlimit]; rfl, houtput⟩
      | halt =>
        -- Halting reads the top of the stack, which can fail once more.
        have htop := peek_blind m'
        simp only [settle, hlimit]
        cases hpeek : peek m' with
        | error e m'' =>
          rw [hpeek] at htop
          obtain ⟨hlimit', houtput', he⟩ := htop
          exact ⟨fun limit => by rw [hlimit'], houtput.trans houtput', he⟩
        | ok w m'' =>
          rw [hpeek] at htop
          exact ⟨fun limit => by rw [htop.1], houtput.trans htop.2⟩

section

variable {code : Module} {n : Nat} {m m' : Machine}

theorem Reaches.withLimit (h : Reaches code n m m') (limit : Nat) :
    Reaches code n (m.withLimit limit) (m'.withLimit limit) := by
  induction h with
  | refl m => exact .refl _
  | @cons _ m m₁ _ hfirst _ ih =>
    have hblind := cycle_blind code m
    rw [hfirst] at hblind
    exact .cons (hblind.1 limit) ih

theorem Reaches.output (h : Reaches code n m m') : m.output.toList <+: m'.output.toList := by
  induction h with
  | refl m => exact List.prefix_rfl
  | @cons _ m m₁ _ hfirst _ ih =>
    have hblind := cycle_blind code m
    rw [hfirst] at hblind
    exact hblind.2.trans ih

def ending : EStateM.Result MachineError Machine (Option Word) →
    Option (EStateM.Result MachineError Machine Word)
  | .ok (some w) m => some (.ok w m)
  | .ok none _ => none
  | .error e m => some (.error e m)

theorem loop_of_ending {r : EStateM.Result MachineError Machine Word}
    (h : ending (cycle code m) = some r) (n : Nat) : loop code (n + 1) m = r := by
  simp only [loop]
  cases hcycle : cycle code m with
  | error e m' =>
    rw [hcycle] at h
    exact Option.some.inj h
  | ok result m' =>
    rw [hcycle] at h
    cases result with
    | some w => exact Option.some.inj h
    | none => cases h

/-- A loop is cut off at its limit, or it comes to its end before. -/
theorem loop_cases (code : Module) (n : Nat) (m : Machine) :
    (∃ m', Reaches code n m m' ∧ loop code n m = .error (.stepLimit m'.config.maxSteps) m') ∨
      ∃ k m', k < n ∧ Reaches code k m m' ∧ ending (cycle code m') = some (loop code n m) := by
  induction n generalizing m with
  | zero => exact .inl ⟨m, .refl m, rfl⟩
  | succ n ih =>
    cases hcycle : cycle code m with
    | error e m₁ =>
      refine .inr ⟨0, m, Nat.zero_lt_succ n, .refl m, ?_⟩
      simp only [loop, hcycle, ending]
    | ok result m₁ =>
      cases result with
      | some w =>
        refine .inr ⟨0, m, Nat.zero_lt_succ n, .refl m, ?_⟩
        simp only [loop, hcycle, ending]
      | none =>
        have hloop : loop code (n + 1) m = loop code n m₁ := by simp only [loop, hcycle]
        rw [hloop]
        rcases ih m₁ with ⟨m', hreach, hcut⟩ | ⟨k, m', hk, hreach, hend⟩
        · exact .inl ⟨m', .cons hcycle hreach, hcut⟩
        · exact .inr ⟨k + 1, m', Nat.succ_lt_succ hk, .cons hcycle hreach, hend⟩

/-- The end of a run is no matter of the limit. -/
theorem ending_blind {r : EStateM.Result MachineError Machine Word}
    (h : ending (cycle code m) = some r) :
    (∀ limit, (conclude r).1 ≠ .error (.stepLimit limit)) ∧
      m.output.toList <+: (conclude r).2.output.toList ∧
      ∀ limit, ∃ r', ending (cycle code (m.withLimit limit)) = some r' ∧
        conclude r' = ((conclude r).1, (conclude r).2.withLimit limit) := by
  have hblind := cycle_blind code m
  cases hcycle : cycle code m with
  | error e m' =>
    rw [hcycle] at h hblind
    obtain ⟨hlimit, houtput, he⟩ := hblind
    obtain rfl := Option.some.inj h
    refine ⟨fun limit => ?_, houtput, fun limit => ⟨_, by rw [hlimit]; rfl, rfl⟩⟩
    simpa [conclude] using he limit
  | ok result m' =>
    rw [hcycle] at h hblind
    cases result with
    | none => cases h
    | some w =>
      obtain ⟨hlimit, houtput⟩ := hblind
      obtain rfl := Option.some.inj h
      exact ⟨by simp [conclude], houtput, fun limit => ⟨_, by rw [hlimit]; rfl, rfl⟩⟩

theorem loop_output (code : Module) (n : Nat) (m : Machine) :
    m.output.toList <+: (conclude (loop code n m)).2.output.toList := by
  rcases loop_cases code n m with ⟨m', hreach, hcut⟩ | ⟨k, m', -, hreach, hend⟩
  · rw [hcut]
    exact hreach.output
  · exact hreach.output.trans (ending_blind hend).2.1

/-- Under a greater limit a loop goes on where it was cut off, or it ends as before. -/
theorem loop_cut_off (code : Module) {n n' : Nat} (h : n ≤ n') (m : Machine) (limit : Nat) :
    (∃ m', Reaches code n m m' ∧ loop code n m = .error (.stepLimit m'.config.maxSteps) m' ∧
      m'.output.toList <+: (conclude (loop code n' (m.withLimit limit))).2.output.toList) ∨
    (∀ l, (conclude (loop code n m)).1 ≠ .error (.stepLimit l)) ∧
      conclude (loop code n' (m.withLimit limit)) =
        ((conclude (loop code n m)).1, (conclude (loop code n m)).2.withLimit limit) := by
  rcases loop_cases code n m with ⟨m', hreach, hcut⟩ | ⟨k, m', hk, hreach, hend⟩
  · refine .inl ⟨m', hreach, hcut, ?_⟩
    have hgoes := (hreach.withLimit limit).loop_add (n' - n)
    rw [Nat.add_sub_of_le h] at hgoes
    rw [hgoes]
    exact loop_output code _ (m'.withLimit limit)
  · obtain ⟨hne, -, hlimit⟩ := ending_blind hend
    obtain ⟨r, hr, hsame⟩ := hlimit limit
    -- the longer loop has at least one cycle left where the other makes its last
    have hgoes := (hreach.withLimit limit).loop_add (n' - (k + 1) + 1)
    have hsplit : k + (n' - (k + 1) + 1) = n' := by omega
    rw [hsplit, loop_of_ending hr] at hgoes
    exact .inr ⟨hne, by rw [hgoes, hsame]⟩

end

/-- The limit of steps only cuts a run off. Under a greater limit a run that has come to its end
does the same, and one that was cut off, after as many steps as it was allowed, goes on with its
output. What a machine has run before makes no difference. -/
theorem run_cut_off_by_limit (code : Module) (stackSize : Nat) {limit limit' : Nat}
    (h : limit ≤ limit') :
    let short := (new ⟨stackSize, limit⟩).run code
    let long := (new ⟨stackSize, limit'⟩).run code
    ((∀ l, short.1 ≠ .error (.stepLimit l)) →
      long.1 = short.1 ∧ long.2.steps = short.2.steps ∧ long.2.output = short.2.output) ∧
    (∀ l, short.1 = .error (.stepLimit l) →
      l = limit ∧ short.2.steps = limit ∧ short.2.output.toList <+: long.2.output.toList) ∧
    ∀ history, (afterRuns ⟨stackSize, limit⟩ history).run code = short := by
  intro short long
  refine and_assoc.mp ⟨?_, fun history => run_afterRuns _ history code⟩
  cases hentry : code.entry? with
  | none =>
    have hrun (c : Config) : (new c).run code = (.error .missingEntryPoint, new c) := by
      simp only [run, hentry, reset_eq (new_inOrder c)]
    simp only [short, long, hrun]
    exact ⟨fun _ => ⟨trivial, rfl, rfl⟩, by simp⟩
  | some pc =>
    have hshort : short = conclude (loop code limit (start ⟨stackSize, limit⟩ pc)) :=
      run_of_entry hentry _
    have hlong : long = conclude
        (loop code limit' ((start ⟨stackSize, limit⟩ pc).withLimit limit')) :=
      run_of_entry hentry _
    -- Either the short run spends its whole limit, or it ends in time and the long one with it.
    rcases loop_cut_off code h (start ⟨stackSize, limit⟩ pc) limit' with
      ⟨m, hreach, hcut, houtput⟩ | ⟨hne, hsame⟩
    · have hm := hreach.inOrder (start_inOrder ⟨stackSize, limit⟩ pc)
      rw [Nat.zero_add] at hm
      rw [hcut, hm.config] at hshort
      rw [← hlong] at houtput
      rw [hshort]
      refine ⟨fun hne => absurd rfl (hne limit), fun l hl => ?_⟩
      cases hl
      exact ⟨rfl, hm.steps, houtput⟩
    · rw [← hshort] at hne hsame
      rw [← hlong] at hsame
      rw [hsame]
      exact ⟨fun _ => ⟨rfl, rfl, rfl⟩, fun l hl => absurd hl (hne l)⟩

def endlessOutput : Module :=
  ⟨#[⟨.label, .label "main"⟩, ⟨.pushInt, .int 5⟩, ⟨.writeInt, .empty⟩, ⟨.bra, .address 0⟩]⟩

/-- One module writes until it is cut off; the other ends with the last step that it may make. -/
theorem run_cut_off_by_limit_endlessOutput :
    ((new ⟨4, 7⟩).run endlessOutput).1 = .error (.stepLimit 7) ∧
      ((new ⟨4, 7⟩).run endlessOutput).2.steps = 7 ∧
      ((new ⟨4, 7⟩).run endlessOutput).2.output.toList = [5, 5] ∧
      [5, 5] <+: ((new ⟨4, 12⟩).run endlessOutput).2.output.toList ∧
      (afterRuns ⟨4, 7⟩ [endlessOutput, forgedFrame]).run endlessOutput =
        (new ⟨4, 7⟩).run endlessOutput ∧
      ((new ⟨4, 6⟩).run forgedFrame).1 = .error (.invalidAddress 100 5) ∧
      ((new ⟨4, 12⟩).run forgedFrame).1 = .error (.invalidAddress 100 5) ∧
      ((new ⟨4, 12⟩).run forgedFrame).2.steps = ((new ⟨4, 6⟩).run forgedFrame).2.steps := by
  have hcut : ((new ⟨4, 7⟩).run endlessOutput).1 = .error (.stepLimit 7) := by cbv
  have houtput : ((new ⟨4, 7⟩).run endlessOutput).2.output.toList = [5, 5] := by cbv
  have hends : ((new ⟨4, 6⟩).run forgedFrame).1 = .error (.invalidAddress 100 5) := by cbv
  obtain ⟨-, hshort, hhistory⟩ := run_cut_off_by_limit endlessOutput 4 (by decide : 7 ≤ 12)
  obtain ⟨-, hsteps, hprefix⟩ := hshort 7 hcut
  obtain ⟨hlong, -⟩ := run_cut_off_by_limit forgedFrame 4 (by decide : 6 ≤ 12)
  obtain ⟨hresult, hsame, -⟩ := hlong (by simp [hends])
  exact ⟨hcut, hsteps, houtput, houtput ▸ hprefix, hhistory _, hends, hresult.trans hends, hsame⟩

end LetStack.Machine
