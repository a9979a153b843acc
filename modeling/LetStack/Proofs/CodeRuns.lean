import LetStack.Proofs.Steps

namespace LetStack

namespace Instruction

def pops (i : Instruction) : Nat :=
  match i.op with
  | .assInt | .assBool | .add | .sub | .eqInt | .eqBool | .ltInt => 2
  | .brf | .writeInt | .rts => 1
  | .pop => ((i.int?.map Int32.toInt).getD 0).toNat
  | _ => 0

@[simp] theorem pops_store (t : Ty) : (store t).pops = 2 := by cases t <;> rfl

@[simp] theorem pops_operator (op : BinOp) (t : Ty) : (op.instruction t).pops = 2 := by
  cases op <;> cases t <;> rfl

theorem pops_load (slot : Slot) : (load slot).pops = 0 := by
  rcases slot with ⟨offset, _ | _⟩ <;> rfl

theorem pops_pop {n : Nat} (h : n ≤ Word.greatest) : (pop n).pops = n := by
  unfold Word.greatest at h
  have hint : (Int32.ofInt n).toInt = n := Int32.toInt_ofInt_of_le (by omega) (by omega)
  simp [pops, pop, int?, hint]

/-- Neither pushes an address nor belongs to one that is on the stack, other than an assignment. -/
def Loose (i : Instruction) : Prop := i.op ∉ [.lval, .link, .unlink, .bsr, .rts]

instance (i : Instruction) : Decidable i.Loose := inferInstanceAs (Decidable (i.op ∉ _))

theorem loose_store (t : Ty) : (store t).Loose := by cases t <;> simp [Loose, store]

theorem loose_load (slot : Slot) : (load slot).Loose := by
  rcases slot with ⟨offset, _ | _⟩ <;> simp [Loose, load]

theorem loose_operator (op : BinOp) (t : Ty) : (op.instruction t).Loose := by
  cases op <;> cases t <;> simp [Loose, BinOp.instruction]

end Instruction

namespace Machine

def op? (code : Module) (m : Machine) : Option OpCode := (code.get? m.pc).map Instruction.op

/-- The next instruction takes the words of the cells in front of this one. The end of a frame takes
all that lies above the frame, and the word at its start. -/
def popsTo (code : Module) (m : Machine) : Nat :=
  match code.get? m.pc with
  | none => m.sp
  | some i => if i.op = .unlink then m.fp + 1 else m.sp + i.pops

def callsAfter (code : Module) (m : Machine) (d : Nat) : Nat :=
  match m.op? code with
  | some .bsr => d + 1
  | some .rts => d - 1
  | _ => d

/-- Every run from `m` of up to `n` steps, with `d` calls open at `m`, stays within `ok`, which may
depend on the steps that are left, and returns from these calls only, until it has returned from all
of them and comes to a state with the property. -/
inductive Until (code : Module) (ok : Nat → Machine → Prop) (post : Machine → Prop) :
    Nat → Nat → Machine → Prop
  | done {n : Nat} {m : Machine} (hpost : post m) : Until code ok post n 0 m
  | step {n d : Nat} {m : Machine} (hok : ok n m) (hrts : d = 0 → m.op? code ≠ some .rts)
      (hnext : ∀ k < n, ∀ m₁, cycle code m = .ok none m₁ →
        Until code ok post k (m.callsAfter code d) m₁) : Until code ok post n d m

structure Still (code : Module) (base m : Machine) : Prop where
  popsTo : m.popsTo code ≤ base.sp
  memory : ∀ a, base.sp ≤ a → m.memory[a]? = base.memory[a]?

structure Assigning (code : Module) (base m : Machine) : Prop where
  op : m.op? code = some .assInt ∨ m.op? code = some .assBool
  sp : m.sp + 1 = base.sp
  cell : m.memory[base.sp]? = base.memory[base.sp]?

structure Unlinking (code : Module) (base m : Machine) : Prop where
  op : m.op? code = some .unlink
  fp : m.fp = base.sp
  cell : m.memory[base.sp]? = base.memory[base.sp]?

structure Returning (code : Module) (back : Machine → Prop) (m : Machine) : Prop where
  op : m.op? code = some .rts
  back : ∃ m₁, cycle code m = .ok none m₁ ∧ back m₁

/-- An address that is pushed here stays on the stack, in runs of up to `n` more steps, until the
instruction comes that belongs to it, and a call that is made here goes `back` to its caller. -/
structure Parks (code : Module) (back : Machine → Machine → Prop) (n : Nat) (m : Machine) :
    Prop where
  lval : m.op? code = some .lval → ∀ m₁, cycle code m = .ok none m₁ → ∀ k < n,
    Until code (fun _ => Still code m₁) (Assigning code m₁) k 0 m₁
  link : m.op? code = some .link → ∀ m₁, cycle code m = .ok none m₁ → ∀ k < n,
    Until code (fun _ => Still code m₁) (Unlinking code m₁) k 0 m₁
  bsr : m.op? code = some .bsr → ∀ m₁, cycle code m = .ok none m₁ → ∀ k < n,
    Until code (fun _ _ => True) (Returning code (back m)) k 0 m₁

structure Confined (code : Module) (back : Machine → Machine → Prop) (base : Machine) (n : Nat)
    (m : Machine) : Prop where
  still : Still code base m
  parks : Parks code back n m

section

variable {code : Module} {ok ok' : Nat → Machine → Prop} {post post' mid : Machine → Prop}
  {n d : Nat} {m m' : Machine}

namespace Until

theorem bind {c : Nat} (h : Until code ok mid n d m)
    (hrest : ∀ k ≤ n, ∀ m₁, mid m₁ → Until code ok post k c m₁) :
    Until code ok post n (d + c) m := by
  induction h with
  | done hmid =>
    rw [Nat.zero_add]
    exact hrest _ (Nat.le_refl _) _ hmid
  | @step n d m hok hrts _ ih =>
    have hcalls : m.callsAfter code (d + c) = m.callsAfter code d + c := by
      unfold callsAfter
      split
      · omega
      next hop =>
        have hd : d ≠ 0 := fun hd => hrts hd hop
        omega
      · rfl
    refine .step hok (fun hd => hrts (by omega)) fun k hk m₁ hcycle => ?_
    rw [hcalls]
    exact ih k hk m₁ hcycle fun j hj => hrest j (by omega)

theorem imp (h : Until code ok post n d m) (hok : ∀ k m', ok k m' → ok' k m')
    (hpost : ∀ m', post m' → post' m') : Until code ok' post' n d m := by
  induction h with
  | done h => exact .done (hpost _ h)
  | step h hrts _ ih => exact .step (hok _ _ h) hrts ih

/-- A run that does not stop at the property is in a good state, or has come to the property. -/
theorem of_reaches {k : Nat} (h : Until code ok post n d m) (hreach : Reaches code k m m')
    (hk : k ≤ n) (hpost : ∀ m₁ m₂, post m₁ → cycle code m₁ ≠ .ok none m₂) :
    post m' ∨ ok (n - k) m' := by
  induction hreach generalizing n d with
  | refl =>
    cases h with
    | done h => exact .inl h
    | step hok => exact .inr hok
  | @cons k _ _ _ hfirst _ ih =>
    cases h with
    | done h => exact absurd hfirst (hpost _ _ h)
    | step _ _ hnext =>
      have hlt := ih (hnext (n - 1) (by omega) _ hfirst) (by omega)
      rwa [Nat.sub_sub, Nat.add_comm 1] at hlt

end Until

variable {back : Machine → Machine → Prop} {base m₁ : Machine} {ws : List Word} {fp pc : Nat}
  {i : Instruction}

theorem op?_eq (hm : m.pc = pc) (hi : code.get? pc = some i) : m.op? code = some i.op := by
  simp [op?, hm, hi]

namespace Still

theorem of_above (hm : Above base ws fp pc m) (hi : code.get? pc = some i) (hop : i.op ≠ .unlink)
    (hpops : i.pops ≤ ws.length) : Still code base m := by
  have hsp := hm.sp
  refine ⟨?_, hm.below⟩
  simp only [Machine.popsTo, hm.pc, hi, if_neg hop]
  omega

/-- What leaves a larger stack alone leaves a smaller one alone. -/
theorem below (h : Still code m₁ m) (hm₁ : Above base ws fp pc m₁) : Still code base m := by
  have hsp := hm₁.sp
  refine ⟨Nat.le_trans h.popsTo (by omega), fun a ha => ?_⟩
  rw [h.memory a (by omega), hm₁.below a ha]

end Still

theorem Assigning.of_above {v : Word} {t : Ty} (hm : Above base [v] fp pc m)
    (hi : code.get? pc = some (.store t)) : Assigning code base m := by
  refine ⟨?_, hm.sp, hm.below _ (Nat.le_refl _)⟩
  rw [op?_eq hm.pc hi]
  cases t
  · exact .inl rfl
  · exact .inr rfl

/-- At the end of a frame its first cell holds what it held at the start. -/
theorem Unlinking.of_above {linked : Machine} {w : Word} {ws' : List Word} {pc' : Nat}
    (hlinked : Above base (w :: ws) fp pc linked) (hfp : fp = linked.sp)
    (hm : Above base (w :: ws') fp pc' m) (hlen : ws'.length = ws.length)
    (hi : code.get? pc' = some ⟨.unlink, .empty⟩) : Unlinking code linked m := by
  have hsp := hlinked.sp
  have hsp' := hm.sp
  simp only [List.length_cons] at hsp hsp'
  have htop : linked.sp = m.sp + 0 := by omega
  refine ⟨op?_eq hm.pc hi, hm.fp.trans hfp, ?_⟩
  exact (htop ▸ hm.top 0 w rfl).trans (hlinked.top 0 w rfl).symm

theorem Parks.of_op (hm : m.pc = pc) (hi : code.get? pc = some i)
    (hop : i.op ∉ [.lval, .link, .bsr]) : Parks code back n m := by
  simp only [List.mem_cons, List.not_mem_nil, or_false, not_or] at hop
  have hm := op?_eq hm hi
  exact ⟨fun h => absurd (Option.some.inj (hm.symm.trans h)) hop.1,
    fun h => absurd (Option.some.inj (hm.symm.trans h)) hop.2.1,
    fun h => absurd (Option.some.inj (hm.symm.trans h)) hop.2.2⟩

namespace Confined

theorem below (h : Confined code back m₁ n m) (hm₁ : Above base ws fp pc m₁) :
    Confined code back base n m := ⟨h.still.below hm₁, h.parks⟩

theorem of_above (hm : Above base ws fp pc m) (hi : code.get? pc = some i)
    (hop : i.op ∉ [.lval, .link, .unlink, .bsr]) (hpops : i.pops ≤ ws.length) :
    Confined code back base n m := by
  simp only [List.mem_cons, List.not_mem_nil, or_false, not_or] at hop
  exact ⟨.of_above hm hi hop.2.2.1 hpops, .of_op hm.pc hi (by simp [hop])⟩

end Confined

end

section

variable (code : Module) (back : Machine → Machine → Prop)

/-- If the stack of `base` has `need` cells the machine gets in `cost` steps to a state with the
property, and if it has fewer it overflows. -/
structure Arrives (base : Machine) (need cost : Nat) (m : Machine) (post : Machine → Prop) :
    Prop where
  reaches : need ≤ base.sp → ∃ m', Reaches code cost m m' ∧ post m'
  overflows : base.sp < need → Overflows code m

/-- The machine arrives, and for up to `n` steps every state on its way leaves the stack of `base`
alone and parks what it pushes. -/
structure Leads (n : Nat) (base : Machine) (need cost : Nat) (m : Machine) (post : Machine → Prop) :
    Prop extends Arrives code base need cost m post where
  stays : ∀ k ≤ n, Until code (Confined code back base) post k 0 m

def Long (n : Nat) (m : Machine) : Prop := Overflows code m ∨ ∃ k m', n ≤ k ∧ Reaches code k m m'

structure Lasts (n : Nat) (base m : Machine) : Prop where
  long : Long code n m
  stays : ∀ k < n, Until code (Confined code back base) (fun _ => False) k 0 m

def Runs (n : Nat) (base : Machine) (need cost : Nat) (m : Machine) (ws : List Word) (fp pc : Nat) :
    Prop :=
  Leads code back n base need cost m (Above base ws fp pc)

end

section

variable {code : Module} {back : Machine → Machine → Prop} {n need need' cost cost' : Nat}
  {base m : Machine} {mid post post' : Machine → Prop} {ws ws' : List Word} {fp fp' pc pc' : Nat}
  {i : Instruction}

namespace Arrives

theorem trans (h : Arrives code base need cost m mid)
    (h' : ∀ m', mid m' → Arrives code base need' cost' m' post) :
    Arrives code base (max need need') (cost + cost') m post := by
  constructor
  · intro hroom
    obtain ⟨m₁, hreach, hmid⟩ := h.reaches (by omega)
    obtain ⟨m₂, hreach', hpost⟩ := (h' m₁ hmid).reaches (by omega)
    exact ⟨m₂, hreach.trans hreach', hpost⟩
  · intro hroom
    -- the first piece overflows, or it gets through and the second one does
    by_cases hfirst : base.sp < need
    · exact h.overflows hfirst
    · obtain ⟨m₁, hreach, hmid⟩ := h.reaches (by omega)
      exact ((h' m₁ hmid).overflows (by omega)).after hreach

theorem of_moves {outer : Machine} {taken : Nat} (hm : Above base ws fp pc m)
    (hmove : Moves code base taken ws fp pc ws' fp' pc') (hneed : outer.sp < need ↔ m.sp < taken) :
    Arrives code outer need 1 m (Above base ws' fp' pc') := by
  have hcycle := hmove m hm
  constructor
  · intro hroom
    rw [if_neg (by omega)] at hcycle
    obtain ⟨m₁, hcycle, hm₁⟩ := hcycle
    exact ⟨m₁, .cons hcycle (.refl _), hm₁⟩
  · intro hroom
    rw [if_pos (by omega)] at hcycle
    obtain ⟨m₁, hcycle⟩ := hcycle
    exact ⟨0, m, pc, m₁, .refl _, hcycle⟩

theorem long (h : Arrives code base need cost m mid) (h' : ∀ m', mid m' → Long code n m') :
    Long code (cost + n) m := by
  by_cases hroom : base.sp < need
  · exact .inl (h.overflows hroom)
  · obtain ⟨m₁, hreach, hmid⟩ := h.reaches (by omega)
    rcases h' m₁ hmid with h' | ⟨k, m₂, hk, hreach'⟩
    · exact .inl (h'.after hreach)
    · exact .inr ⟨cost + k, m₂, by omega, hreach.trans hreach'⟩

end Arrives

namespace Leads

theorem refl (h : post m) : Leads code back n base 0 0 m post :=
  ⟨⟨fun _ => ⟨m, .refl m, h⟩, fun h => absurd h (Nat.not_lt_zero _)⟩, fun _ _ => .done h⟩

theorem trans (h : Leads code back n base need cost m mid)
    (h' : ∀ m', mid m' → Leads code back n base need' cost' m' post) :
    Leads code back n base (max need need') (cost + cost') m post :=
  ⟨h.toArrives.trans fun m₁ hm₁ => (h' m₁ hm₁).toArrives,
    fun k hk => (h.stays k hk).bind fun j hj m₁ hm₁ => (h' m₁ hm₁).stays j (by omega)⟩

theorem imp (h : Leads code back n base need cost m post) (hpost : ∀ m', post m' → post' m') :
    Leads code back n base need cost m post' := by
  refine ⟨⟨fun hroom => ?_, h.overflows⟩, fun k hk => (h.stays k hk).imp (fun _ _ => id) hpost⟩
  obtain ⟨m₁, hreach, hm₁⟩ := h.reaches hroom
  exact ⟨m₁, hreach, hpost m₁ hm₁⟩

theorem cast (h : Leads code back n base need cost m post) (hneed : need = need')
    (hcost : cost = cost') : Leads code back n base need' cost' m post := by
  subst hneed hcost
  exact h

/-- What leaves the stack of a later state alone leaves that of an earlier one alone. -/
theorem rebase {m₁ : Machine} (h : Leads code back n m need cost m₁ post)
    (hm : Above base ws fp pc m) : Leads code back n base (need + ws.length) cost m₁ post := by
  have hsp := hm.sp
  refine ⟨⟨fun hroom => h.reaches (by omega), fun hroom => h.overflows (by omega)⟩, fun k hk => ?_⟩
  exact (h.stays k hk).imp (fun _ _ h => h.below hm) fun _ => id

/-- A step that is neither a call nor a return. -/
theorem move {outer : Machine} {taken : Nat} (hm : Above base ws fp pc m)
    (hi : code.get? pc = some i) (hop : i.op ∉ [.bsr, .rts])
    (hmove : Moves code base taken ws fp pc ws' fp' pc') (hneed : outer.sp < need ↔ m.sp < taken)
    (hok : ∀ k ≤ n, Confined code back outer k m) :
    Leads code back n outer need 1 m (Above base ws' fp' pc') := by
  refine ⟨.of_moves hm hmove hneed, fun k hk => ?_⟩
  simp only [List.mem_cons, List.not_mem_nil, or_false, not_or] at hop
  have hcalls : m.callsAfter code 0 = 0 := by
    unfold callsAfter
    rw [op?_eq hm.pc hi]
    split
    next h => exact absurd (Option.some.inj h) hop.1
    · rfl
    · rfl
  refine .step (hok k hk) (fun _ => by simp [op?_eq hm.pc hi, hop.2]) fun j _ m₁ hcycle => ?_
  rw [hcalls]
  exact .done (hmove.above hm hcycle)

theorem loose {taken : Nat} (hm : Above base ws fp pc m) (hi : code.get? pc = some i)
    (hloose : i.Loose) (hpops : i.pops ≤ ws.length)
    (hmove : Moves code base taken ws fp pc ws' fp' pc') (hneed : base.sp < need ↔ m.sp < taken) :
    Leads code back n base need 1 m (Above base ws' fp' pc') := by
  simp only [Instruction.Loose, List.mem_cons, List.not_mem_nil, or_false, not_or] at hloose
  exact .move hm hi (by simp [hloose]) hmove hneed
    fun _ _ => .of_above hm hi (by simp [hloose]) hpops

end Leads

namespace Lasts

theorem zero (base m : Machine) : Lasts code back 0 base m :=
  ⟨.inr ⟨0, m, Nat.le_refl 0, .refl m⟩, fun k hk => absurd hk (Nat.not_lt_zero k)⟩

theorem after (h : Leads code back n base need cost m mid)
    (h' : ∀ m', mid m' → Lasts code back n base m') : Lasts code back n base m := by
  refine ⟨?_, fun k hk => (h.stays k (by omega)).bind fun j hj m₁ hm₁ =>
    (h' m₁ hm₁).stays j (by omega)⟩
  refine (h.toArrives.long fun m₁ hm₁ => (h' m₁ hm₁).long).imp_right ?_
  rintro ⟨k, m₁, hk, hreach⟩
  exact ⟨k, m₁, by omega, hreach⟩

theorem rebase {m₁ : Machine} (h : Lasts code back n m m₁) (hm : Above base ws fp pc m) :
    Lasts code back n base m₁ :=
  ⟨h.long, fun k hk => (h.stays k hk).imp (fun _ _ h => h.below hm) fun _ => id⟩

end Lasts

section

variable {offset : Int} {a j len : Nat} {v : Word} {t : Ty}

/-- The address that is pushed stays until it is assigned to. -/
theorem Leads.lval (hm : Above base ws fp pc m) (hi : code.get? pc = some (.lval offset))
    (hfp : fp ≤ base.config.stackSize) (ha : (fp : Int) + offset = a)
    (hlt : a < base.config.stackSize)
    (hpark : ∀ k < n, ∀ m₁, Above m [.ofAddress a] fp (pc + 1) m₁ →
      Until code (fun _ => Still code m₁) (Assigning code m₁) k 0 m₁) :
    Leads code back n m 1 1 m (Above m [.ofAddress a] fp (pc + 1)) := by
  obtain rfl := hm.fp
  obtain rfl := hm.pc
  rw [← hm.config] at hfp hlt
  have hself : Above m [] m.fp m.pc m := .refl hm.fits'
  have hmove : Moves code m 1 [] m.fp m.pc [.ofAddress a] m.fp (m.pc + 1) :=
    .lval hi hfp fun _ => ⟨ha, hlt⟩
  have hop : m.op? code = some .lval := op?_eq rfl hi
  refine .move hself hi (by simp [Instruction.lval]) hmove Iff.rfl fun k hk => ?_
  refine ⟨.of_above hself hi (by simp [Instruction.lval]) (Nat.zero_le _), ?_, ?_, ?_⟩
  · exact fun _ m₁ hcycle j hj => hpark j (by omega) m₁ (hmove.above hself hcycle)
  · exact fun h => absurd (hop.symm.trans h) (by decide)
  · exact fun h => absurd (hop.symm.trans h) (by decide)

/-- An address, the code of a value, and the assignment of the one to the other. The stack below the
address is left alone until the value is assigned. -/
theorem Leads.assign (hm : Above base ws fp pc m) (hlval : code.get? pc = some (.lval offset))
    (hfp : fp ≤ base.config.stackSize) (ha : (fp : Int) + offset = a)
    (hcell : a + ws.length = base.sp + j) (hj : j < ws.length)
    (hvalue : ∀ m₁, Above m [.ofAddress a] fp (pc + 1) m₁ →
      Runs code back n m₁ need cost m₁ [v] m₁.fp (m₁.pc + len))
    (hstore : code.get? (pc + 1 + len) = some (.store t)) :
    Leads code back n m (need + 1) (cost + 2) m
      (Above base (ws.set j v) fp (pc + 1 + len + 1)) := by
  have hfits := hm.fits.sp
  have hopen : Leads code back n m 1 1 m (Above m [.ofAddress a] fp (pc + 1)) := by
    refine .lval hm hlval hfp ha (by omega) fun k hk m₁ hm₁ => ?_
    exact ((hvalue m₁ hm₁).stays k (by omega)).imp (fun _ _ h => h.still) fun _ hm₂ =>
      .of_above hm₂ (hm₁.pc ▸ hstore)
  have hinner (m₁ : Machine) (hm₁ : Above m [.ofAddress a] fp (pc + 1) m₁) :
      Leads code back n m (need + 1) cost m₁ (Above m [v, .ofAddress a] fp (pc + 1 + len)) := by
    refine ((hvalue m₁ hm₁).rebase hm₁).imp fun m₂ hm₂ => ?_
    rw [hm₁.fp, hm₁.pc] at hm₂
    exact hm₁.trans hm₂
  have hclose (m₂ : Machine) (hm₂ : Above m [v, .ofAddress a] fp (pc + 1 + len) m₂) :
      Leads code back n m 0 1 m₂ (Above base (ws.set j v) fp (pc + 1 + len + 1)) := by
    have hloose := Instruction.loose_store t
    simp only [Instruction.Loose, List.mem_cons, List.not_mem_nil, or_false, not_or] at hloose
    refine .move (hm.trans hm₂) hstore (by simp [hloose]) (.store hstore (fun _ => hcell) hj)
      (by simp) fun k _ => ?_
    exact .of_above hm₂ hstore (by simp [hloose]) (by simp)
  exact ((hopen.trans hinner).trans hclose).cast (by simp) (by omega)

theorem Lasts.assign (hm : Above base ws fp pc m) (hlval : code.get? pc = some (.lval offset))
    (hfp : fp ≤ base.config.stackSize) (ha : (fp : Int) + offset = a)
    (hlt : a < base.config.stackSize)
    (hvalue : ∀ m₁, Above m [.ofAddress a] fp (pc + 1) m₁ → Lasts code back n m₁ m₁) :
    Lasts code back n m m := by
  refine .after (.lval hm hlval hfp ha hlt fun k hk m₁ hm₁ => ?_) fun m₁ hm₁ =>
    (hvalue m₁ hm₁).rebase hm₁
  exact ((hvalue m₁ hm₁).stays k (by omega)).imp (fun _ _ h => h.still) fun _ => False.elim

/-- The saved frame pointer stays until the frame ends. -/
theorem Leads.link (hm : Above base ws fp pc m) (hi : code.get? pc = some ⟨.link, .empty⟩)
    (hpark : ∀ k < n, ∀ m₁, Above base (.ofAddress fp :: ws) m₁.sp (pc + 1) m₁ →
      Until code (fun _ => Still code m₁) (Unlinking code m₁) k 0 m₁) :
    Leads code back n base (1 + ws.length) 1 m
      fun m₁ => Above base (.ofAddress fp :: ws) m₁.sp (pc + 1) m₁ := by
  have hsp := hm.sp
  have hself (m₁ : Machine) (hm₁ : Above base (.ofAddress fp :: ws) (base.sp - (ws.length + 1))
      (pc + 1) m₁) : Above base (.ofAddress fp :: ws) m₁.sp (pc + 1) m₁ := by
    have hsp₁ := hm₁.sp
    rw [List.length_cons] at hsp₁
    exact (show base.sp - (ws.length + 1) = m₁.sp by omega) ▸ hm₁
  have hop : m.op? code = some .link := op?_eq hm.pc hi
  refine (Leads.move hm hi (by simp) (.link hi) (by omega) fun k hk => ?_).imp hself
  refine ⟨.of_above hm hi (by simp) (Nat.zero_le _), ?_, ?_, ?_⟩
  · exact fun h => absurd (hop.symm.trans h) (by decide)
  · exact fun _ m₁ hcycle j hj =>
      hpark j (by omega) m₁ (hself m₁ ((Moves.link hi).above hm hcycle))
  · exact fun h => absurd (hop.symm.trans h) (by decide)

/-- A frame from its first cell to its end. -/
theorem Leads.frame (hm : Above base ws fp pc m) (hlink : code.get? pc = some ⟨.link, .empty⟩)
    (hfp : fp ≤ base.config.stackSize) (hlen : ws'.length = ws.length)
    (hbody : ∀ m₁, Above base (.ofAddress fp :: ws) m₁.sp (pc + 1) m₁ →
      Leads code back n m₁ need cost m₁ (Above base (.ofAddress fp :: ws') m₁.sp pc'))
    (hunlink : code.get? pc' = some ⟨.unlink, .empty⟩) :
    Runs code back n base (need + (ws.length + 1)) (cost + 2) m ws' fp (pc' + 1) := by
  have hopen : Leads code back n base (1 + ws.length) 1 m
      fun m₁ => Above base (.ofAddress fp :: ws) m₁.sp (pc + 1) m₁ := by
    refine .link hm hlink fun k hk m₁ hm₁ => ?_
    exact ((hbody m₁ hm₁).stays k (by omega)).imp (fun _ _ h => h.still) fun _ hm₂ =>
      .of_above hm₁ rfl hm₂ hlen hunlink
  have hinner (m₁ : Machine) (hm₁ : Above base (.ofAddress fp :: ws) m₁.sp (pc + 1) m₁) :
      Leads code back n base (need + (ws.length + 1)) cost m₁ fun m₂ =>
        Above base (.ofAddress fp :: ws') m₂.sp pc' m₂ := by
    refine ((hbody m₁ hm₁).rebase hm₁).imp fun m₂ hm₂ => ?_
    have hsp₁ := hm₁.sp
    have hsp₂ := hm₂.sp
    simp only [List.length_cons, hlen] at hsp₁ hsp₂
    exact (show m₁.sp = m₂.sp by omega) ▸ hm₂
  have hclose (m₂ : Machine) (hm₂ : Above base (.ofAddress fp :: ws') m₂.sp pc' m₂) :
      Leads code back n base 0 1 m₂ (Above base ws' fp (pc' + 1)) := by
    have hsp := hm₂.sp
    rw [List.length_cons] at hsp
    have hstill : Still code base m₂ := by
      refine ⟨?_, hm₂.below⟩
      simp only [Machine.popsTo, hm₂.pc, hunlink, if_true, hm₂.fp]
      omega
    exact .move hm₂ hunlink (by simp) (.unlink hunlink (fun _ => by omega) hfp) (by simp)
      fun k _ => ⟨hstill, .of_op hm₂.pc hunlink (by simp)⟩
  exact ((hopen.trans hinner).trans hclose).cast (by omega) (by omega)

theorem Lasts.frame (hm : Above base ws fp pc m) (hlink : code.get? pc = some ⟨.link, .empty⟩)
    (hbody : ∀ m₁, Above base (.ofAddress fp :: ws) m₁.sp (pc + 1) m₁ → Lasts code back n m₁ m₁) :
    Lasts code back n base m := by
  refine .after (.link hm hlink fun k hk m₁ hm₁ => ?_) fun m₁ hm₁ => (hbody m₁ hm₁).rebase hm₁
  exact ((hbody m₁ hm₁).stays k (by omega)).imp (fun _ _ h => h.still) fun _ => False.elim

end

section

variable {target : Nat}

/-- A state before a call, from what the function that is called does. -/
theorem Until.bsr (hm : Above base ws fp pc m)
    (hbsr : code.get? pc = some ⟨.bsr, .address target⟩)
    (hpark : ∀ k < n, ∀ m₁, Above base (.ofAddress (pc + 1) :: ws) fp target m₁ →
      Until code (fun _ _ => True) (Returning code (back m)) k 0 m₁)
    (hrest : ∀ k < n, ∀ m₁, Above base (.ofAddress (pc + 1) :: ws) fp target m₁ →
      Until code (Confined code back base) post k 1 m₁) :
    Until code (Confined code back base) post n 0 m := by
  have hop : m.op? code = some .bsr := op?_eq hm.pc hbsr
  have hnext (m₁ : Machine) (hcycle : cycle code m = .ok none m₁) :=
    (Moves.bsr hbsr).above hm hcycle
  refine .step ⟨.of_above hm hbsr (by simp) (Nat.zero_le _), ?_, ?_, ?_⟩ (fun _ => by simp [hop])
    fun k hk m₁ hcycle => ?_
  · exact fun h => absurd (hop.symm.trans h) (by decide)
  · exact fun h => absurd (hop.symm.trans h) (by decide)
  · exact fun _ m₁ hcycle k hk => hpark k hk m₁ (hnext m₁ hcycle)
  · rw [show m.callsAfter code 0 = 1 by simp [callsAfter, hop]]
    exact hrest k hk m₁ (hnext m₁ hcycle)

/-- A call, if the function that is called gets to its return. -/
theorem Leads.call (hm : Above base ws fp pc m)
    (hbsr : code.get? pc = some ⟨.bsr, .address target⟩) (hret : pc + 1 ≤ Word.greatest)
    (hbody : ∀ m₁, Above base (.ofAddress (pc + 1) :: ws) fp target m₁ →
      Runs code back n base need cost m₁ (.ofAddress (pc + 1) :: ws') fp pc')
    (hrts : code.get? pc' = some ⟨.rts, .empty⟩)
    (hback : ∀ m₃, Above base ws' fp (pc + 1) m₃ → back m m₃) :
    Runs code back n base (max (1 + ws.length) need) (cost + 2) m ws' fp (pc + 1) := by
  have hsp := hm.sp
  have hreturn : Moves code base 0 (.ofAddress (pc + 1) :: ws') fp pc' ws' fp (pc + 1) :=
    .rts hrts hret
  constructor
  · have hcall : Arrives code base (1 + ws.length) 1 m
        (Above base (.ofAddress (pc + 1) :: ws) fp target) := .of_moves hm (.bsr hbsr) (by omega)
    have hend (m₂ : Machine) (hm₂ : Above base (.ofAddress (pc + 1) :: ws') fp pc' m₂) :
        Arrives code base 0 1 m₂ (Above base ws' fp (pc + 1)) := .of_moves hm₂ hreturn (by simp)
    have hall := (hcall.trans fun m₁ hm₁ => (hbody m₁ hm₁).toArrives).trans hend
    simpa [Nat.add_comm, Nat.add_left_comm] using hall
  · intro k hk
    refine .bsr hm hbsr (fun j hj m₁ hm₁ => ?_) fun j hj m₁ hm₁ => ?_
    · refine ((hbody m₁ hm₁).stays j (by omega)).imp (fun _ _ _ => trivial) fun m₂ hm₂ => ?_
      obtain ⟨m₃, hcycle, hm₃⟩ := hreturn.ok hm₂
      exact ⟨op?_eq hm₂.pc hrts, m₃, hcycle, hback m₃ hm₃⟩
    · -- with the call open, the return is that of the function
      refine Nat.zero_add 1 ▸ ((hbody m₁ hm₁).stays j (by omega)).bind fun i _ m₂ hm₂ => ?_
      have hop : m₂.op? code = some .rts := op?_eq hm₂.pc hrts
      refine .step (.of_above hm₂ hrts (by simp) (by simp [Instruction.pops])) (by simp)
        fun _ _ m₃ hcycle => ?_
      rw [show m₂.callsAfter code 1 = 0 by simp [callsAfter, hop]]
      exact .done (hreturn.above hm₂ hcycle)

/-- A call lasts a step longer than the function that is called. -/
theorem Lasts.call (hm : Above base ws fp pc m)
    (hbsr : code.get? pc = some ⟨.bsr, .address target⟩)
    (hbody : ∀ m₁, Above base (.ofAddress (pc + 1) :: ws) fp target m₁ →
      Lasts code back n base m₁) : Lasts code back (n + 1) base m := by
  have hsp := hm.sp
  have hcall : Arrives code base (1 + ws.length) 1 m
      (Above base (.ofAddress (pc + 1) :: ws) fp target) := .of_moves hm (.bsr hbsr) (by omega)
  refine ⟨Nat.add_comm 1 n ▸ hcall.long fun m₁ hm₁ => (hbody m₁ hm₁).long, fun k hk => ?_⟩
  refine .bsr hm hbsr (fun j hj m₁ hm₁ => ?_) fun j hj m₁ hm₁ => ?_
  · exact ((hbody m₁ hm₁).stays j (by omega)).imp (fun _ _ _ => trivial) fun _ => False.elim
  · exact Nat.zero_add 1 ▸ ((hbody m₁ hm₁).stays j (by omega)).bind fun _ _ _ => False.elim

end

namespace Runs

theorem start (h : m.Fits) : Runs code back n m 0 0 m [] m.fp m.pc := Leads.refl (.refl h)

theorem cast (h : Runs code back n base need cost m ws fp pc) (hneed : need = need')
    (hcost : cost = cost') (hws : ws = ws') (hfp : fp = fp') (hpc : pc = pc') :
    Runs code back n base need' cost' m ws' fp' pc' := by
  subst hneed hcost hws hfp hpc
  exact h

/-- Code that starts above `base`, puts further words on top and goes on behind itself. -/
theorem andThen {len : Nat} (h : Runs code back n base need cost m ws fp pc)
    (h' : ∀ m', Above base ws fp pc m' →
      Runs code back n m' need' cost' m' ws' m'.fp (m'.pc + len)) :
    Runs code back n base (max need (need' + ws.length)) (cost + cost') m (ws' ++ ws) fp
      (pc + len) := by
  refine Leads.trans h fun m₁ hm₁ => ((h' m₁ hm₁).rebase hm₁).imp fun m₂ hm₂ => ?_
  rw [hm₁.fp, hm₁.pc] at hm₂
  exact hm₁.trans hm₂

/-- An instruction that takes no new cell. -/
theorem next (h : Runs code back n base need cost m ws fp pc) (hi : code.get? pc = some i)
    (hloose : i.Loose) (hpops : i.pops ≤ ws.length)
    (hmove : Moves code base 0 ws fp pc ws' fp' pc') :
    Runs code back n base need (cost + 1) m ws' fp' pc' := by
  have hstep (m₁ : Machine) (hm₁ : Above base ws fp pc m₁) :
      Leads code back n base 0 1 m₁ (Above base ws' fp' pc') :=
        .loose hm₁ hi hloose hpops hmove (by simp)
  exact (Leads.trans h hstep).cast (Nat.max_zero need) rfl

/-- An instruction that takes a cell. -/
theorem push (h : Runs code back n base need cost m ws fp pc) (hi : code.get? pc = some i)
    (hloose : i.Loose) (hpops : i.pops = 0) (hmove : Moves code base 1 ws fp pc ws' fp' pc') :
    Runs code back n base (max need (1 + ws.length)) (cost + 1) m ws' fp' pc' := by
  refine Leads.trans h fun m₁ hm₁ => ?_
  have hsp := hm₁.sp
  exact .loose hm₁ hi hloose (by omega) hmove (by omega)

theorem pushWord {op : OpCode} {w : Word} (h : Runs code back n base need cost m ws fp pc)
    (hop : op = .pushInt ∨ op = .pushBool) (hi : code.get? pc = some ⟨op, .int w⟩) :
    Runs code back n base (max need (1 + ws.length)) (cost + 1) m (w :: ws) fp (pc + 1) := by
  refine h.push hi ?_ ?_ (.pushWord hop hi) <;> rcases hop with rfl | rfl
  · simp [Instruction.Loose]
  · simp [Instruction.Loose]
  · rfl
  · rfl

theorem decl (h : Runs code back n base need cost m ws fp pc) (hi : code.get? pc = some (.decl 1)) :
    Runs code back n base (max need (1 + ws.length)) (cost + 1) m (0 :: ws) fp (pc + 1) :=
  h.push hi (by decide) rfl (.decl hi)

theorem load {slot : Slot} {a : Nat} {w : Word} (h : Runs code back n base need cost m ws fp pc)
    (hi : code.get? pc = some (.load slot)) (hfp : fp ≤ base.config.stackSize)
    (ha : (fp : Int) + slot.offset = a)
    (hw : ∀ m', Above base ws fp pc m' → m'.memory[a]? = some w) :
    Runs code back n base (max need (1 + ws.length)) (cost + 1) m (w :: ws) fp (pc + 1) :=
  h.push hi (Instruction.loose_load slot) (Instruction.pops_load slot) (.load hi hfp ha hw)

theorem operator {op : BinOp} {a b v : Value}
    (h : Runs code back n base need cost m (b.word :: a.word :: ws) fp pc)
    (hi : code.get? pc = some (op.instruction a.ty)) (hv : op.apply? a b = some v) :
    Runs code back n base need (cost + 1) m (v.word :: ws) fp (pc + 1) :=
  h.next hi (Instruction.loose_operator op a.ty) (by simp) (.operator hi hv)

theorem pop {k : Nat} (h : Runs code back n base need cost m ws fp pc)
    (hi : code.get? pc = some (.pop k)) (hk : k ≤ ws.length) (hbound : k ≤ Word.greatest) :
    Runs code back n base need (cost + 1) m (ws.drop k) fp (pc + 1) :=
  h.next hi (by simp [Instruction.Loose, Instruction.pop]) (by rwa [Instruction.pops_pop hbound])
    (.pop hi hk hbound)

theorem label {name : String} (h : Runs code back n base need cost m ws fp pc)
    (hi : code.get? pc = some ⟨.label, .label name⟩) :
    Runs code back n base need (cost + 1) m ws fp (pc + 1) :=
  h.next hi (by simp [Instruction.Loose]) (Nat.zero_le _) (.label hi)

/-- The code of a value between the address of a cell and the assignment to it. -/
theorem assign {offset : Int} {a j len : Nat} {v : Word} {t : Ty}
    (h : Runs code back n base need cost m ws fp pc) (hlval : code.get? pc = some (.lval offset))
    (hfp : fp ≤ base.config.stackSize)
    (ha : ws.length ≤ base.sp → (fp : Int) + offset = a ∧ a + ws.length = base.sp + j)
    (hj : j < ws.length)
    (hvalue : ∀ m₁, Above base (.ofAddress a :: ws) fp (pc + 1) m₁ →
      Runs code back n m₁ need' cost' m₁ [v] m₁.fp (m₁.pc + len))
    (hstore : code.get? (pc + 1 + len) = some (.store t)) :
    Runs code back n base (max need (need' + 1 + ws.length)) (cost + (cost' + 2)) m (ws.set j v) fp
      (pc + 1 + len + 1) := by
  refine Leads.trans h fun m₁ hm₁ => Leads.rebase ?_ hm₁
  have hsp := hm₁.sp
  obtain ⟨ha, hcell⟩ := ha (by omega)
  exact .assign hm₁ hlval hfp ha hcell hj (fun m₂ hm₂ => hvalue m₂ (hm₁.trans hm₂)) hstore

theorem lasts_assign {offset : Int} {a : Nat} (h : Runs code back n base need cost m ws fp pc)
    (hlval : code.get? pc = some (.lval offset)) (hfp : fp ≤ base.config.stackSize)
    (ha : ws.length ≤ base.sp → (fp : Int) + offset = a ∧ a < base.config.stackSize)
    (hvalue : ∀ m₁, Above base (.ofAddress a :: ws) fp (pc + 1) m₁ → Lasts code back n m₁ m₁) :
    Lasts code back n base m := by
  refine .after h fun m₁ hm₁ => Lasts.rebase ?_ hm₁
  have hsp := hm₁.sp
  obtain ⟨ha, hlt⟩ := ha (by omega)
  exact .assign hm₁ hlval hfp ha hlt fun m₂ hm₂ => hvalue m₂ (hm₁.trans hm₂)

end Runs

end

end Machine

end LetStack
