import LetStack.Proofs.CodeRuns
import LetStack.Proofs.Linking

namespace LetStack

open Machine LetStack.Module

/-- The variables in sight are in their cells, and `depth` cells lie above the frame. -/
structure Holds (frame : Frame) (env : Env) (depth : Nat) (m : Machine) : Prop where
  fits : m.Fits
  depth : m.sp + depth = m.fp
  fp : m.fp ≤ m.config.stackSize
  slots : ∀ x slot, frame.get? x = some slot → ∃ v a, env.value? x = some v ∧
    (m.fp : Int) + slot.offset = (a : Nat) ∧ m.sp ≤ a ∧ m.memory[a]? = some v.word

namespace Holds

variable {frame : Frame} {env : Env} {depth : Nat} {m m' : Machine}

/-- Words on top of the stack leave the variables in their cells. -/
theorem above {ws : List Word} {pc : Nat} (h : Holds frame env depth m)
    (hm : Above m ws m.fp pc m') : Holds frame env (depth + ws.length) m' := by
  have hsp := hm.sp
  have hdepth := h.depth
  refine ⟨hm.fits', by rw [hm.fp]; omega, by rw [hm.fp, hm.config]; exact h.fp, ?_⟩
  intro x slot hslot
  obtain ⟨v, a, hv, ha, hle, hcell⟩ := h.slots x slot hslot
  exact ⟨v, a, hv, by rw [hm.fp]; exact ha, by omega, by rw [hm.below a hle]; exact hcell⟩

theorem declare {x : String} {t : Ty} {offset : Int} {v : Value} {a : Nat}
    (h : Holds frame env depth m) (ha : (m.fp : Int) + offset = a) (hle : m.sp ≤ a)
    (hcell : m.memory[a]? = some v.word) :
    Holds (frame.declare x t offset) (.var x v :: env) depth m := by
  refine ⟨h.fits, h.depth, h.fp, fun y slot hslot => ?_⟩
  rw [Frame.get?_declare] at hslot
  by_cases hyx : y = x
  · rw [if_pos hyx] at hslot
    cases hslot
    exact ⟨v, a, by simp [Env.value?, hyx], ha, hle, hcell⟩
  · rw [if_neg hyx] at hslot
    obtain ⟨w, b, hw, hrest⟩ := h.slots y slot hslot
    exact ⟨w, b, by simpa [Env.value?, Ne.symm hyx] using hw, hrest⟩

end Holds

/-- The machine is about to call `g`. The arguments lie on top of the stack and beneath them the
cell for the result, which holds `w` so far; `base` is the state without them. -/
structure Program.Site (p : Program) (code : Module) (labels : Labels) (g : Function)
    (vs : List Value) (w : Word) (base m : Machine) : Prop where
  mem : g ∈ p.functions
  types : vs.map Value.ty = g.params.map Param.ty
  bsr : ∃ target, labels.lookup g.name = some target ∧
    code.get? m.pc = some ⟨.bsr, .address target⟩
  stack : Above base (vs.map Value.word ++ [w]) m.fp m.pc m

theorem Program.Site.length_eq {p : Program} {code : Module} {labels : Labels} {g : Function}
    {vs : List Value} {w : Word} {base m : Machine} (h : p.Site code labels g vs w base m) :
    vs.length = g.params.length := by
  simpa using congrArg List.length h.types

/-- The call at `m` comes back to `m'`: the arguments are as before, and the cell for the result
holds what the function's body evaluates to. -/
def Program.Called (p : Program) (code : Module) (labels : Labels) (m m' : Machine) : Prop :=
  ∃ g vs w base v depth, p.Site code labels g vs w base m ∧
    (g.body.eval p.callees depth (.ofArgs g.params vs)).Yields v ∧
    Above base (vs.map Value.word ++ [v.word]) m.fp (m.pc + 1) m'

section

variable (p : Program) (code : Module) (labels : Labels)

def Computes (need cost : Nat) (frame : Frame) (env : Env) (depth : Nat) (is : List Instruction)
    (ws : List Word) : Prop :=
  ∀ n m, Holds frame env depth m → code.Placed labels m.pc is →
    Runs code (p.Called code labels) n m need cost m ws m.fp (m.pc + is.length)

def Exhausts (n : Nat) (frame : Frame) (env : Env) (depth : Nat) (is : List Instruction) : Prop :=
  ∀ m, Holds frame env depth m → code.Placed labels m.pc is →
    Lasts code (p.Called code labels) n m m

end

section

variable {p : Program} {code : Module} {labels : Labels} {frame : Frame} {env : Env} {depth n : Nat}
  {m : Machine} {ws : List Word} {need cost pc : Nat} {is : List Instruction}

theorem Computes.after {need' cost' : Nat} {ws' : List Word}
    (h : Computes p code labels need' cost' frame env (depth + ws.length) is ws')
    (hrun : Runs code (p.Called code labels) n m need cost m ws m.fp pc)
    (hm : Holds frame env depth m) (hplaced : code.Placed labels pc is) :
    Runs code (p.Called code labels) n m (max need (need' + ws.length)) (cost + cost') m (ws' ++ ws)
      m.fp (pc + is.length) :=
  hrun.andThen fun m' hm' => h n m' (hm.above hm') (hm'.pc ▸ hplaced)

theorem Exhausts.after (h : Exhausts p code labels n frame env (depth + ws.length) is)
    (hrun : Runs code (p.Called code labels) n m need cost m ws m.fp pc)
    (hm : Holds frame env depth m) (hplaced : code.Placed labels pc is) :
    Lasts code (p.Called code labels) n m m :=
  .after hrun fun m' hm' => (h m' (hm.above hm') (hm'.pc ▸ hplaced)).rebase hm'

theorem Computes.next {need' cost' : Nat}
    (h : Computes p code labels need' cost' frame env depth is ws)
    (hrun : Runs code (p.Called code labels) n m need cost m [] m.fp pc)
    (hm : Holds frame env depth m) (hplaced : code.Placed labels pc is) :
    Runs code (p.Called code labels) n m (max need need') (cost + cost') m ws m.fp
      (pc + is.length) := by
  have h : Computes p code labels need' cost' frame env (depth + ([] : List Word).length) is ws := h
  exact (h.after hrun hm hplaced).cast rfl rfl (List.append_nil ws) rfl rfl

theorem Exhausts.next (h : Exhausts p code labels n frame env depth is)
    (hrun : Runs code (p.Called code labels) n m need cost m [] m.fp pc)
    (hm : Holds frame env depth m) (hplaced : code.Placed labels pc is) :
    Lasts code (p.Called code labels) n m m := by
  have h : Exhausts p code labels n frame env (depth + ([] : List Word).length) is := h
  exact h.after hrun hm hplaced

section

variable {v w : Value} {x : String} {t u : Ty} {bodyCode : List Instruction}

/-- The code of a `let` whose value has the type `t` and whose body the type `u`. -/
def letCode (depth : Nat) (t u : Ty) (valueCode bodyCode : List Instruction) : List Instruction :=
  [.decl 1, .decl 1, .lval (-((depth : Int) + 2))] ++ valueCode ++
    [.store t, .lval (-((depth : Int) + 1))] ++ bodyCode ++ [.store u, .pop 1]

@[simp] theorem letCode_length :
    (letCode depth t u is bodyCode).length = is.length + bodyCode.length + 7 := by
  simp only [letCode, List.length_append, List.length_cons, List.length_nil]
  omega

structure LetPlaced (code : Module) (labels : Labels) (pc depth : Nat) (t u : Ty)
    (valueCode bodyCode : List Instruction) : Prop where
  resultCell : code.get? pc = some (.decl 1)
  localCell : code.get? (pc + 1) = some (.decl 1)
  localAddress : code.get? (pc + 2) = some (.lval (-((depth : Int) + 2)))
  value : code.Placed labels (pc + 3) valueCode
  bind : code.get? (pc + 3 + valueCode.length) = some (.store t)
  resultAddress : code.get? (pc + (valueCode.length + 4)) = some (.lval (-((depth : Int) + 1)))
  body : code.Placed labels (pc + (valueCode.length + 4) + 1) bodyCode
  store : code.get? (pc + (valueCode.length + 4) + 1 + bodyCode.length) = some (.store u)
  pop : code.get? (pc + (valueCode.length + 4) + 1 + bodyCode.length + 1) = some (.pop 1)

theorem letIn_placed (hplaced : code.Placed labels pc (letCode depth t u is bodyCode)) :
    LetPlaced code labels pc depth t u is bodyCode := by
  simp only [letCode, Placed.append, Placed.cons, patch_decl, patch_lval, patch_store, patch_pop,
    List.length_append, List.length_cons, List.length_nil] at hplaced
  obtain ⟨⟨⟨⟨⟨hresult, hlocal, haddress, -⟩, hvalue⟩, hbind, hlval, -⟩, hbody⟩, hstore, hpop, -⟩ :=
    hplaced
  have hlast : pc + (0 + 1 + 1 + 1 + is.length + (0 + 1 + 1) + bodyCode.length) =
      pc + (is.length + 4) + 1 + bodyCode.length := by omega
  rw [hlast] at hstore hpop
  refine ⟨hresult, hlocal, haddress, hvalue, ?_, ?_, hbody.cast (by omega), hstore, hpop⟩
  · rwa [show pc + 3 + is.length = pc + (0 + 1 + 1 + 1 + is.length) by omega]
  · rwa [show pc + (is.length + 4) = pc + (0 + 1 + 1 + 1 + is.length) + 1 by omega]

/-- A `let` starts with a cell for its result and one for its variable. -/
theorem letIn_cells (hm : Holds frame env depth m)
    (h : LetPlaced code labels m.pc depth t u is bodyCode) :
    Runs code (p.Called code labels) n m 2 2 m [0, 0] m.fp (m.pc + 2) :=
  ((Runs.start hm.fits).decl h.resultCell).decl h.localCell

theorem letIn_bind (hm : Holds frame env depth m)
    (hvalue : Computes p code labels need cost frame env (depth + 3) is [v.word])
    (h : LetPlaced code labels m.pc depth t u is bodyCode) :
    Runs code (p.Called code labels) n m (need + 3) (cost + 4) m [v.word, 0] m.fp
      (m.pc + (is.length + 4)) := by
  have hfits := hm.fits.sp
  have hdepth := hm.depth
  have hbound := (letIn_cells (n := n) hm h).assign (a := m.sp - 2) (j := 0) h.localAddress hm.fp
    (fun hsp => by
      simp only [List.length_cons, List.length_nil] at hsp ⊢
      omega)
    (by simp) (fun m₁ hm₁ => hvalue n m₁ (hm.above hm₁) (hm₁.pc ▸ h.value)) h.bind
  exact hbound.cast (by simp) (by omega) rfl rfl (by omega)

/-- The body starts with the variable in its cell and the address of the result on the stack. -/
theorem letIn_holds {a : Word} {m' : Machine} (hm : Holds frame env depth m)
    (hm' : Above m [a, v.word, 0] m.fp pc m') :
    Holds (frame.declare x t (-((depth : Int) + 2))) (.var x v :: env) (depth + 3) m' := by
  have hdepth := hm.depth
  have hsp := hm'.sp
  simp only [List.length_cons, List.length_nil] at hsp
  refine (hm.above hm').declare (a := m'.sp + 1) ?_ (by omega) (hm'.top 1 v.word rfl)
  rw [hm'.fp]
  omega

theorem computes_letIn {needBody costBody : Nat}
    (hvalue : Computes p code labels need cost frame env (depth + 3) is [v.word])
    (hbody : Computes p code labels needBody costBody (frame.declare x t (-((depth : Int) + 2)))
      (.var x v :: env) (depth + 3) bodyCode [w.word]) :
    Computes p code labels (max (need + 3) (needBody + 3)) (cost + costBody + 7) frame env depth
      (letCode depth t u is bodyCode) [w.word] := by
  intro n m hm hplaced
  have hfits := hm.fits.sp
  have hdepth := hm.depth
  have h := letIn_placed hplaced
  have hresult := (letIn_bind (n := n) hm hvalue h).assign (a := m.sp - 1) (j := 1) h.resultAddress
    hm.fp
    (fun hsp => by
      simp only [List.length_cons, List.length_nil] at hsp ⊢
      omega)
    (by simp) (fun m₁ hm₁ => hbody n m₁ (letIn_holds hm hm₁) (hm₁.pc ▸ h.body)) h.store
  refine (hresult.pop (k := 1) h.pop (by simp) (by decide)).cast (by simp) (by omega) rfl rfl ?_
  rw [letCode_length]
  omega

theorem exhausts_letIn_body
    (hvalue : Computes p code labels need cost frame env (depth + 3) is [v.word])
    (hbody : Exhausts p code labels n (frame.declare x t (-((depth : Int) + 2))) (.var x v :: env)
      (depth + 3) bodyCode) :
    Exhausts p code labels n frame env depth (letCode depth t u is bodyCode) := by
  intro m hm hplaced
  have hfits := hm.fits.sp
  have hdepth := hm.depth
  have h := letIn_placed hplaced
  refine (letIn_bind hm hvalue h).lasts_assign (a := m.sp - 1) h.resultAddress hm.fp (fun hsp => ?_)
    fun m₁ hm₁ => hbody m₁ (letIn_holds hm hm₁) (hm₁.pc ▸ h.body)
  simp only [List.length_cons, List.length_nil] at hsp
  omega

theorem exhausts_letIn_value (hvalue : Exhausts p code labels n frame env (depth + 3) is) :
    Exhausts p code labels n frame env depth (letCode depth t u is bodyCode) := by
  intro m hm hplaced
  have hfits := hm.fits.sp
  have hdepth := hm.depth
  have h := letIn_placed hplaced
  refine (letIn_cells hm h).lasts_assign (a := m.sp - 2) h.localAddress hm.fp (fun hsp => ?_)
    fun m₁ hm₁ => hvalue m₁ (hm.above hm₁) (hm₁.pc ▸ h.value)
  simp only [List.length_cons, List.length_nil] at hsp
  omega

end

section

variable {need' cost' : Nat} {ws' : List Word} {is' : List Instruction}

theorem computes_append (h : Computes p code labels need cost frame env depth is ws)
    (h' : Computes p code labels need' cost' frame env (depth + ws.length) is' ws') :
    Computes p code labels (max need (need' + ws.length)) (cost + cost') frame env depth (is ++ is')
      (ws' ++ ws) := by
  intro n m hm hplaced
  obtain ⟨hfirst, hsecond⟩ := Placed.append.mp hplaced
  refine (h'.after (h n m hm hfirst) hm hsecond).cast rfl rfl rfl rfl ?_
  rw [List.length_append, Nat.add_assoc]

theorem exhausts_left (h : Exhausts p code labels n frame env depth is) :
    Exhausts p code labels n frame env depth (is ++ is') :=
  fun m hm hplaced => h m hm (Placed.append.mp hplaced).1

theorem exhausts_right (h : Computes p code labels need cost frame env depth is ws)
    (h' : Exhausts p code labels n frame env (depth + ws.length) is') :
    Exhausts p code labels n frame env depth (is ++ is') := by
  intro m hm hplaced
  obtain ⟨hfirst, hsecond⟩ := Placed.append.mp hplaced
  exact h'.after (h n m hm hfirst) hm hsecond

end

section

variable {vs : List Value} {target : Nat} {g : Function} {v : Value} {base : Machine} {ret w : Word}
  {fp : Nat}

theorem value?_of_notMem {ps : List Param} {vs : List Value} {env : Env} {x : String}
    (hx : x ∉ ps.map Param.name) :
    ((ps.zip vs).foldl (fun env (p, v) => .var p.name v :: env) env : Env).value? x =
      env.value? x := by
  induction ps generalizing vs env with
  | nil => rfl
  | cons p ps ih =>
    simp only [List.map_cons, List.mem_cons, not_or] at hx
    cases vs with
    | nil => rfl
    | cons v vs => exact (ih hx.2).trans (by simp [Env.value?, Ne.symm hx.1])

/-- A parameter's cell is that of the argument which the parameter's name stands for. -/
theorem paramSlots_value? (env : Env) {ps : List Param} {vs : List Value} {offset : Int}
    {x : String} {slot : Slot} (hlen : vs.length = ps.length)
    (hslot : (Frame.paramSlots offset ps).lookup x = some slot) :
    ∃ k v, vs[k]? = some v ∧ slot.offset = offset + (k : Nat) ∧
      ((ps.zip vs).foldl (fun env (p, v) => .var p.name v :: env) env : Env).value? x = some v := by
  induction ps generalizing vs env offset with
  | nil => cases hslot
  | cons p ps ih =>
    cases vs with
    | nil => simp at hlen
    | cons v vs =>
      simp only [Frame.paramSlots, List.lookup_append] at hslot
      cases hrest : (Frame.paramSlots (offset + 1) ps).lookup x with
      | some slot' =>
        rw [hrest] at hslot
        obtain rfl : slot' = slot := by simpa using hslot
        obtain ⟨k, w, hk, hoffset, hvalue⟩ := ih _ (by simpa using hlen) hrest
        exact ⟨k + 1, w, by simpa using hk, by omega, hvalue⟩
      | none =>
        -- no later parameter has the name, so it is this one's
        rw [hrest, Option.none_or] at hslot
        have hx : x = p.name := by
          by_cases hx : x = p.name
          · exact hx
          · simp [lookup_cons_of_ne hx] at hslot
        subst hx
        obtain rfl : (⟨offset, p.ty⟩ : Slot) = slot := by simpa using hslot
        have hmem : p.name ∉ ps.map Param.name := by
          intro hmem
          obtain ⟨slot, hslot⟩ := Frame.lookup_paramSlots hmem (offset + 1)
          rw [hrest] at hslot
          cases hslot
        refine ⟨0, v, rfl, by simp, (value?_of_notMem hmem).trans ?_⟩
        simp [Env.value?]

/-- The arguments lie above the saved frame pointer and the return address when the body starts. -/
theorem call_holds {linked m' : Machine} {saved a : Word} {pc' : Nat}
    (hlen : vs.length = g.params.length)
    (hlinked : Above base (saved :: ret :: (vs.map Value.word ++ [w])) linked.sp pc linked)
    (hm' : Above linked [a] linked.sp pc' m') :
    Holds (.forFunction g.params) (.ofArgs g.params vs) 1 m' := by
  have hfits := hlinked.fits'.sp
  refine ⟨hm'.fits', hm'.sp.trans hm'.fp.symm, by rw [hm'.fp, hm'.config]; exact hfits,
    fun x slot hslot => ?_⟩
  have hsp := hm'.sp
  rw [List.length_singleton] at hsp
  obtain ⟨k, v, hk, hoffset, hvalue⟩ := paramSlots_value? [] hlen hslot
  refine ⟨v, m'.sp + (3 + k), hvalue, ?_, by omega, ?_⟩
  · rw [hm'.fp, hoffset, Frame.firstParam]
    omega
  · refine (hlinked.trans hm').top (3 + k) v.word ?_
    have hlt : k < (vs.map Value.word).length := by
      simpa using (List.getElem?_eq_some_iff.mp hk).1
    rw [Nat.add_comm]
    simp only [List.singleton_append, List.getElem?_cons_succ, List.getElem?_append_left hlt,
      List.getElem?_map, hk, Option.map_some]

/-- The cell for the result is the last one that the call has taken. -/
theorem call_result {linked : Machine} {saved : Word} (hlen : vs.length = g.params.length)
    (hlinked : Above base (saved :: ret :: (vs.map Value.word ++ [w])) linked.sp pc linked) :
    (linked.sp : Int) + Frame.returnOffset g.params = (base.sp - 1 : Nat) ∧
      linked.sp ≤ base.config.stackSize ∧ linked.sp + (vs.length + 3) = base.sp := by
  have hsp := hlinked.sp
  have hfits := hlinked.fits.sp
  simp only [List.length_cons, List.length_append, List.length_map, List.length_nil] at hsp
  simp only [Frame.returnOffset, Frame.firstParam, ← hlen]
  omega

theorem placed_body (hg : code.Placed labels target g.code) :
    code.Placed labels (target + 3) (g.body.code (.forFunction g.params) 1) ∧
      code.Placed labels (target + 3 + (g.body.code (.forFunction g.params) 1).length)
        [.store g.resultTy, ⟨.unlink, .empty⟩, ⟨.rts, .empty⟩] := by
  obtain ⟨hfront, hend⟩ := Placed.append.mp hg
  refine ⟨(Placed.append.mp hfront).2, hend.cast ?_⟩
  simp only [List.length_append, List.length_cons, List.length_nil]
  omega

/-- The frame of a function, from the address of the result to the assignment of it. -/
theorem callee_assigns {linked : Machine} {saved : Word} {t : Ty}
    (hlinked : Above base (saved :: ret :: (vs.map Value.word ++ [w])) linked.sp pc linked)
    (hlval : code.get? pc = some (.lval (Frame.returnOffset g.params)))
    (hcode : code.Placed labels (pc + 1) is)
    (hstore : code.get? (pc + 1 + is.length) = some (.store t)) (hlen : vs.length = g.params.length)
    (hbody : Computes p code labels need cost (.forFunction g.params) (.ofArgs g.params vs) 1 is
      [v.word]) :
    Leads code (p.Called code labels) n linked (need + 1) (cost + 2) linked
      (Above base (saved :: ret :: (vs.map Value.word ++ [v.word])) linked.sp
        (pc + 1 + is.length + 1)) := by
  obtain ⟨haddress, hle, hcell⟩ := call_result hlen hlinked
  have hset : (saved :: ret :: (vs.map Value.word ++ [w])).set (vs.length + 2) v.word =
      saved :: ret :: (vs.map Value.word ++ [v.word]) := by simp
  rw [← hset]
  refine .assign hlinked hlval hle haddress ?_ (by simp) (fun m₁ hm₁ => ?_) hstore
  · simp only [List.length_cons, List.length_append, List.length_map, List.length_nil]
    omega
  · exact hbody n m₁ (call_holds hlen hlinked hm₁) (hm₁.pc ▸ hcode)

/-- A function that is called gets to its return with the result in its cell. -/
theorem callee_runs (hm : Above base (ret :: (vs.map Value.word ++ [w])) fp target m)
    (hg : code.Placed labels target g.code) (hlen : vs.length = g.params.length)
    (hfp : fp ≤ base.config.stackSize)
    (hbody : Computes p code labels need cost (.forFunction g.params) (.ofArgs g.params vs) 1
      (g.body.code (.forFunction g.params) 1) [v.word]) :
    Runs code (p.Called code labels) n base (need + (vs.length + 4)) (cost + 5) m
      (ret :: (vs.map Value.word ++ [v.word])) fp
      (target + 3 + (g.body.code (.forFunction g.params) 1).length + 2) := by
  obtain ⟨hcode, hend⟩ := placed_body hg
  simp only [Function.code, List.cons_append, List.nil_append, Placed.cons, patch_lval] at hg
  obtain ⟨hlabel, hlink, hlval, -⟩ := hg
  simp only [Placed.cons, patch_store] at hend
  obtain ⟨hstore, hunlink, -⟩ := hend
  have hlabelled : Runs code (p.Called code labels) n base 0 1 m _ fp (target + 1) :=
    Runs.label (Leads.refl hm) hlabel
  have hframe (m₁ : Machine)
      (hm₁ : Above base (ret :: (vs.map Value.word ++ [w])) fp (target + 1) m₁) :
      Runs code (p.Called code labels) n base (need + 1 + (vs.length + 2 + 1)) (cost + 2 + 2) m₁
        (ret :: (vs.map Value.word ++ [v.word])) fp
        (target + 3 + (g.body.code (.forFunction g.params) 1).length + 2) := by
    have hassign (linked : Machine) (hlinked : Above base
        (.ofAddress fp :: ret :: (vs.map Value.word ++ [w])) linked.sp (target + 1 + 1) linked) :=
      callee_assigns (n := n) hlinked hlval hcode hstore hlen hbody
    exact (Leads.frame hm₁ hlink hfp (by simp) hassign hunlink).cast (by simp) rfl rfl rfl rfl
  exact (Leads.trans hlabelled hframe).cast (by omega) (by omega)

theorem callee_lasts (hm : Above base (ret :: (vs.map Value.word ++ [w])) fp target m)
    (hg : code.Placed labels target g.code) (hlen : vs.length = g.params.length)
    (hbody : Exhausts p code labels n (.forFunction g.params) (.ofArgs g.params vs) 1
      (g.body.code (.forFunction g.params) 1)) : Lasts code (p.Called code labels) n base m := by
  have hcode := (placed_body hg).1
  simp only [Function.code, List.cons_append, List.nil_append, Placed.cons, patch_lval] at hg
  obtain ⟨hlabel, hlink, hlval, -⟩ := hg
  have hlabelled : Runs code (p.Called code labels) n base 0 1 m _ fp (target + 1) :=
    Runs.label (Leads.refl hm) hlabel
  refine .after hlabelled fun m₁ hm₁ => .frame hm₁ hlink fun linked hlinked => ?_
  obtain ⟨haddress, hle, hcell⟩ := call_result hlen hlinked
  have hfits := hlinked.fits.sp
  exact .assign hlinked hlval hle haddress (by omega) fun m₂ hm₂ =>
    hbody m₂ (call_holds hlen hlinked hm₂) (hm₂.pc ▸ hcode)

theorem call_placed {f : String} {count : Nat} (hf : labels.lookup f = some target)
    (hplaced : code.Placed labels pc (.decl 1 :: is ++ [⟨.bsr, .label f⟩, .pop count])) :
    code.get? pc = some (.decl 1) ∧ code.Placed labels (pc + 1) is ∧
      code.get? (pc + 1 + is.length) = some ⟨.bsr, .address target⟩ ∧
      code.get? (pc + 1 + is.length + 1) = some (.pop count) := by
  have hpatch : patch labels ⟨.bsr, .label f⟩ = ⟨.bsr, .address target⟩ := by
    simp [patch, refersTo?, OpCode.controlTransfer, Instruction.label?, hf]
  have hpc : pc + (is.length + 1) = pc + 1 + is.length := by omega
  simp only [Placed.append, Placed.cons, patch_decl, patch_pop, hpatch, List.length_cons,
    hpc] at hplaced
  obtain ⟨⟨hdecl, hcode⟩, hbsr, hpop, -⟩ := hplaced
  exact ⟨hdecl, hcode, hbsr, hpop⟩

/-- A call takes the steps of its arguments and of the function's body, and nine more. -/
theorem computes_call {needBody costBody evalDepth : Nat}
    (hargs : Computes p code labels need cost frame env (depth + 1) is (vs.map Value.word))
    (hbody : Computes p code labels needBody costBody (.forFunction g.params) (.ofArgs g.params vs) 1
      (g.body.code (.forFunction g.params) 1) [v.word])
    (hv : (g.body.eval p.callees evalDepth (.ofArgs g.params vs)).Yields v) (hmem : g ∈ p.functions)
    (hf : labels.lookup g.name = some target) (hg : code.Placed labels target g.code)
    (htys : vs.map Value.ty = g.params.map Param.ty) (hsize : code.size ≤ Word.greatest)
    (hcount : vs.length ≤ Word.greatest) :
    Computes p code labels (max (need + 1) (needBody + (vs.length + 4))) (cost + costBody + 9) frame
      env depth (.decl 1 :: is ++ [⟨.bsr, .label g.name⟩, .pop vs.length]) [v.word] := by
  intro n m hm hplaced
  have hlen : vs.length = g.params.length := by simpa using congrArg List.length htys
  obtain ⟨hdecl, hcode, hbsr, hpop⟩ := call_placed hf hplaced
  have hlt : m.pc + 1 + is.length < code.size := (Array.getElem?_eq_some_iff.mp hbsr).1
  have hrts := (placed_body hg).2
  simp only [Placed.cons, patch_store] at hrts
  have hrun := hargs.after (n := n) ((Runs.start hm.fits).decl hdecl) hm hcode
  have hcalled := Leads.trans hrun fun m₁ hm₁ => by
    refine Leads.call hm₁ hbsr (by omega)
      (fun m₂ hm₂ => callee_runs hm₂ hg hlen hm.fp hbody) hrts.2.2.1 fun m₃ hm₃ => ?_
    have hsite : p.Site code labels g vs 0 m m₁ :=
      ⟨hmem, htys, ⟨target, hf, hm₁.pc ▸ hbsr⟩, by rw [hm₁.fp, hm₁.pc]; exact hm₁⟩
    exact ⟨g, vs, 0, m, v, evalDepth, hsite, hv, by rw [hm₁.fp, hm₁.pc]; exact hm₃⟩
  have hpopped := Runs.pop hcalled hpop (by simp) hcount
  refine hpopped.cast ?_ (by omega) (by simp) rfl ?_
  · simp only [List.length_append, List.length_map, List.length_cons, List.length_nil]
    omega
  · simp only [List.length_append, List.length_cons, List.length_nil]
    omega

theorem exhausts_call
    (hargs : Computes p code labels need cost frame env (depth + 1) is (vs.map Value.word))
    (hbody : Exhausts p code labels n (.forFunction g.params) (.ofArgs g.params vs) 1
      (g.body.code (.forFunction g.params) 1))
    (hf : labels.lookup g.name = some target) (hg : code.Placed labels target g.code)
    (hlen : vs.length = g.params.length) :
    Exhausts p code labels (n + 1) frame env depth
      (.decl 1 :: is ++ [⟨.bsr, .label g.name⟩, .pop vs.length]) := by
  intro m hm hplaced
  obtain ⟨hdecl, hcode, hbsr, -⟩ := call_placed hf hplaced
  have hrun := hargs.after (n := n + 1) ((Runs.start hm.fits).decl hdecl) hm hcode
  exact .after hrun fun m₁ hm₁ => .call hm₁ hbsr fun m₂ hm₂ => callee_lasts hm₂ hg hlen hbody

theorem exhausts_args (hargs : Exhausts p code labels n frame env (depth + 1) is) :
    Exhausts p code labels n frame env depth (.decl 1 :: is) := by
  intro m hm hplaced
  obtain ⟨hdecl, hcode⟩ := Placed.cons.mp hplaced
  exact hargs.after ((Runs.start hm.fits).decl hdecl) hm hcode

end

theorem computes_seq {need' cost' : Nat} {v : Word} {is' : List Instruction}
    (h : Computes p code labels need cost frame env depth is [v])
    (h' : Computes p code labels need' cost' frame env depth is' ws) :
    Computes p code labels (max need need') (cost + cost' + 1) frame env depth (is ++ .pop 1 :: is')
      ws := by
  intro n m hm hplaced
  obtain ⟨hfirst, hrest⟩ := Placed.append.mp hplaced
  obtain ⟨hpop, hsecond⟩ := Placed.cons.mp hrest
  have hdropped := (h n m hm hfirst).pop (k := 1) hpop (by simp) (by decide)
  refine (h'.next hdropped hm hsecond).cast rfl (by omega) rfl rfl ?_
  simp only [List.length_append, List.length_cons]
  omega

theorem exhausts_seq {v : Word} {is' : List Instruction}
    (h : Computes p code labels need cost frame env depth is [v])
    (h' : Exhausts p code labels n frame env depth is') :
    Exhausts p code labels n frame env depth (is ++ .pop 1 :: is') := by
  intro m hm hplaced
  obtain ⟨hfirst, hrest⟩ := Placed.append.mp hplaced
  obtain ⟨hpop, hsecond⟩ := Placed.cons.mp hrest
  have hdropped := (h n m hm hfirst).pop (k := 1) hpop (by simp) (by decide)
  exact h'.next hdropped hm hsecond

theorem computes_operator {op : BinOp} {a b v : Value}
    (h : Computes p code labels need cost frame env depth is [b.word, a.word])
    (hv : op.apply? a b = some v) :
    Computes p code labels need (cost + 1) frame env depth
      (is ++ [op.instruction a.ty]) [v.word] := by
  intro n m hm hplaced
  obtain ⟨hcode, hop⟩ := Placed.append.mp hplaced
  rw [Placed.cons, patch_operator] at hop
  refine ((h n m hm hcode).operator hop.1 hv).cast rfl rfl rfl rfl ?_
  simp [Nat.add_assoc]

theorem computes_var {x : String} {slot : Slot} {v : Value} (hslot : frame.get? x = some slot)
    (hv : env.value? x = some v) :
    Computes p code labels 1 1 frame env depth [.load slot] [v.word] := by
  intro n m hm hplaced
  obtain ⟨w, a, hw, ha, hle, hcell⟩ := hm.slots x slot hslot
  obtain rfl : w = v := Option.some.inj (hw.symm.trans hv)
  rw [Placed.cons, patch_load] at hplaced
  refine (Runs.start hm.fits).load hplaced.1 hm.fp ha fun m' hm' => ?_
  rw [hm'.below a hle, hcell]

theorem computes_word {op : OpCode} {w : Word} (hop : op = .pushInt ∨ op = .pushBool) :
    Computes p code labels 1 1 frame env depth [⟨op, .int w⟩] [w] := by
  intro n m hm hplaced
  refine (Runs.start hm.fits).pushWord hop ?_
  rcases hop with rfl | rfl <;> exact (Placed.cons.mp hplaced).1

end

section

variable (p : Program) (code : Module) (labels : Labels)

/-- A frame has no more cells than its code has instructions, and no more than `n` frames lie on one
another, the last of them that of the `length` instructions in question. -/
def Room (n length need : Nat) : Prop := need + code.size ≤ length + n * code.size

/-- The instructions do what the evaluation says: they compute its value, or where it is given up
they overflow the stack or go on for `n` steps. -/
def Simulates (n : Nat) (frame : Frame) (env : Env) (depth : Nat) (is : List Instruction)
    (c : Eval Value) : Prop :=
  c.Ends (fun v => c.Yields v ∧ ∃ need cost, Room code n is.length need ∧
      Computes p code labels need cost frame env depth is [v.word])
    (Exhausts p code labels n frame env depth is)

end

section

variable {p : Program} {code : Module} {labels : Labels} {frame : Frame} {env : Env} {depth n : Nat}
  {is is' : List Instruction} {c : Eval Value} {good : Value → Prop}

theorem room_one (n : Nat) : Room code (n + 1) 1 1 := by
  simp only [Room, Nat.succ_mul]
  omega

theorem simulates_letIn (x : String) {k : Value → Eval Value} {t u : Ty}
    (hc : Simulates p code labels n frame env (depth + 3) is c) (hsafe : c.Safe good)
    (hk : ∀ v, good v → Simulates p code labels n (frame.declare x t (-((depth : Int) + 2)))
      (.var x v :: env) (depth + 3) is' (k v)) :
    Simulates p code labels n frame env depth (letCode depth t u is is') (c >>= k) := by
  refine .bind ((hc.and hsafe).imp (fun _ => id) exhausts_letIn_value) ?_
  rintro v ⟨⟨hcv, need, cost, hroom, hv⟩, hgood⟩
  refine (hk v hgood).imp ?_ (exhausts_letIn_body hv)
  rintro w ⟨hkw, needBody, costBody, hroomBody, hw⟩
  refine ⟨hcv.bind hkw, _, _, ?_, computes_letIn hv hw⟩
  simp only [Room, letCode_length] at hroom hroomBody ⊢
  omega

theorem simulates_seq {c' : Eval Value} (hc : Simulates p code labels n frame env depth is c)
    (hc' : Simulates p code labels n frame env depth is' c') :
    Simulates p code labels n frame env depth (is ++ .pop 1 :: is') (c >>= fun _ => c') := by
  refine .bind (hc.imp (fun _ => id) exhausts_left) ?_
  rintro v ⟨hcv, need, cost, hroom, hv⟩
  refine hc'.imp ?_ (exhausts_seq hv)
  rintro w ⟨hcw, need', cost', hroom', hw⟩
  refine ⟨hcv.bind hcw, _, _, ?_, computes_seq hv hw⟩
  simp only [Room, List.length_append, List.length_cons] at hroom hroom' ⊢
  omega

theorem simulates_operator {c' : Eval Value} {k : Value → Value → Eval Value}
    {op : BinOp} {t u v : Ty}
    (hc : Simulates p code labels n frame env depth is c) (hsafe : c.Safe fun a => a.ty = t)
    (hc' : Simulates p code labels n frame env (depth + 1) is' c')
    (hsafe' : c'.Safe fun b => b.ty = u)
    (hop : op.result? t u = some v) (hk : ∀ a b w, op.apply? a b = some w → k a b = pure w) :
    Simulates p code labels n frame env depth (is ++ is' ++ [op.instruction t])
      (c >>= fun a => c' >>= fun b => k a b) := by
  refine .bind ((hc.and hsafe).imp (fun _ => id) fun hdeep => exhausts_left (exhausts_left hdeep)) ?_
  rintro a ⟨⟨hca, need, cost, hroom, ha⟩, rfl⟩
  refine .bind ((hc'.and hsafe').imp (fun _ => id)
    fun hdeep => exhausts_left (exhausts_right ha hdeep)) ?_
  rintro b ⟨⟨hcb, need', cost', hroom', hb⟩, rfl⟩
  obtain ⟨w, hw, -⟩ := Expr.result_of_apply hop
  have hkw : (k a b).Yields w := hk a b w hw ▸ .pure w
  rw [hk a b w hw]
  refine .pure ⟨hca.bind (hcb.bind hkw), _, _, ?_, computes_operator (computes_append ha hb) hw⟩
  simp only [Room, List.length_append, List.length_cons, List.length_nil] at hroom hroom' ⊢
  omega

def EnterEvaluates (p : Program) (enter : Env → Expr → Eval Value) : Prop :=
  ∀ env e v, (enter env e).Yields v → ∃ depth, (e.eval p.callees depth env).Yields v

/-- A call that is given up is longer by a step than the body that is given up. -/
theorem simulates_call {args : Eval (List Value)} {enter : Env → Expr → Eval Value} {target : Nat}
    {g : Function} (henter : EnterEvaluates p enter)
    (hargs : args.Ends (fun vs => args.Yields vs ∧ vs.length = g.params.length ∧ ∃ need cost,
        Room code (n + 1) is.length need ∧
          Computes p code labels need cost frame env (depth + 1) is (vs.map Value.word))
      (Exhausts p code labels (n + 1) frame env (depth + 1) is))
    (hsafe : args.Safe fun vs => vs.map Value.ty = g.params.map Param.ty)
    (hbody : ∀ vs, vs.map Value.ty = g.params.map Param.ty →
      Simulates p code labels n (.forFunction g.params) (.ofArgs g.params vs) 1
        (g.body.code (.forFunction g.params) 1) (enter (.ofArgs g.params vs) g.body))
    (hmem : g ∈ p.functions) (hf : labels.lookup g.name = some target)
    (hg : code.Placed labels target g.code) (hsize : code.size ≤ Word.greatest)
    (hcount : g.params.length ≤ Word.greatest) (hlen : g.params.length ≤ is.length) :
    Simulates p code labels (n + 1) frame env depth
      (.decl 1 :: is ++ [⟨.bsr, .label g.name⟩, .pop g.params.length]) (do
        let vs ← args
        Eval.countCall
        enter (.ofArgs g.params vs) g.body) := by
  refine .bind ((hargs.and hsafe).imp (fun _ => id)
    fun hdeep => exhausts_left (exhausts_args hdeep)) ?_
  rintro vs ⟨⟨hargsVs, hlength, need, cost, hroom, hvs⟩, htys⟩
  refine .bind Eval.Ends.countCall fun _ _ => ?_
  rw [← hlength] at hcount hlen ⊢
  refine (hbody vs htys).imp ?_ fun hdeep => exhausts_call hvs hdeep hf hg hlength
  rintro v ⟨henterV, needBody, costBody, hroomBody, hv⟩
  obtain ⟨evalDepth, hevalV⟩ := henter _ _ v henterV
  refine ⟨hargsVs.bind (Eval.Yields.countCall.bind henterV), _, _, ?_,
    computes_call hvs hv hevalV hmem hf hg htys hsize hcount⟩
  -- the body is longer than what the call has on the stack besides the arguments
  have hcode := hg.length_le
  simp only [Function.code, List.length_append, List.length_cons, List.length_nil] at hcode
  simp only [Room, List.length_append, List.length_cons, List.length_nil, Nat.succ_mul] at *
  omega

end

section

variable (p : Program) (code : Module) (labels : Labels)

def EnterSimulates (lifted : List (String × Signature)) (n : Nat)
    (enter : Env → Expr → Eval Value) : Prop :=
  ∀ s env e t frame (depth : Nat), s.lifted = lifted → EnvTyped s env → e.Typed s t → e.Flat →
    frame.Covers s → (e.code frame depth).length ≤ Word.greatest →
      Simulates p code labels n frame env depth (e.code frame depth) (enter env e)

end

namespace Expr

open Instruction

variable {p : Program} {code : Module} {labels : Labels} {frame : Frame} {env : Env} {depth n : Nat}
  {functions : List Function} {enter : Env → Expr → Eval Value}

/-- The machine computes the arguments from the last to the first, so a first argument that is given
up says nothing about those behind it: these compute or exhaust on their own. -/
theorem evalArgs_simulates {args : List Expr} {s : Scopes} {ts : List Ty}
    (heval : ∀ a ∈ args, ∀ t (depth : Nat), a.Typed s t →
      (a.code frame depth).length ≤ Word.greatest →
      Simulates p code labels (n + 1) frame env depth (a.code frame depth)
        (a.evalWith functions enter env))
    (h : ArgsTyped s args ts) (hflat : FlatAll args) (hframe : frame.Covers s) (depth : Nat)
    (hlen : (codeOf frame depth args).length ≤ Word.greatest) :
    (evalArgs functions enter env args).Ends
      (fun vs => (evalArgs functions enter env args).Yields vs ∧ vs.length = args.length ∧
        ∃ need cost, Room code (n + 1) (codeOf frame depth args).length need ∧
          Computes p code labels need cost frame env depth (codeOf frame depth args)
            (vs.map Value.word))
      (Exhausts p code labels (n + 1) frame env depth (codeOf frame depth args)) := by
  induction args generalizing ts with
  | nil =>
    refine .pure ⟨.pure [], rfl, 0, 0, ?_, fun n m hm _ => Runs.start hm.fits⟩
    simp only [Room, Nat.succ_mul]
    omega
  | cons arg args ih =>
    cases h with
    | @cons _ _ _ t ts harg hargs =>
      simp only [codeOf, List.length_append] at hlen
      have heffects : effects (codeOf frame depth args) = args.length :=
        effects_codeOf hargs depth (fun a ha t d h hd =>
          effects_code h (flatAll_iff.mp hflat.2 a ha) hframe d hd) (by omega)
      have hrest := ih (fun a ha => heval a (by simp [ha])) hargs hflat.2 (by omega)
      have hcode : codeOf frame depth (arg :: args) =
          codeOf frame depth args ++ arg.code frame ((depth + args.length : Nat) : Int) := by
        simp [codeOf, heffects]
      rw [heffects] at hlen
      have hfirst := heval arg (by simp) t (depth + args.length) harg (by simpa using (by omega))
      rw [hcode]
      refine .bind (hfirst.imp (fun _ => id) fun hdeep => ?_) fun v hv => ?_
      · -- the machine may be exhausted by the later arguments before it comes to this one
        rcases hrest.outcome with ⟨vs, -, hcount, need, cost, -, hvs⟩ | hdeep'
        · exact exhausts_right hvs (by simpa [hcount] using hdeep)
        · exact exhausts_left hdeep'
      · obtain ⟨hargV, need, cost, hroom, hv⟩ := hv
        refine .bind (hrest.imp (fun _ => id) exhausts_left) fun vs hvs => ?_
        obtain ⟨hargsVs, hcount, need', cost', hroom', hvs⟩ := hvs
        have hv : Computes p code labels need cost frame env (depth + (vs.map Value.word).length)
            (arg.code frame ((depth + args.length : Nat) : Int)) [v.word] := by
          simpa [hcount] using hv
        refine .pure ⟨hargV.bind (hargsVs.bind (.pure _)), by simp [hcount], _, _, ?_,
          computes_append hvs hv⟩
        have hle := length_le_codeOf hargs hflat.2 hframe depth
        simp only [Room, List.length_append, List.length_map, hcount] at hroom hroom' ⊢
        omega

theorem code_letIn {i : Info} {x : Name} {value body : Expr}
    (h : effects (value.code frame ((depth : Int) + 3)) = 1) :
    (letIn i x value body).code frame depth =
      letCode depth value.marked body.marked (value.code frame ((depth + 3 : Nat) : Int))
        (body.code (frame.declare x.id value.marked (-((depth : Int) + 2)))
          ((depth + 3 : Nat) : Int)) := by
  have hdepth : (depth : Int) + 1 + 2 = ((depth + 3 : Nat) : Int) := by omega
  simp only [Expr.code, h, hdepth, letCode]
  rfl

/-- One level of evaluation is simulated if the calls it makes are. -/
theorem evalWith_simulates {t : Ty} (hp : p.WellTyped t) (hlinked : p.Linked code labels)
    (hsize : code.size ≤ Word.greatest) (hsafe : EnterSafe p.signatures enter)
    (hevaluates : EnterEvaluates p enter)
    (henter : EnterSimulates p code labels p.signatures n enter) :
    EnterSimulates p code labels p.signatures (n + 1) (evalWith p.callees enter) := by
  intro s env e t frame depth hs henv h hflat hframe hlen
  have hsafe := evalWith_safe hp.functionsTyped hsafe
  induction e generalizing s env t frame depth with
  | letFun | apply => exact hflat.elim
  | letIn i x value body ihv ihb =>
    cases h with
    | @letIn _ _ _ _ _ u _ _ hvalue hbody =>
      have heffects := effects_code hvalue hflat.1 hframe ((depth : Int) + 3) (by
        simp only [Expr.code, List.length_append] at hlen
        omega)
      rw [code_letIn heffects] at hlen ⊢
      rw [letCode_length] at hlen
      refine simulates_letIn x.id
        (ihv s env u frame (depth + 3) hs henv hvalue hflat.1 hframe (by omega))
        (hsafe s env value u hs henv hvalue) ?_
      rintro v rfl
      exact ihb (s.var x.id v.ty) (.var x.id v :: env) t
        (frame.declare x.id value.marked (-((depth : Int) + 2))) (depth + 3) hs (.var x.id v henv)
        hbody hflat.2 (hframe.declare _ _ _ _) (by omega)
  | call i f args ih =>
    cases h with
    | @call _ _ _ _ sig _ hf hargs =>
      simp only [Expr.code, List.length_append, List.length_cons, List.length_nil] at hlen ⊢
      rw [hs] at hf
      obtain ⟨g, hfind, rfl, hg⟩ := hp.functionsTyped f sig hf
      have hmem : g ∈ p.functions := List.mem_reverse.mp (List.mem_of_find?_eq_some hfind)
      obtain rfl : g.name = f := by simpa using List.find?_some hfind
      obtain ⟨target, hlookup, hplaced⟩ := hlinked.function g hmem
      have harity : args.length = g.params.length := by
        simpa [Function.signature] using hargs.length_eq
      have hcount := length_le_codeOf hargs hflat hframe ((depth : Int) + 1)
      have hvs := evalArgs_simulates (fun a ha u d hu hd => ih a ha s env u frame d hs henv
        hu (flatAll_iff.mp hflat a ha) hframe hd) hargs hflat hframe (depth + 1)
        (by simpa using (by omega))
      have hsafeArgs := evalArgs_safe (fun a _ u hu => hsafe s env a u hs henv hu) hargs
      -- the body is part of the module, so its length is a word
      have hbody : (g.body.code (.forFunction g.params) 1).length ≤ Word.greatest :=
        Nat.le_trans (placed_body hplaced).1.length_le hsize
      simp only [evalWith, hfind, Function.arity, harity, if_true] at hcount hvs ⊢
      refine simulates_call hevaluates hvs hsafeArgs (fun vs htys => ?_) hmem hlookup hplaced hsize
        (by omega) (by simpa using hcount)
      exact henter _ _ _ _ (.forFunction g.params) 1 (Scopes.params_lifted _ _) (.ofArgs htys) hg
        (hp.functions g hmem).2 (Frame.forFunction_covers _ _) hbody
  | seq i first second ihf ihs =>
    cases h with
    | seq _ hfirst hsecond =>
      have heffects := effects_code hfirst hflat.1 hframe depth (by
        simp only [Expr.code, List.length_append] at hlen
        omega)
      simp only [Expr.code, heffects, List.length_append, List.length_cons, Int.add_sub_cancel]
        at hlen ⊢
      exact simulates_seq (ihf s env _ frame depth hs henv hfirst hflat.1 hframe (by omega))
        (ihs s env t frame depth hs henv hsecond hflat.2 hframe (by omega))
  | binary i op left right ihl ihr =>
    cases h with
    | @binary _ _ _ _ _ u v _ _ hleft hright hop =>
      have heffects := effects_code hleft hflat.1 hframe depth (by
        simp only [Expr.code, List.length_append] at hlen
        omega)
      have hmarked : left.marked = u := by simp [marked, hleft.ty_eq]
      simp only [Expr.code, heffects, hmarked, List.length_append] at hlen ⊢
      have hright' := ihr s env v frame (depth + 1) hs henv hright hflat.2 hframe (by
        rw [Int.natCast_add, Int.natCast_one]
        omega)
      refine simulates_operator (ihl s env u frame depth hs henv hleft hflat.1 hframe (by omega))
        (hsafe s env left u hs henv hleft) hright' (hsafe s env right v hs henv hright) hop ?_
      intro a b w hw
      simp only [hw]
  | var i x =>
    cases h with
    | var _ hx =>
      obtain ⟨v, hv, -⟩ := henv.value hx
      obtain ⟨slot, hslot⟩ := hframe _ _ hx
      simp only [evalWith, hv, Expr.code, hslot]
      exact .pure ⟨.pure v, 1, 1, room_one n, computes_var hslot hv⟩
  | num i w => exact .pure ⟨.pure _, 1, 1, room_one n, computes_word (.inl rfl)⟩
  | bool i b => exact .pure ⟨.pure _, 1, 1, room_one n, computes_word (.inr rfl)⟩

/-- Evaluation to any depth is simulated. Each level of calls that it is given up at is a step of
the machine at least. -/
theorem eval_simulates {t : Ty} (hp : p.WellTyped t) (hlinked : p.Linked code labels)
    (hsize : code.size ≤ Word.greatest) (depth : Nat) :
    EnterSimulates p code labels p.signatures (depth + 1) (eval p.callees depth) := by
  induction depth with
  | zero =>
    refine evalWith_simulates hp hlinked hsize (fun _ _ _ _ _ _ _ => .tooDeep trivial)
      (fun _ _ _ hv => (hv 0).elim) ?_
    intro s env e t frame depth _ _ _ _ _ _
    exact .tooDeep fun m _ _ => .zero m m
  | succ depth ih =>
    exact evalWith_simulates hp hlinked hsize (eval_safe hp.functionsTyped depth)
      (fun env e v hv => ⟨depth, hv⟩) ih

end Expr

end LetStack
