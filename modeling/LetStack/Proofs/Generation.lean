import LetStack.Code.Generation
import LetStack.Proofs.Lifting

namespace LetStack

namespace Instruction

def effects : List Instruction → Int
  | [] => 0
  | i :: is => i.effect + effects is

@[simp] theorem effects_nil : effects [] = 0 := rfl

@[simp] theorem effects_cons (i : Instruction) (is : List Instruction) :
    effects (i :: is) = i.effect + effects is := rfl

@[simp] theorem effects_append (is js : List Instruction) :
    effects (is ++ js) = effects is + effects js := by
  induction is with
  | nil => simp
  | cons i is ih => simp [ih, Int.add_assoc]

@[simp] theorem effect_lval (offset : Int) : (lval offset).effect = 1 := rfl

@[simp] theorem effect_decl_one : (decl 1).effect = 1 := rfl

@[simp] theorem effect_pop_one : (pop 1).effect = -1 := rfl

@[simp] theorem effect_store (t : Ty) : (store t).effect = -2 := by cases t <;> rfl

@[simp] theorem effect_load (slot : Slot) : (load slot).effect = 1 := by
  unfold load
  split <;> rfl

end Instruction

def BinOp.instruction : BinOp → Ty → Instruction
  | .add, _ => ⟨.add, .empty⟩
  | .sub, _ => ⟨.sub, .empty⟩
  | .lt, _ => ⟨.ltInt, .empty⟩
  | .eq, .num => ⟨.eqInt, .empty⟩
  | .eq, .bool => ⟨.eqBool, .empty⟩

@[simp] theorem BinOp.effect_instruction (op : BinOp) (t : Ty) : (op.instruction t).effect = -1 := by
  cases op <;> cases t <;> rfl

namespace Expr

open Instruction

/-- The type that the node is marked with; the default stands for an unmarked node. -/
def marked (e : Expr) : Ty := e.ty.getD .num

mutual

/-- Code that leaves the value on top of the stack, where `depth` cells lie above the frame. -/
def code (frame : Frame) (depth : Int) : Expr → List Instruction
  | letIn _ x value body =>
    let slot := -(depth + 2)
    let valueCode := value.code frame (depth + 3)
    let bodyCode := body.code (frame.declare x.id value.marked slot) (depth + effects valueCode + 2)
    [decl 1, decl 1, lval slot] ++ valueCode ++ [store value.marked, lval (-(depth + 1))] ++
      bodyCode ++ [store body.marked, pop 1]
  | call _ f args =>
    decl 1 :: codeOf frame (depth + 1) args ++ [⟨.bsr, .label f⟩, pop args.length]
  | seq _ first second =>
    let firstCode := first.code frame depth
    firstCode ++ pop 1 :: second.code frame (depth + effects firstCode - 1)
  | binary _ op left right =>
    let leftCode := left.code frame depth
    leftCode ++ right.code frame (depth + effects leftCode) ++ [op.instruction left.marked]
  | var _ x => (frame.get? x.id).toList.map load
  | num _ n => [⟨.pushInt, .int n⟩]
  | bool _ b => [⟨.pushBool, .int (.ofBool b)⟩]
  | letFun .. | apply .. => []

def codeOf (frame : Frame) (depth : Int) : List Expr → List Instruction
  | [] => []
  | arg :: args =>
    let argsCode := codeOf frame depth args
    argsCode ++ arg.code frame (depth + effects argsCode)

end

end Expr

namespace Function

open Instruction

def code (f : Function) : List Instruction :=
  [⟨.label, .label f.name⟩, ⟨.link, .empty⟩, lval (Frame.returnOffset f.params)] ++
    f.body.code (.forFunction f.params) 1 ++ [store f.resultTy, ⟨.unlink, .empty⟩, ⟨.rts, .empty⟩]

end Function

namespace Program

def mainCode (p : Program) : List Instruction :=
  ⟨.label, .label Module.mainLabel⟩ :: p.main.code .forMain 0 ++ [⟨.halt, .empty⟩]

def code (p : Program) : List Instruction := p.functions.flatMap Function.code ++ p.mainCode

end Program

namespace Frame

def Covers (frame : Frame) (s : Scopes) : Prop :=
  ∀ x t, s.vars.lookup x = some t → ∃ slot, frame.get? x = some slot

theorem get?_declare (frame : Frame) (x y : String) (t : Ty) (offset : Int) :
    (frame.declare x t offset).get? y = if y = x then some ⟨offset, t⟩ else frame.get? y := by
  by_cases h : y = x
  · simp [get?, declare, h]
  · simp [get?, declare, h, lookup_cons_of_ne h]

theorem Covers.declare {frame : Frame} {s : Scopes} (h : frame.Covers s) (x : String) (t u : Ty)
    (offset : Int) : (frame.declare x t offset).Covers (s.var x u) := by
  intro y v hy
  rw [get?_declare]
  by_cases hyx : y = x
  · exact ⟨_, if_pos hyx⟩
  · rw [Scopes.var_vars, lookup_cons_of_ne hyx] at hy
    simpa only [if_neg hyx] using h y v hy

theorem lookup_paramSlots {ps : List Param} {y : String} (hy : y ∈ ps.map Param.name)
    (offset : Int) : ∃ slot, (paramSlots offset ps).lookup y = some slot := by
  induction ps generalizing offset with
  | nil => cases hy
  | cons p ps ih =>
    simp only [paramSlots, List.lookup_append]
    by_cases hps : y ∈ ps.map Param.name
    · obtain ⟨slot, hslot⟩ := ih hps (offset + 1)
      exact ⟨slot, by simp [hslot]⟩
    · -- the slots of later parameters come first, so that they win over this one
      have hyp : y = p.name := (List.mem_cons.mp hy).resolve_right hps
      cases (paramSlots (offset + 1) ps).lookup y with
      | none => exact ⟨⟨offset, p.ty⟩, by simp [hyp]⟩
      | some slot => exact ⟨slot, rfl⟩

theorem forFunction_covers (ps : List Param) (lifted : List (String × Signature)) :
    (forFunction ps).Covers (Scopes.params { lifted := lifted } ps) := by
  intro y t hy
  rcases Scopes.mem_of_params_lookup hy with h | h
  · exact lookup_paramSlots h firstParam
  · simp at h

end Frame

namespace Expr

open Instruction

variable {s : Scopes} {frame : Frame}

theorem code_length_pos {e : Expr} {t : Ty} (h : e.Typed s t) (hflat : e.Flat)
    (hframe : frame.Covers s) (depth : Int) : 0 < (e.code frame depth).length := by
  cases e with
  | letFun | apply => exact hflat.elim
  | var i x =>
    cases h with
    | var _ hx =>
      obtain ⟨slot, hslot⟩ := hframe _ _ hx
      simp [code, hslot]
  | seq | binary =>
    simp only [code, List.length_append, List.length_cons]
    omega
  | letIn | call | num | bool => simp [code]

theorem length_le_codeOf {args : List Expr} {ts : List Ty} (h : ArgsTyped s args ts)
    (hflat : FlatAll args) (hframe : frame.Covers s) (depth : Int) :
    args.length ≤ (codeOf frame depth args).length := by
  induction args generalizing ts with
  | nil => simp
  | cons arg args ih =>
    cases h with
    | cons harg hargs =>
      have hpos := code_length_pos harg hflat.1 hframe
        (depth + effects (codeOf frame depth args))
      have hle := ih hargs hflat.2
      simp only [codeOf, List.length_append, List.length_cons]
      omega

theorem effect_pop (count : Nat) (h : count ≤ Word.greatest) :
    (pop count).effect = -(count : Int) := by
  have hle : (count : Int) < 2 ^ 31 := by
    unfold Word.greatest at h
    omega
  simp only [pop, effect, int?, OpCode.stackEffect, Option.map_some, Option.getD_some]
  rw [Int32.toInt_ofInt_of_le (by omega) hle]

theorem effects_codeOf {args : List Expr} {ts : List Ty} (h : ArgsTyped s args ts) (depth : Int)
    (hcode : ∀ a ∈ args, ∀ t depth, a.Typed s t → (a.code frame depth).length ≤ Word.greatest →
      effects (a.code frame depth) = 1)
    (hlen : (codeOf frame depth args).length ≤ Word.greatest) :
    effects (codeOf frame depth args) = args.length := by
  induction args generalizing ts with
  | nil => rfl
  | cons arg args ih =>
    cases h with
    | cons harg hargs =>
      simp only [codeOf, List.length_append] at hlen
      have hrest := ih hargs (fun a ha => hcode a (by simp [ha])) (by omega)
      have hhead := hcode arg (by simp) _ (depth + effects (codeOf frame depth args)) harg (by omega)
      simp only [codeOf, effects_append, List.length_cons, hhead]
      omega

/-- Code that is not longer than the greatest word pushes one cell. -/
theorem effects_code {e : Expr} {t : Ty} (h : e.Typed s t) (hflat : e.Flat)
    (hframe : frame.Covers s) (depth : Int) (hlen : (e.code frame depth).length ≤ Word.greatest) :
    effects (e.code frame depth) = 1 := by
  induction e generalizing s frame t depth with
  | letFun | apply => exact hflat.elim
  | letIn i x value body ihv ihb =>
    cases h with
    | @letIn _ _ _ _ _ u _ _ hvalue hbody =>
      simp only [code, List.length_append, List.length_cons, List.length_nil] at hlen
      have hv := ihv hvalue hflat.1 hframe (depth + 3) (by omega)
      rw [hv] at hlen
      have hb := ihb hbody hflat.2 (hframe.declare x.id value.marked u (-(depth + 2)))
        (depth + 1 + 2) (by omega)
      simp only [code, effects_append, effects_cons, effects_nil, effect_decl_one, effect_lval,
        effect_store, effect_pop_one, hv, hb]
      rfl
  | call i f args ih =>
    cases h with
    | call _ _ hargs =>
      simp only [code, List.length_append, List.length_cons, List.length_nil] at hlen
      -- there are no more arguments than instructions for them, so their number is a word
      have hcount := length_le_codeOf hargs hflat hframe (depth + 1)
      have ha := effects_codeOf hargs (depth + 1)
        (fun a ha t d h hd => ih a ha h (flatAll_iff.mp hflat a ha) hframe d hd) (by omega)
      have hbsr : effect ⟨.bsr, .label f⟩ = 0 := rfl
      simp only [code, effects_append, effects_cons, effects_nil, effect_decl_one, ha, hbsr,
        effect_pop args.length (by omega)]
      omega
  | seq i first second ihf ihs =>
    cases h with
    | seq _ hfirst hsecond =>
      simp only [code, List.length_append, List.length_cons] at hlen
      have hf := ihf hfirst hflat.1 hframe depth (by omega)
      rw [hf] at hlen
      have hs := ihs hsecond hflat.2 hframe (depth + 1 - 1) (by omega)
      simp only [code, effects_append, effects_cons, effect_pop_one, hf, hs]
      rfl
  | binary i op left right ihl ihr =>
    cases h with
    | binary _ hleft hright _ =>
      simp only [code, List.length_append, List.length_cons, List.length_nil] at hlen
      have hl := ihl hleft hflat.1 hframe depth (by omega)
      rw [hl] at hlen
      have hr := ihr hright hflat.2 hframe (depth + 1) (by omega)
      simp only [code, effects_append, effects_cons, effects_nil, BinOp.effect_instruction, hl, hr]
      rfl
  | var i x =>
    cases h with
    | var _ hx =>
      obtain ⟨slot, hslot⟩ := hframe _ _ hx
      simp [code, hslot]
  | num | bool => rfl

end Expr

namespace Generator

open Instruction

def append (g : Generator) (is : List Instruction) : Generator := g.emit (is.foldl Emitter.push ·)

@[simp] theorem append_nil (g : Generator) : g.append [] = g := rfl

@[simp] theorem append_append (g : Generator) (is js : List Instruction) :
    (g.append is).append js = g.append (is ++ js) := by
  simp [append, emit]

@[simp] theorem append_frame (g : Generator) (is : List Instruction) :
    (g.append is).frame = g.frame := rfl

@[simp] theorem append_depth (g : Generator) (is : List Instruction) :
    (g.append is).emitter.depth = g.emitter.depth + effects is := by
  induction is generalizing g with
  | nil => simp
  | cons i is ih =>
    have h := ih (g.append [i])
    rw [append_append] at h
    rw [effects_cons, ← Int.add_assoc]
    exact h

@[simp] theorem append_labels (g : Generator) (is : List Instruction) :
    (g.append is).emitter.labels = g.emitter.labels := by
  induction is generalizing g with
  | nil => rfl
  | cons i is ih => exact ih (g.append [i])

@[simp] theorem append_code (g : Generator) (is : List Instruction) :
    (g.append is).emitter.module.code.toList = g.emitter.module.code.toList ++ is := by
  induction is generalizing g with
  | nil => simp
  | cons i is ih =>
    refine (ih (g.append [i])).trans ?_
    simp [append, emit, Emitter.push, Module.push]

section

variable (g : Generator)

theorem emit_store (t : Ty) : g.emit (·.store t) = g.append [store t] := by cases t <;> rfl

theorem emit_load (slot : Slot) : g.emit (·.load slot.ty slot.offset) = g.append [load slot] := by
  rcases slot with ⟨offset, _ | _⟩ <;> rfl

theorem append_declare (is : List Instruction) (x : String) (t : Ty) (offset : Int) :
    (g.append is).declare x t offset = (g.declare x t offset).append is := rfl

theorem append_release (is : List Instruction) : (g.append is).release = g.release.append is := rfl

theorem declare_release (x : String) (t : Ty) (offset : Int) :
    (g.declare x t offset).release = g := rfl

end

theorem typeOf_eq {s : Scopes} {e : Expr} {t : Ty} (h : e.Typed s t) : typeOf e = .ok e.marked := by
  simp [typeOf, Expr.marked, h.ty_eq]

/-- A `let` has one phase before its value, one between value and body, and one at its end. -/
theorem expr_letIn {s s' : Scopes} {i : Info} {x : Name} {value body : Expr} {t u : Ty}
    {g : Generator} (hvalue : value.Typed s u) (hbody : body.Typed s' t) :
    expr (.letIn i x value body) g = do
      let g₁ ← expr value (g.append [decl 1, decl 1, lval (-(g.emitter.depth + 2))])
      let g₂ ← expr body ((g₁.append [store value.marked, lval (-(g.emitter.depth + 1))]).declare
        x.id value.marked (-(g.emitter.depth + 2)))
      return (g₂.append [store body.marked, pop 1]).release := by
  have hslot : (g.append [decl 1]).emitter.nextSlot = -(g.emitter.depth + 2) := by
    simp only [Emitter.nextSlot, append_depth, effects_cons, effect_decl_one, effects_nil]
    omega
  rw [← hslot]
  simp only [expr, typeOf_eq hvalue, typeOf_eq hbody, emit_store]
  rfl

theorem operator_eq {s : Scopes} {e : Expr} {t : Ty} (op : BinOp) (h : e.Typed s t) :
    ∃ code, operator op e = .ok code ∧ op.instruction e.marked = ⟨code, .empty⟩ := by
  cases op with
  | add | sub | lt => exact ⟨_, rfl, rfl⟩
  | eq =>
    rw [operator, typeOf_eq h]
    cases e.marked <;> exact ⟨_, rfl, rfl⟩

theorem arguments_append {args : List Expr} {s : Scopes} {ts : List Ty} {g : Generator}
    (hexpr : ∀ a ∈ args, ∀ t (g : Generator), a.Typed s t → g.frame.Covers s →
      expr a g = .ok (g.append (a.code g.frame g.emitter.depth)))
    (h : Expr.ArgsTyped s args ts) (hframe : g.frame.Covers s) :
    arguments args g = .ok (g.append (Expr.codeOf g.frame g.emitter.depth args)) := by
  induction args generalizing ts with
  | nil => rfl
  | cons arg args ih =>
    cases h with
    | cons harg hargs =>
      simp only [arguments, bind_eq_ok]
      refine ⟨_, ih (fun a ha => hexpr a (by simp [ha])) hargs, ?_⟩
      refine (hexpr arg (by simp) _ (g.append _) harg hframe).trans ?_
      simp [Expr.codeOf]

/-- Generating a typed and flat tree adds its code and leaves the frame as it was. -/
theorem expr_append {e : Expr} {s : Scopes} {t : Ty} {g : Generator} (h : e.Typed s t)
    (hflat : e.Flat) (hframe : g.frame.Covers s) :
    expr e g = .ok (g.append (e.code g.frame g.emitter.depth)) := by
  induction e generalizing s t g with
  | letIn i x value body ihv ihb =>
    cases h with
    | @letIn _ _ _ _ _ u _ _ hvalue hbody =>
      let opened := g.append [decl 1, decl 1, lval (-(g.emitter.depth + 2))]
      have hv := ihv hvalue hflat.1 (g := opened) hframe
      have hopened : opened.emitter.depth = g.emitter.depth + 3 := by simp [opened]
      rw [hopened] at hv
      let valueCode := value.code g.frame (g.emitter.depth + 3)
      let bound := ((opened.append valueCode).append
        [store value.marked, lval (-(g.emitter.depth + 1))]).declare x.id value.marked
          (-(g.emitter.depth + 2))
      have hb := ihb hbody hflat.2 (g := bound) (hframe.declare x.id value.marked u _)
      -- the depth is that of the emitter, whatever the value's code does to it
      have hbound : bound.emitter.depth = g.emitter.depth + effects valueCode + 2 := by
        simp only [bound, declare, append_depth, hopened, effects_cons, effects_nil, effect_store,
          effect_lval]
        omega
      rw [hbound] at hb
      rw [expr_letIn hvalue hbody]
      simp only [bind_eq_ok]
      refine ⟨_, hv, _, hb, ?_⟩
      simp only [bound, opened, append_declare, append_append, append_release, declare_release,
        Expr.code, List.append_assoc, List.cons_append, List.nil_append]
      rfl
  | letFun | apply => exact hflat.elim
  | call i f args ih =>
    cases h with
    | call _ _ hargs =>
      simp only [expr, bind_eq_ok]
      refine ⟨_, arguments_append (fun a ha t g h => ih a ha h (Expr.flatAll_iff.mp hflat a ha))
        hargs hframe (g := g.append [decl 1]), ?_⟩
      have hdepth : (g.append [decl 1]).emitter.depth = g.emitter.depth + 1 := by simp
      rw [Expr.code, hdepth, ← append_append]
      rfl
  | seq i first second ihf ihs =>
    cases h with
    | seq _ hfirst hsecond =>
      simp only [expr, bind_eq_ok]
      have hs := ihs hsecond hflat.2
        (g := (g.append (first.code g.frame g.emitter.depth)).append [pop 1]) hframe
      refine ⟨_, ihf hfirst hflat.1 hframe, hs.trans ?_⟩
      simp [Expr.code, ← Int.add_assoc, Int.sub_eq_add_neg]
  | binary i op left right ihl ihr =>
    cases h with
    | binary _ hleft hright _ =>
      simp only [expr, bind_eq_ok]
      obtain ⟨code, hcode, hop⟩ := operator_eq op hleft
      refine ⟨_, ihl hleft hflat.1 hframe, _, ihr hright hflat.2 hframe, code, hcode, ?_⟩
      rw [Expr.code, hop, ← append_append, ← append_append, append_depth]
      rfl
  | var i x =>
    cases h with
    | var _ hx =>
      obtain ⟨slot, hslot⟩ := hframe _ _ hx
      simp only [expr, hslot, Expr.code, emit_load]
      rfl
  | num | bool => rfl

def mark (g : Generator) (name : String) : Generator :=
  { g with emitter := { g.emitter with labels := name :: g.emitter.labels } }.append
    [⟨.label, .label name⟩]

@[simp] theorem mark_labels (g : Generator) (name : String) :
    (g.mark name).emitter.labels = name :: g.emitter.labels := rfl

@[simp] theorem mark_code (g : Generator) (name : String) :
    (g.mark name).emitter.module.code.toList =
      g.emitter.module.code.toList ++ [⟨.label, .label name⟩] :=
  append_code _ _

theorem label_eq {g : Generator} {name : String} (h : name ∉ g.emitter.labels) :
    g.label name = .ok (g.mark name) := by
  simp only [label, Emitter.label, if_neg h]
  rfl

/-- Generating a function adds its label and its code. -/
theorem function_append {lifted : List (String × Signature)} {f : Function} {g : Generator}
    (hf : f.Typed lifted) (hflat : f.body.Flat) (hname : f.name ∉ g.emitter.labels) :
    ∃ g', function f g = .ok g' ∧ g'.emitter.labels = f.name :: g.emitter.labels ∧
      g'.emitter.module.code.toList = g.emitter.module.code.toList ++ f.code := by
  let entered := (g.enter (.forFunction f.params)).mark f.name
  -- the depth is counted anew from the start of the frame
  let linked := (entered.append [⟨.link, .empty⟩]).emit (·.resetDepth)
  let opened := linked.append [lval (Frame.returnOffset f.params)]
  let bodyCode := f.body.code (.forFunction f.params) 1
  have hbody : expr f.body opened = .ok (opened.append bodyCode) :=
    expr_append (g := opened) hf hflat (Frame.forFunction_covers f.params lifted)
  refine ⟨(opened.append bodyCode).append [store f.resultTy, ⟨.unlink, .empty⟩, ⟨.rts, .empty⟩],
    ?_, ?_, ?_⟩
  · simp only [function, bind_eq_ok]
    refine ⟨entered, label_eq hname, _, hbody, ?_⟩
    cases f.resultTy <;> rfl
  · simp only [append_labels, opened]
    exact (append_labels _ _).trans rfl
  · have hlinked : linked.emitter.module.code.toList =
        g.emitter.module.code.toList ++ [⟨.label, .label f.name⟩] ++ [⟨.link, .empty⟩] := by
      refine (append_code _ _).trans ?_
      rw [mark_code]
      rfl
    simp [opened, hlinked, Function.code, bodyCode]

theorem functions_append {lifted : List (String × Signature)} {fs : List Function} {g : Generator}
    (hfs : ∀ f ∈ fs, f.Typed lifted ∧ f.body.Flat) (hnodup : (fs.map Function.name).Nodup)
    (hfresh : ∀ f ∈ fs, f.name ∉ g.emitter.labels) :
    ∃ g', functions fs g = .ok g' ∧
      (∀ name ∈ g'.emitter.labels, name ∈ fs.map Function.name ∨ name ∈ g.emitter.labels) ∧
      g'.emitter.module.code.toList =
        g.emitter.module.code.toList ++ fs.flatMap Function.code := by
  induction fs generalizing g with
  | nil => exact ⟨g, rfl, fun _ h => .inr h, by simp⟩
  | cons f fs ih =>
    simp only [List.map_cons, List.nodup_cons] at hnodup
    obtain ⟨hf, hflat⟩ := hfs f (by simp)
    obtain ⟨g₁, hg₁, hlabels₁, hcode₁⟩ := function_append hf hflat (hfresh f (by simp))
    have hfresh₁ : ∀ h ∈ fs, h.name ∉ g₁.emitter.labels := by
      intro h hh
      rw [hlabels₁, List.mem_cons, not_or]
      exact ⟨fun he => hnodup.1 (he ▸ List.mem_map_of_mem hh), hfresh h (by simp [hh])⟩
    obtain ⟨g₂, hg₂, hlabels₂, hcode₂⟩ := ih (fun h hh => hfs h (by simp [hh])) hnodup.2 hfresh₁
    refine ⟨g₂, ?_, ?_, by rw [hcode₂, hcode₁]; simp⟩
    · simp only [functions, bind_eq_ok]
      exact ⟨g₁, hg₁, hg₂⟩
    · intro name hname
      rcases hlabels₂ name hname with h | h
      · exact .inl (List.mem_cons_of_mem _ h)
      · rw [hlabels₁] at h
        rcases List.mem_cons.mp h with rfl | h
        · exact .inl List.mem_cons_self
        · exact .inr h

end Generator

namespace Program

/-- A well-typed program is generated, and its module is its code. -/
theorem generate_eq {p : Program} {t : Ty} (h : p.WellTyped t) :
    p.generate = .ok ⟨p.code.toArray⟩ := by
  obtain ⟨g₁, hg₁, hlabels, hcode⟩ := Generator.functions_append (g := {}) h.functions h.nodup
    (by intro f _ hf; cases hf)
  have hmain : Module.mainLabel ∉ g₁.emitter.labels := by
    intro hm
    rcases hlabels _ hm with hm | hm
    · exact h.mainLabel hm
    · cases hm
  let opened := ((g₁.enter .forMain).emit (·.resetDepth)).mark Module.mainLabel
  let mainCode := p.main.code .forMain 0
  have hbody : Generator.expr p.main opened = .ok (opened.append mainCode) :=
    Generator.expr_append (g := opened) h.main.1 h.main.2 (by intro x u hx; simp at hx)
  have hprogram : Generator.program p {} =
      .ok ((opened.append mainCode).append [⟨.halt, .empty⟩]) := by
    simp only [Generator.program, bind_eq_ok]
    exact ⟨g₁, hg₁, opened, Generator.label_eq hmain, _, hbody, rfl⟩
  have hopened : opened.emitter.module.code.toList =
      p.functions.flatMap Function.code ++ [⟨.label, .label Module.mainLabel⟩] := by
    rw [Generator.mark_code]
    exact congrArg (· ++ _) hcode
  rw [generate, hprogram]
  refine congrArg (fun code => Except.ok (Module.mk code)) ?_
  apply Array.toList_inj.mp
  simp [hopened, code, Program.mainCode, mainCode]

end Program

end LetStack
