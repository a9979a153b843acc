import LetStack.Proofs.BalancedGeneration

namespace LetStack

namespace Generator

open Instruction

def size (g : Generator) : Nat := g.emitter.module.size

@[simp] theorem append_size (g : Generator) (is : List Instruction) :
    (g.append is).size = g.size + is.length := by
  have h := congrArg List.length (append_code g is)
  rwa [List.length_append, Array.length_toList, Array.length_toList] at h

variable {g g' : Generator}

theorem arguments_size {args : List Expr}
    (hexpr : ∀ a ∈ args, ∀ g g', expr a g = .ok g' → g.size < g'.size)
    (h : arguments args g = .ok g') : g.size + args.length ≤ g'.size := by
  induction args generalizing g' with
  | nil =>
    cases h
    simp
  | cons arg args ih =>
    simp only [arguments, bind_eq_ok] at h
    obtain ⟨g₁, hg₁, h⟩ := h
    have hargs := ih (fun a ha => hexpr a (by simp [ha])) hg₁
    have harg := hexpr arg (by simp) g₁ g' h
    rw [List.length_cons]
    omega

/-- No tree is without code. -/
theorem expr_size {e : Expr} (h : expr e g = .ok g') : g.size < g'.size := by
  induction e generalizing g g' with
  | letFun | apply => cases h
  | letIn i x value body ihv ihb =>
    obtain ⟨t, u, g₁, g₂, -, -, hg₁, hg₂, rfl⟩ := expr_letIn_eq_ok.mp h
    have hvalue := ihv hg₁
    have hbody := ihb hg₂
    simp only [append_size] at hvalue
    change (g₁.append _).size < _ at hbody
    change _ < (g₂.append _).size
    simp only [append_size, List.length_cons, List.length_nil] at *
    omega
  | call i f args ih =>
    obtain ⟨g₁, hg₁, rfl⟩ := expr_call_eq_ok.mp h
    have hargs := arguments_size (fun a ha g g' => ih a ha) hg₁
    simp only [append_size, List.length_cons, List.length_nil] at *
    omega
  | seq i first second ihf ihs =>
    simp only [expr, bind_eq_ok] at h
    obtain ⟨g₁, hg₁, h⟩ := h
    have hsecond : (g₁.append [pop 1]).size < g'.size := ihs h
    have hfirst := ihf hg₁
    rw [append_size] at hsecond
    omega
  | binary i op left right ihl ihr =>
    obtain ⟨g₁, g₂, code, hg₁, hg₂, -, rfl⟩ := expr_binary_eq_ok.mp h
    have hleft := ihl hg₁
    have hright := ihr hg₂
    rw [append_size]
    omega
  | var i x =>
    obtain ⟨slot, -, rfl⟩ := expr_var_eq_ok.mp h
    simp
  | num i n =>
    cases h
    exact (append_size g [⟨.pushInt, .int n⟩]).ge
  | bool i b =>
    cases h
    exact (append_size g [⟨.pushBool, .int (.ofBool b)⟩]).ge

theorem label_size {name : String} (h : g.label name = .ok g') : g'.size = g.size + 1 := by
  simp only [label, Emitter.label, bind_eq_ok] at h
  obtain ⟨e, he, hg'⟩ := h
  cases hg'
  split at he
  next => cases he
  next =>
    cases he
    exact Array.size_push _

/-- The phases of a function: up to its body, and its end. -/
theorem of_function {f : Function} (h : function f g = .ok g') :
    ∃ g₁ g₂, (g.enter (.forFunction f.params)).label f.name = .ok g₁ ∧
      expr f.body (g₁.emit fun e => (e.emit .link).resetDepth.lval (Frame.returnOffset f.params)) =
        .ok g₂ ∧ g₁.size + 2 < g₂.size ∧ g'.size = g₂.size + 3 := by
  simp only [function, bind_eq_ok] at h
  obtain ⟨g₁, hlabel, g₂, hbody, hend⟩ := h
  refine ⟨g₁, g₂, hlabel, hbody, ?_, ?_⟩
  · let linked := (g₁.append [⟨.link, .empty⟩]).emit (·.resetDepth)
    have hlinked : linked.size = g₁.size + 1 := append_size g₁ [⟨.link, .empty⟩]
    have hopened := append_size linked [lval (Frame.returnOffset f.params)]
    have hlt : (linked.append [lval (Frame.returnOffset f.params)]).size < g₂.size := expr_size hbody
    rw [List.length_singleton] at hopened
    omega
  · have hclose : g' = g₂.append [store f.resultTy, ⟨.unlink, .empty⟩, ⟨.rts, .empty⟩] := by
      rw [← Except.ok.inj hend]
      cases f.resultTy <;> rfl
    rw [hclose, append_size]
    rfl

theorem functions_size {fs : List Function} (h : functions fs g = .ok g') : g.size ≤ g'.size := by
  induction fs generalizing g with
  | nil =>
    cases h
    exact Nat.le_refl _
  | cons f fs ih =>
    simp only [functions, bind_eq_ok] at h
    obtain ⟨g₁, hg₁, h⟩ := h
    obtain ⟨h₁, h₂, hlabel, -, hlt, hsize⟩ := of_function hg₁
    have hlabelled := label_size hlabel
    change _ = g.size + 1 at hlabelled
    have hrest := ih h
    omega

end Generator

namespace WordGenerator

open Instruction Generator

variable {g : WordGenerator} {h : Generator}

def size (g : WordGenerator) : Nat := g.emitter.module.size

theorem wide_size (g : WordGenerator) : g.wide.size = g.size := rfl

/-- The depth is not negative, and no greater than the number of instructions. -/
structure Shallow (g : WordGenerator) : Prop where
  nonneg : 0 ≤ g.depth
  le_size : g.depth ≤ g.size

theorem emit_depth {g' : WordGenerator} {i : Instruction} (h : g.emit i = .ok g') :
    g'.depth = g.depth + i.effect := by
  rw [depth_of_wide (emit_wide h), append_depth, effects_cons, effects_nil, Int.add_zero]
  rfl

theorem emit_size {g' : WordGenerator} {i : Instruction} (h : g.emit i = .ok g') :
    g'.size = g.size + 1 :=
  (congrArg Generator.size (emit_wide h)).trans (append_size _ _)

/-- Emitting succeeds if the cells that the instruction pushes can be counted, before and after. -/
theorem exists_emit_of_words {i : Instruction} {n : Int} (hi : i.effect = n)
    (hlow : -2147483648 ≤ n) (hhigh : n ≤ 2147483647) (hdepth : -2147483648 ≤ g.depth + n)
    (hdepth' : g.depth + n ≤ 2147483647) : ∃ g', g.emit i = .ok g' := by
  unfold depth at hdepth hdepth'
  obtain ⟨effect, heffect⟩ := Word.exists_fit (n := i.effect) (by omega) (by omega)
  have htoInt := Word.fit_eq_ok.mp heffect
  obtain ⟨d, hd⟩ := Word.exists_fit (n := g.emitter.depth.toInt + effect.toInt) (by omega) (by omega)
  simp only [emit, WordEmitter.push, bind_eq_ok]
  exact ⟨_, _, ⟨effect, heffect, d, hd, rfl⟩, rfl⟩

theorem exists_emit_of_effect_zero (g : WordGenerator) {i : Instruction} (hi : i.effect = 0) :
    ∃ g', g.emit i = .ok g' := by
  have hbounds : -2147483648 ≤ g.depth ∧ g.depth ≤ 2147483647 := Word.toInt_bounds g.emitter.depth
  exact exists_emit_of_words hi (by omega) (by omega) (by omega) (by omega)

/-- An instruction that pushes one cell at most, and drops no more than there are, does not overflow
while the code is shorter than the greatest word. -/
theorem Shallow.exists_emit (hg : g.Shallow) {i : Instruction} {n : Int} (hi : i.effect = n)
    (hsize : g.size < Word.greatest) (hlow : 0 ≤ g.depth + n) (hhigh : n ≤ 1) :
    ∃ g', g.emit i = .ok g' ∧ g'.Shallow ∧ g'.size = g.size + 1 ∧ g'.depth = g.depth + n := by
  obtain ⟨hnonneg, hle⟩ := hg
  unfold Word.greatest at hsize
  obtain ⟨g', hg'⟩ : ∃ g', g.emit i = .ok g' :=
    exists_emit_of_words hi (by omega) (by omega) (by omega) (by omega)
  have hdepth := emit_depth hg'
  have hsize' := emit_size hg'
  exact ⟨g', hg', ⟨by omega, by omega⟩, hsize', by omega⟩

theorem Shallow.exists_nextSlot (hg : g.Shallow) (hsize : g.size < Word.greatest) :
    ∃ w, g.emitter.nextSlot = .ok w := by
  have hnonneg := hg.nonneg
  have hle := hg.le_size
  unfold depth at hnonneg hle
  unfold Word.greatest at hsize
  obtain ⟨next, hnext⟩ := Word.exists_fit (n := g.emitter.depth.toInt + 1) (by omega) (by omega)
  have htoInt := Word.fit_eq_ok.mp hnext
  obtain ⟨w, hw⟩ := Word.exists_fit (n := -next.toInt) (by omega) (by omega)
  refine ⟨w, ?_⟩
  simp only [WordEmitter.nextSlot, bind_eq_ok]
  exact ⟨next, hnext, hw⟩

theorem Shallow.exists_openLet (hg : g.Shallow) (hsize : g.size + 3 ≤ Word.greatest) :
    ∃ opened, g.openLet = .ok opened ∧ opened.generator.Shallow := by
  have hnonneg := hg.nonneg
  obtain ⟨result, hresult⟩ := hg.exists_nextSlot (by omega)
  obtain ⟨g₁, hg₁, hshallow₁, hsize₁, hdepth₁⟩ :=
    hg.exists_emit effect_decl_one (by omega) (by omega) (by omega)
  obtain ⟨slot, hslot⟩ := hshallow₁.exists_nextSlot (by omega)
  obtain ⟨g₂, hg₂, hshallow₂, hsize₂, hdepth₂⟩ :=
    hshallow₁.exists_emit effect_decl_one (by omega) (by omega) (by omega)
  obtain ⟨g₃, hg₃, hshallow₃, -⟩ :=
    hshallow₂.exists_emit (effect_lval slot.toInt) (by omega) (by omega) (by omega)
  refine ⟨⟨result, slot, g₃⟩, ?_, hshallow₃⟩
  simp only [openLet, bind_eq_ok]
  exact ⟨result, hresult, g₁, hg₁, slot, hslot, g₂, hg₂, g₃, hg₃, rfl⟩

theorem Shallow.exists_bindLet (hg : g.Shallow) (hdepth : 2 ≤ g.depth)
    (hsize : g.size + 2 ≤ Word.greatest) (x : String) (t : Ty) (opened : OpenLet) :
    ∃ g', g.bindLet x t opened = .ok g' ∧ g'.Shallow ∧ g'.depth = g.depth - 1 := by
  obtain ⟨g₁, hg₁, hshallow₁, hsize₁, hdepth₁⟩ :=
    hg.exists_emit (effect_store t) (by omega) (by omega) (by omega)
  have hdeclared : (g₁.declare x t opened.slot).Shallow := ⟨hshallow₁.nonneg, hshallow₁.le_size⟩
  have hsize' : (g₁.declare x t opened.slot).size = g.size + 1 := hsize₁
  have hdepth' : (g₁.declare x t opened.slot).depth = g.depth - 2 := hdepth₁
  obtain ⟨g₂, hg₂, hshallow₂, -, hdepth₂⟩ :=
    hdeclared.exists_emit (effect_lval opened.result.toInt) (by omega) (by omega) (by omega)
  refine ⟨g₂, ?_, hshallow₂, by omega⟩
  simp only [bindLet, bind_eq_ok]
  exact ⟨g₁, hg₁, hg₂⟩

/-- The end of a `let`, after its body. -/
theorem Shallow.exists_closeLet (hg : g.Shallow) (hdepth : 3 ≤ g.depth)
    (hsize : g.size + 2 ≤ Word.greatest) (t : Ty) :
    ∃ g₁ g', g.emit (store t) = .ok g₁ ∧ g₁.release.emit (pop 1) = .ok g' := by
  obtain ⟨g₁, hg₁, hshallow₁, hsize₁, hdepth₁⟩ :=
    hg.exists_emit (effect_store t) (by omega) (by omega) (by omega)
  have hreleased : g₁.release.Shallow := ⟨hshallow₁.nonneg, hshallow₁.le_size⟩
  have hsize' : g₁.release.size = g.size + 1 := hsize₁
  have hdepth' : g₁.release.depth = g.depth - 2 := hdepth₁
  obtain ⟨g', hg', -⟩ := hreleased.exists_emit effect_pop_one (by omega) (by omega) (by omega)
  exact ⟨g₁, g', hg₁, hg'⟩

/-- After the code of a tree the depth is still no greater than the number of instructions. -/
theorem Shallow.of_expr (hg : g.Shallow) {e : Expr} {g' : WordGenerator} (h : expr e g = .ok g') :
    g'.Shallow ∧ g'.depth = g.depth + 1 ∧ g.size < g'.size := by
  have hdepth : g'.depth = g.depth + 1 := (expr_adds h).depth
  have hsize : g.size < g'.size := expr_size (expr_wide h)
  obtain ⟨hnonneg, hle⟩ := hg
  exact ⟨⟨by omega, by omega⟩, hdepth, hsize⟩

theorem exists_arguments {args : List Expr}
    (hexpr : ∀ a ∈ args, ∀ (g : WordGenerator) (h : Generator), Generator.expr a g.wide = .ok h →
      g.Shallow → h.size ≤ Word.greatest → ∃ g', expr a g = .ok g' ∧ g'.wide = h)
    (hargs : Generator.arguments args g.wide = .ok h) (hg : g.Shallow)
    (hsize : h.size ≤ Word.greatest) :
    ∃ g', arguments args g = .ok g' ∧ g'.wide = h ∧ g'.Shallow := by
  induction args generalizing h with
  | nil =>
    cases hargs
    exact ⟨g, rfl, rfl, hg⟩
  | cons arg args ih =>
    simp only [Generator.arguments, bind_eq_ok] at hargs
    obtain ⟨h₁, hh₁, hh⟩ := hargs
    have hlt := expr_size hh
    obtain ⟨g₁, hg₁, rfl, hshallow⟩ := ih (fun a ha => hexpr a (by simp [ha])) hh₁ (by omega)
    obtain ⟨g', hg', hwide⟩ := hexpr arg (by simp) g₁ h hh hshallow hsize
    refine ⟨g', ?_, hwide, (hshallow.of_expr hg').1⟩
    simp only [arguments, bind_eq_ok]
    exact ⟨g₁, hg₁, hg'⟩

theorem exists_wide {e : Expr} (he : Generator.expr e g.wide = .ok h)
    (hok : ∃ g', expr e g = .ok g') :
    ∃ g', expr e g = .ok g' ∧ g'.wide = h := by
  obtain ⟨g', hg'⟩ := hok
  exact ⟨g', hg', Except.ok.inj ((expr_wide hg').symm.trans he)⟩

/-- Code that is no longer than the greatest word is generated in words as well. -/
theorem Shallow.exists_expr (hg : g.Shallow) {e : Expr} (he : Generator.expr e g.wide = .ok h)
    (hsize : h.size ≤ Word.greatest) : ∃ g', expr e g = .ok g' ∧ g'.wide = h := by
  refine exists_wide he ?_
  induction e generalizing g h with
  | letFun | apply => cases he
  | letIn i x value body ihv ihb =>
    obtain ⟨t, u, h₁, h₂, ht, hu, hvalue, hbody, rfl⟩ := expr_letIn_eq_ok.mp he
    have hlt₁ := expr_size hvalue
    have hlt₂ := expr_size hbody
    change (h₁.append _).size < _ at hlt₂
    change (h₂.append _).size ≤ _ at hsize
    simp only [append_size, wide_size, List.length_cons, List.length_nil] at hlt₁ hlt₂ hsize
    obtain ⟨opened, hopened, hshallow⟩ := hg.exists_openLet (by omega)
    obtain ⟨hresult, hslot, hwide⟩ := openLet_eq_ok hopened
    rw [← hwide] at hvalue
    obtain ⟨g₁, hg₁, rfl⟩ := exists_wide hvalue (ihv hshallow hvalue (by omega))
    -- the depths from here on are those of a `let` that succeeds
    have hnonneg := hg.nonneg
    have hdepth : opened.generator.depth = g.depth + 3 := (adds_openLet hopened).depth
    obtain ⟨hshallow₁, hdepth₁, -⟩ := hshallow.of_expr hg₁
    simp only [wide_size] at hlt₂
    obtain ⟨g₂, hg₂, hshallow₂, hdepth₂⟩ :=
      hshallow₁.exists_bindLet (by omega) (by omega) x.id t opened
    rw [← hresult, ← hslot, ← bindLet_wide hg₂] at hbody
    obtain ⟨g₃, hg₃, rfl⟩ := exists_wide hbody (ihb hshallow₂ hbody (by omega))
    obtain ⟨hshallow₃, hdepth₃, -⟩ := hshallow₂.of_expr hg₃
    rw [wide_size] at hsize
    obtain ⟨g₄, g', hg₄, hg'⟩ := hshallow₃.exists_closeLet (by omega) (by omega) u
    refine ⟨g', ?_⟩
    simp only [expr, bind_eq_ok, typeOf, mapError_eq_ok]
    exact ⟨t, ht, u, hu, opened, hopened, g₁, hg₁, g₂, hg₂, g₃, hg₃, g₄, hg₄, hg'⟩
  | call i f args ih =>
    obtain ⟨h₁, hargs, rfl⟩ := expr_call_eq_ok.mp he
    have hle := arguments_size (fun a _ g g' => expr_size) hargs
    simp only [append_size, wide_size, List.length_cons, List.length_nil] at hle hsize
    have hnonneg := hg.nonneg
    obtain ⟨g₁, hg₁, hshallow₁, -, hdepth₁⟩ :=
      hg.exists_emit effect_decl_one (by omega) (by omega) (by omega)
    have hopen : g.wide.append [decl 1] = g₁.wide := (emit_wide hg₁).symm
    rw [hopen] at hargs
    obtain ⟨g₂, hg₂, rfl, hshallow₂⟩ := exists_arguments
      (fun a ha g h he hg hsize => exists_wide he (ih a ha hg he hsize)) hargs hshallow₁ (by omega)
    have hdepth₂ : g₂.depth = g₁.depth + args.length :=
      (arguments_adds (fun a _ g g' => expr_adds) hg₂).depth
    simp only [wide_size] at hle hsize
    have hbsr : effect ⟨.bsr, .label f⟩ = 0 := rfl
    obtain ⟨g₃, hg₃, hshallow₃, hsize₃, hdepth₃⟩ :=
      hshallow₂.exists_emit hbsr (by omega) (by omega) (by omega)
    have hpop := Expr.effect_pop args.length (by omega)
    obtain ⟨g', hg', -⟩ := hshallow₃.exists_emit hpop (by omega) (by omega) (by omega)
    refine ⟨g', ?_⟩
    simp only [expr, bind_eq_ok]
    exact ⟨g₁, hg₁, g₂, hg₂, g₃, hg₃, hg'⟩
  | seq i first second ihf ihs =>
    simp only [Generator.expr, bind_eq_ok] at he
    obtain ⟨h₁, hfirst, hsecond⟩ := he
    change Generator.expr second (h₁.append [pop 1]) = _ at hsecond
    have hlt := expr_size hsecond
    rw [append_size] at hlt
    obtain ⟨g₁, hg₁, rfl⟩ := exists_wide hfirst (ihf hg hfirst (by omega))
    obtain ⟨hshallow₁, hdepth₁, -⟩ := hg.of_expr hg₁
    rw [wide_size] at hlt
    have hnonneg := hg.nonneg
    obtain ⟨g₂, hg₂, hshallow₂, -⟩ :=
      hshallow₁.exists_emit effect_pop_one (by omega) (by omega) (by omega)
    rw [← emit_wide hg₂] at hsecond
    obtain ⟨g', hg'⟩ := ihs hshallow₂ hsecond hsize
    refine ⟨g', ?_⟩
    simp only [expr, bind_eq_ok]
    exact ⟨g₁, hg₁, g₂, hg₂, hg'⟩
  | binary i op left right ihl ihr =>
    obtain ⟨h₁, h₂, code, hleft, hright, hcode, rfl⟩ := expr_binary_eq_ok.mp he
    have hlt := expr_size hright
    rw [append_size, List.length_singleton] at hsize
    obtain ⟨g₁, hg₁, rfl⟩ := exists_wide hleft (ihl hg hleft (by omega))
    obtain ⟨hshallow₁, hdepth₁, -⟩ := hg.of_expr hg₁
    obtain ⟨g₂, hg₂, rfl⟩ := exists_wide hright (ihr hshallow₁ hright (by omega))
    obtain ⟨hshallow₂, hdepth₂, -⟩ := hshallow₁.of_expr hg₂
    rw [wide_size] at hsize
    have hnonneg := hg.nonneg
    have heffect := (of_operator hcode).1
    obtain ⟨g', hg', -⟩ := hshallow₂.exists_emit heffect (by omega) (by omega) (by omega)
    refine ⟨g', ?_⟩
    simp only [expr, bind_eq_ok, operator, mapError_eq_ok]
    exact ⟨g₁, hg₁, g₂, hg₂, code, hcode, hg'⟩
  | var i x =>
    obtain ⟨slot, hslot, rfl⟩ := expr_var_eq_ok.mp he
    rw [append_size, wide_size, List.length_singleton] at hsize
    have hnonneg := hg.nonneg
    obtain ⟨g', hg', -⟩ := hg.exists_emit (effect_load slot) (by omega) (by omega) (by omega)
    have hget : g.frame.get? x.id = some slot := hslot
    refine ⟨g', ?_⟩
    rw [expr, hget]
    exact hg'
  | num i n =>
    have hlt : g.size < h.size := expr_size he
    have hnonneg := hg.nonneg
    have heffect : effect ⟨.pushInt, .int n⟩ = 1 := rfl
    obtain ⟨g', hg', -⟩ := hg.exists_emit heffect (by omega) (by omega) (by omega)
    exact ⟨g', hg'⟩
  | bool i b =>
    have hlt : g.size < h.size := expr_size he
    have hnonneg := hg.nonneg
    have heffect : effect ⟨.pushBool, .int (.ofBool b)⟩ = 1 := rfl
    obtain ⟨g', hg', -⟩ := hg.exists_emit heffect (by omega) (by omega) (by omega)
    exact ⟨g', hg'⟩

theorem exists_label {name : String} (hlabel : g.wide.label name = .ok h) :
    ∃ g', g.label name = .ok g' ∧ g'.wide = h := by
  have hname : name ∉ g.emitter.labels := by
    intro hmem
    have hmem' : name ∈ g.wide.emitter.labels := hmem
    rw [Generator.label, Emitter.label, if_pos hmem'] at hlabel
    cases hlabel
  obtain ⟨g₁, hg₁⟩ := exists_emit_of_effect_zero (i := ⟨.label, .label name⟩)
    { g with emitter := { g.emitter with labels := name :: g.emitter.labels } } rfl
  simp only [emit, bind_eq_ok] at hg₁
  obtain ⟨e, he, -⟩ := hg₁
  have hok : g.label name = .ok { g with emitter := e } := by
    simp only [label, WordEmitter.label, if_neg hname, bind_eq_ok]
    exact ⟨e, he, rfl⟩
  exact ⟨_, hok, Except.ok.inj ((label_wide hok).symm.trans hlabel)⟩

theorem exists_openFunction {f : Function}
    (hlabel : (g.wide.enter (.forFunction f.params)).label f.name = .ok h)
    (hparams : Frame.returnOffset f.params ≤ Word.greatest) (hsize : h.size + 2 ≤ Word.greatest) :
    ∃ g', openFunction f g = .ok g' ∧ g'.Shallow ∧ g'.depth = 1 ∧
      g'.wide = h.emit fun e => (e.emit .link).resetDepth.lval (Frame.returnOffset f.params) := by
  obtain ⟨result, hresult⟩ : ∃ w, Word.fit (Frame.returnOffset f.params) = .ok w := by
    unfold Word.greatest at hparams
    refine Word.exists_fit ?_ (by omega)
    unfold Frame.returnOffset Frame.firstParam
    omega
  obtain ⟨g₁, hg₁, rfl⟩ := exists_label (g := g.enter (.forFunction f.params)) hlabel
  obtain ⟨g₂, hg₂⟩ := exists_emit_of_effect_zero g₁ (i := ⟨.link, .empty⟩) rfl
  have hsize₂ := emit_size hg₂
  change g₂.resetDepth.size = _ at hsize₂
  have hdepth₂ : g₂.resetDepth.depth = 0 := rfl
  have hreset : g₂.resetDepth.Shallow := ⟨by omega, by omega⟩
  rw [wide_size] at hsize
  obtain ⟨g₃, hg₃, hshallow₃, -, hdepth₃⟩ :=
    hreset.exists_emit (effect_lval result.toInt) (by omega) (by omega) (by omega)
  refine ⟨g₃, ?_, hshallow₃, by omega, ?_⟩
  · simp only [openFunction, bind_eq_ok]
    exact ⟨result, hresult, g₁, hg₁, g₂, hg₂, hg₃⟩
  · have hwide₂ : g₂.resetDepth.wide = g₂.wide.emit (·.resetDepth) := rfl
    rw [emit_wide hg₃, hwide₂, emit_wide hg₂, Word.fit_eq_ok.mp hresult]
    rfl

theorem exists_function {f : Function} (hf : Generator.function f g.wide = .ok h)
    (hparams : Frame.returnOffset f.params ≤ Word.greatest) (hsize : h.size ≤ Word.greatest) :
    ∃ g', function f g = .ok g' ∧ g'.wide = h := by
  suffices hok : ∃ g', function f g = .ok g' by
    obtain ⟨g', hg'⟩ := hok
    exact ⟨g', hg', Except.ok.inj ((function_wide hg').symm.trans hf)⟩
  obtain ⟨h₁, h₂, hlabel, hbody, hlt, hend⟩ := of_function hf
  obtain ⟨g₁, hg₁, hshallow₁, hdepth₁, hwide⟩ := exists_openFunction hlabel hparams (by omega)
  rw [← hwide] at hbody
  obtain ⟨g₂, hg₂, rfl⟩ := hshallow₁.exists_expr hbody (by omega)
  obtain ⟨hshallow₂, hdepth₂, -⟩ := hshallow₁.of_expr hg₂
  rw [wide_size] at hend
  obtain ⟨g₃, hg₃, -⟩ :=
    hshallow₂.exists_emit (effect_store f.resultTy) (by omega) (by omega) (by omega)
  obtain ⟨g₄, hg₄⟩ := exists_emit_of_effect_zero g₃ (i := ⟨.unlink, .empty⟩) rfl
  obtain ⟨g₅, hg₅⟩ := exists_emit_of_effect_zero g₄ (i := ⟨.rts, .empty⟩) rfl
  refine ⟨g₅, ?_⟩
  simp only [function, bind_eq_ok]
  exact ⟨g₁, hg₁, g₂, hg₂, g₃, hg₃, g₄, hg₄, hg₅⟩

theorem exists_functions {fs : List Function} (hfs : Generator.functions fs g.wide = .ok h)
    (hparams : ∀ f ∈ fs, Frame.returnOffset f.params ≤ Word.greatest)
    (hsize : h.size ≤ Word.greatest) : ∃ g', functions fs g = .ok g' ∧ g'.wide = h := by
  induction fs generalizing g with
  | nil =>
    cases hfs
    exact ⟨g, rfl, rfl⟩
  | cons f fs ih =>
    simp only [Generator.functions, bind_eq_ok] at hfs
    obtain ⟨h₁, hh₁, hfs⟩ := hfs
    have hle := functions_size hfs
    obtain ⟨g₁, hg₁, rfl⟩ := exists_function hh₁ (hparams f (by simp)) (by omega)
    obtain ⟨g', hg', hwide⟩ := ih hfs fun f hf => hparams f (by simp [hf])
    refine ⟨g', ?_, hwide⟩
    simp only [functions, bind_eq_ok]
    exact ⟨g₁, hg₁, hg'⟩

theorem exists_program {p : Program} (hp : Generator.program p g.wide = .ok h)
    (hparams : ∀ f ∈ p.functions, Frame.returnOffset f.params ≤ Word.greatest)
    (hsize : h.size ≤ Word.greatest) : ∃ g', program p g = .ok g' ∧ g'.wide = h := by
  suffices hok : ∃ g', program p g = .ok g' by
    obtain ⟨g', hg'⟩ := hok
    exact ⟨g', hg', Except.ok.inj ((program_wide hg').symm.trans hp)⟩
  simp only [Generator.program, bind_eq_ok] at hp
  obtain ⟨h₁, hh₁, h₂, hlabel, h₃, hmain, hend⟩ := hp
  obtain rfl : h₃.append [⟨.halt, .empty⟩] = h := Except.ok.inj hend
  rw [append_size, List.length_singleton] at hsize
  have hlt := expr_size hmain
  have hle : h₁.size ≤ h₂.size := label_size hlabel ▸ Nat.le_succ _
  obtain ⟨g₁, hg₁, rfl⟩ := exists_functions hh₁ hparams (by omega)
  obtain ⟨g₂, hg₂, rfl⟩ := exists_label (g := (g₁.enter .forMain).resetDepth) hlabel
  have hdepth : g₂.depth = 0 := depth_of_wide (label_eq_ok hg₂).2
  obtain ⟨g₃, hg₃, rfl⟩ := Shallow.exists_expr ⟨by omega, by omega⟩ hmain (by omega)
  obtain ⟨g₄, hg₄⟩ := exists_emit_of_effect_zero g₃ (i := ⟨.halt, .empty⟩) rfl
  refine ⟨g₄, ?_⟩
  simp only [program, openMain, bind_eq_ok]
  exact ⟨g₁, hg₁, g₂, hg₂, g₃, hg₃, hg₄⟩

end WordGenerator

namespace Program

/-- A program whose code and whose parameters can be counted in words has the same code in words. -/
theorem generateInWords_eq_ok_iff {p : Program} {m : Module} (hsize : m.size ≤ Word.greatest)
    (hparams : ∀ f ∈ p.functions, Frame.returnOffset f.params ≤ Word.greatest) :
    p.generateInWords = .ok m ↔ p.generate = .ok m := by
  simp only [generateInWords, generate, bind_eq_ok]
  constructor
  · rintro ⟨g, hg, hm⟩
    exact ⟨g.wide, WordGenerator.program_wide hg, Except.ok.inj hm ▸ rfl⟩
  · rintro ⟨h, hh, hm⟩
    obtain rfl := Except.ok.inj hm
    obtain ⟨g, hg, rfl⟩ := WordGenerator.exists_program (g := {}) hh hparams hsize
    exact ⟨g, hg, rfl⟩

end Program

end LetStack
