import Mathlib
import LetStack.Code.WordGeneration
import LetStack.Proofs.Generation

namespace LetStack

theorem mapError_eq_ok {ε δ α : Type} {x : Except ε α} {f : ε → δ} {a : α} :
    x.mapError f = .ok a ↔ x = .ok a := by
  cases x <;> simp [Except.mapError]

theorem Word.toInt_bounds (w : Word) : -2147483648 ≤ w.toInt ∧ w.toInt ≤ 2147483647 := by
  have hlow := Int32.le_toInt w
  have hhigh := Int32.toInt_lt w
  omega

theorem Word.fit_eq_ok {n : Int} {w : Word} : Word.fit n = .ok w ↔ w.toInt = n := by
  unfold Word.fit
  split
  next hn =>
    have hofInt : (Int32.ofInt n).toInt = n := Int32.toInt_ofInt_of_le (by omega) (by omega)
    rw [Except.ok.injEq, ← Int32.toInt_inj, hofInt, eq_comm]
  next hn =>
    have hw := Word.toInt_bounds w
    constructor
    · exact nofun
    · intro h
      omega

theorem Word.exists_fit {n : Int} (hlow : -2147483648 ≤ n) (hhigh : n ≤ 2147483647) :
    ∃ w, Word.fit n = .ok w :=
  ⟨_, if_pos ⟨hlow, hhigh⟩⟩

namespace Generator

open Instruction

variable {i : Info} {g g' : Generator}

/-- The phases of a `let`: up to its value, up to its body, and its end. -/
theorem expr_letIn_eq_ok {x : Name} {value body : Expr} :
    expr (.letIn i x value body) g = .ok g' ↔
      ∃ t u g₁ g₂, typeOf value = .ok t ∧ typeOf body = .ok u ∧
        expr value (g.append [decl 1, decl 1, lval (-g.emitter.depth - 2)]) = .ok g₁ ∧
        expr body ((g₁.append [store t, lval (-g.emitter.depth - 1)]).declare x.id t
          (-g.emitter.depth - 2)) = .ok g₂ ∧
        g' = (g₂.append [store u, pop 1]).release := by
  have hresult : g.emitter.nextSlot = -g.emitter.depth - 1 := by
    unfold Emitter.nextSlot
    omega
  have hslot : (g.append [decl 1]).emitter.nextSlot = -g.emitter.depth - 2 := by
    simp only [Emitter.nextSlot, append_depth, effects_cons, effect_decl_one, effects_nil]
    omega
  rw [← hresult, ← hslot]
  simp only [expr, bind_eq_ok, emit_store]
  constructor
  · rintro ⟨t, ht, u, hu, g₁, hg₁, g₂, hg₂, hg'⟩
    exact ⟨t, u, g₁, g₂, ht, hu, hg₁, hg₂, (Except.ok.inj hg').symm⟩
  · rintro ⟨t, u, g₁, g₂, ht, hu, hg₁, hg₂, rfl⟩
    exact ⟨t, ht, u, hu, g₁, hg₁, g₂, hg₂, rfl⟩

theorem expr_call_eq_ok {f : String} {args : List Expr} :
    expr (.call i f args) g = .ok g' ↔
      ∃ g₁, arguments args (g.append [decl 1]) = .ok g₁ ∧
        g' = g₁.append [⟨.bsr, .label f⟩, pop args.length] := by
  simp only [expr, bind_eq_ok]
  exact exists_congr fun g₁ => and_congr_right' ⟨fun h => (Except.ok.inj h).symm, fun h => h ▸ rfl⟩

theorem expr_binary_eq_ok {op : BinOp} {left right : Expr} :
    expr (.binary i op left right) g = .ok g' ↔
      ∃ g₁ g₂ code, expr left g = .ok g₁ ∧ expr right g₁ = .ok g₂ ∧ operator op left = .ok code ∧
        g' = g₂.append [⟨code, .empty⟩] := by
  simp only [expr, bind_eq_ok]
  constructor
  · rintro ⟨g₁, hg₁, g₂, hg₂, code, hcode, hg'⟩
    exact ⟨g₁, g₂, code, hg₁, hg₂, hcode, (Except.ok.inj hg').symm⟩
  · rintro ⟨g₁, g₂, code, hg₁, hg₂, hcode, rfl⟩
    exact ⟨g₁, hg₁, g₂, hg₂, code, hcode, rfl⟩

theorem expr_var_eq_ok {x : Name} :
    expr (.var i x) g = .ok g' ↔ ∃ slot, g.frame.get? x.id = some slot ∧
      g' = g.append [load slot] := by
  simp only [expr, emit_load]
  cases g.frame.get? x.id <;> simp [eq_comm]

end Generator

namespace WordGenerator

open Instruction

/-- The same state, with its depth counted without bounds. -/
def wide (g : WordGenerator) : Generator :=
  { emitter :=
      { module := g.emitter.module, labels := g.emitter.labels, depth := g.emitter.depth.toInt }
    frame := g.frame }

section

variable {g g' : WordGenerator} {i : Instruction}

theorem emit_wide (h : g.emit i = .ok g') : g'.wide = g.wide.append [i] := by
  simp only [emit, WordEmitter.push, bind_eq_ok, Word.fit_eq_ok] at h
  obtain ⟨e, ⟨effect, heffect, depth, hdepth, he⟩, hg'⟩ := h
  cases he
  cases hg'
  simp only [wide, hdepth, heffect]
  rfl

theorem nextSlot_eq {w : Word} (h : g.emitter.nextSlot = .ok w) :
    w.toInt = -g.wide.emitter.depth - 1 := by
  simp only [WordEmitter.nextSlot, bind_eq_ok, Word.fit_eq_ok] at h
  obtain ⟨next, hnext, hw⟩ := h
  rw [hw, hnext]
  change _ = -g.emitter.depth.toInt - 1
  omega

theorem label_eq_ok {name : String} (h : g.label name = .ok g') :
    name ∉ g.emitter.labels ∧ g'.wide = g.wide.mark name := by
  simp only [label, WordEmitter.label, bind_eq_ok] at h
  obtain ⟨e, he, hg'⟩ := h
  cases hg'
  split at he
  next => cases he
  next hname =>
    have hemit : emit { g with emitter := { g.emitter with labels := name :: g.emitter.labels } }
        ⟨.label, .label name⟩ = .ok { g with emitter := e } := by
      rw [emit, bind_eq_ok]
      exact ⟨e, he, rfl⟩
    exact ⟨hname, emit_wide hemit⟩

theorem label_wide {name : String} (h : g.label name = .ok g') :
    g.wide.label name = .ok g'.wide := by
  obtain ⟨hname, hmark⟩ := label_eq_ok h
  rw [hmark]
  exact Generator.label_eq hname

theorem openLet_eq_ok {opened : OpenLet} (h : g.openLet = .ok opened) :
    opened.result.toInt = -g.wide.emitter.depth - 1 ∧ opened.slot.toInt = -g.wide.emitter.depth - 2 ∧
      opened.generator.wide = g.wide.append [decl 1, decl 1, lval (-g.wide.emitter.depth - 2)] := by
  simp only [openLet, bind_eq_ok] at h
  obtain ⟨result, hresult, g₁, hg₁, slot, hslot, g₂, hg₂, g₃, hg₃, hopened⟩ := h
  cases hopened
  have hslot : slot.toInt = -g.wide.emitter.depth - 2 := by
    have hdepth : g₁.wide.emitter.depth = g.wide.emitter.depth + 1 := by simp [emit_wide hg₁]
    have := nextSlot_eq hslot
    omega
  refine ⟨nextSlot_eq hresult, hslot, ?_⟩
  simp [emit_wide hg₃, emit_wide hg₂, emit_wide hg₁, hslot]

theorem bindLet_wide {x : String} {t : Ty} {opened : OpenLet} (h : g.bindLet x t opened = .ok g') :
    g'.wide = (g.wide.append [store t, lval opened.result.toInt]).declare x t opened.slot.toInt := by
  simp only [bindLet, bind_eq_ok] at h
  obtain ⟨g₁, hg₁, hg'⟩ := h
  have hdeclare : (g₁.declare x t opened.slot).wide = g₁.wide.declare x t opened.slot.toInt := rfl
  rw [emit_wide hg', hdeclare, emit_wide hg₁]
  rfl

end

variable {g g' : WordGenerator}

theorem arguments_wide {args : List Expr}
    (hexpr : ∀ a ∈ args, ∀ g g', expr a g = .ok g' → Generator.expr a g.wide = .ok g'.wide)
    (h : arguments args g = .ok g') : Generator.arguments args g.wide = .ok g'.wide := by
  induction args generalizing g' with
  | nil =>
    cases h
    rfl
  | cons arg args ih =>
    simp only [arguments, bind_eq_ok] at h
    obtain ⟨g₁, hg₁, h⟩ := h
    simp only [Generator.arguments, bind_eq_ok]
    exact ⟨g₁.wide, ih (fun a ha => hexpr a (by simp [ha])) hg₁, hexpr arg (by simp) g₁ g' h⟩

/-- What is generated in words is generated without bounds. -/
theorem expr_wide {e : Expr} (h : expr e g = .ok g') : Generator.expr e g.wide = .ok g'.wide := by
  induction e generalizing g g' with
  | letFun | apply => cases h
  | letIn i x value body ihv ihb =>
    simp only [expr, bind_eq_ok, typeOf, mapError_eq_ok] at h
    obtain ⟨t, ht, u, hu, opened, hopened, g₁, hg₁, g₂, hg₂, g₃, hg₃, g₄, hg₄, hg'⟩ := h
    -- The words that name the slots fit, so they read back as the unbounded offsets.
    obtain ⟨hresult, hslot, hwide⟩ := openLet_eq_ok hopened
    have hvalue := ihv hg₁
    have hbody := ihb hg₃
    rw [hwide] at hvalue
    rw [bindLet_wide hg₂, hresult, hslot] at hbody
    have hrelease : g₄.release.wide = g₄.wide.release := rfl
    refine Generator.expr_letIn_eq_ok.mpr ⟨t, u, g₁.wide, g₃.wide, ht, hu, hvalue, hbody, ?_⟩
    rw [emit_wide hg', hrelease, emit_wide hg₄]
    rfl
  | call i f args ih =>
    simp only [expr, bind_eq_ok] at h
    obtain ⟨g₁, hg₁, g₂, hg₂, g₃, hg₃, hg'⟩ := h
    have hargs := arguments_wide (fun a ha g g' => ih a ha) hg₂
    rw [emit_wide hg₁] at hargs
    refine Generator.expr_call_eq_ok.mpr ⟨g₂.wide, hargs, ?_⟩
    rw [emit_wide hg', emit_wide hg₃, Generator.append_append]
    rfl
  | seq i first second ihf ihs =>
    simp only [expr, bind_eq_ok] at h
    obtain ⟨g₁, hg₁, g₂, hg₂, h⟩ := h
    have hsecond := ihs h
    rw [emit_wide hg₂] at hsecond
    simp only [Generator.expr, bind_eq_ok]
    exact ⟨g₁.wide, ihf hg₁, hsecond⟩
  | binary i op left right ihl ihr =>
    simp only [expr, bind_eq_ok, operator, mapError_eq_ok] at h
    obtain ⟨g₁, hg₁, g₂, hg₂, code, hcode, hg'⟩ := h
    exact Generator.expr_binary_eq_ok.mpr
      ⟨g₁.wide, g₂.wide, code, ihl hg₁, ihr hg₂, hcode, emit_wide hg'⟩
  | var i x =>
    simp only [expr] at h
    split at h
    next slot hslot => exact Generator.expr_var_eq_ok.mpr ⟨slot, hslot, emit_wide h⟩
    next => cases h
  | num | bool =>
    simp only [expr] at h
    rw [emit_wide h]
    rfl

theorem function_wide {f : Function} (h : function f g = .ok g') :
    Generator.function f g.wide = .ok g'.wide := by
  simp only [function, openFunction, bind_eq_ok, Word.fit_eq_ok] at h
  obtain ⟨g₃, ⟨result, hresult, g₁, hg₁, g₂, hg₂, hg₃⟩, g₄, hg₄, g₅, hg₅, g₆, hg₆, hg'⟩ := h
  have hbody := expr_wide hg₄
  have hreset : g₂.resetDepth.wide = g₂.wide.emit (·.resetDepth) := rfl
  rw [emit_wide hg₃, hreset, emit_wide hg₂, hresult] at hbody
  simp only [Generator.function, bind_eq_ok]
  refine ⟨g₁.wide, label_wide hg₁, g₄.wide, hbody, ?_⟩
  rw [emit_wide hg', emit_wide hg₆, emit_wide hg₅, ← Generator.emit_store]
  rfl

theorem functions_wide {fs : List Function} (h : functions fs g = .ok g') :
    Generator.functions fs g.wide = .ok g'.wide := by
  induction fs generalizing g with
  | nil =>
    cases h
    rfl
  | cons f fs ih =>
    simp only [functions, bind_eq_ok] at h
    obtain ⟨g₁, hg₁, h⟩ := h
    simp only [Generator.functions, bind_eq_ok]
    exact ⟨g₁.wide, function_wide hg₁, ih h⟩

theorem program_wide {p : Program} (h : program p g = .ok g') :
    Generator.program p g.wide = .ok g'.wide := by
  simp only [program, openMain, bind_eq_ok] at h
  obtain ⟨g₁, hg₁, g₂, hg₂, g₃, hg₃, hg'⟩ := h
  simp only [Generator.program, bind_eq_ok]
  refine ⟨g₁.wide, functions_wide hg₁, g₂.wide, label_wide hg₂, g₃.wide, expr_wide hg₃, ?_⟩
  rw [emit_wide hg']
  rfl

end WordGenerator

end LetStack
