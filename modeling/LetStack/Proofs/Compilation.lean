import Mathlib
import LetStack.Compilation
import LetStack.Proofs.LiftedMeaning
import LetStack.Proofs.ProgramRuns
import LetStack.Proofs.RenamedMeaning

namespace LetStack

open Machine LetStack.Module

variable {e : Expr} {keepStages : Bool}

/-- What a successful compilation has built: the program that the checked tree is lifted to, and its
linked module. -/
structure Build.Stands (e : Expr) (build : Build) (labels : Labels) : Prop where
  outcome : e.resolve.typecheck.outcome = .ok build.ty
  lifts : Lifter.Lifts [] e.resolve.typecheck.item build.program.main build.program.functions
  wellTyped : build.program.WellTyped build.ty
  linked : build.program.Linked build.module labels

theorem compile_of_checked {t : Ty} (h : e.resolve.typecheck.outcome = .ok t) (keepStages : Bool) :
    ∃ build labels, compile e keepStages = .ok build ∧ build.Stands e labels := by
  obtain ⟨p, hlift, hlifts, hp⟩ := Expr.lift_checked h
  obtain ⟨m, labels, n, hlink, hlinked⟩ := Program.link_code hp
  let build : Build := {
    ty := t
    checked := if keepStages then some e.resolve.typecheck.item else none
    program := p
    unlinked := if keepStages then some ⟨p.code.toArray⟩ else none
    module := m }
  refine ⟨build, labels, ?_, h, hlifts, hp, hlinked⟩
  simp only [compile, h, hlift, Except.mapError, bind, Except.bind, Program.generate_eq hp, hlink]
  rfl

theorem compile_of_rejected {error : TypeError} (h : e.resolve.typecheck.outcome = .error error)
    (keepStages : Bool) : compile e keepStages = .error (.type error) := by
  simp only [compile, h]
  rfl

theorem stands_of_compile {build : Build} (h : compile e keepStages = .ok build) :
    ∃ labels, build.Stands e labels := by
  cases hcheck : e.resolve.typecheck.outcome with
  | error error => simp [compile_of_rejected hcheck] at h
  | ok t =>
    obtain ⟨build', labels, hbuild, hstands⟩ := compile_of_checked hcheck keepStages
    obtain rfl : build' = build := by simpa [hbuild] using h
    exact ⟨labels, hstands⟩

/-- Compilation succeeds for every tree that resolves to one of some type, and only the check
rejects a tree: no later stage fails. -/
theorem compile_ok_or_type_error (e : Expr) (keepStages : Bool) :
    (∃ build, compile e keepStages = .ok build ∧ e.resolve.typecheck.outcome = .ok build.ty) ∨
      ∃ error, compile e keepStages = .error (.type error) ∧
        e.resolve.typecheck.outcome = .error error := by
  cases hcheck : e.resolve.typecheck.outcome with
  | error error => exact .inr ⟨error, compile_of_rejected hcheck keepStages, rfl⟩
  | ok t =>
    obtain ⟨build, labels, hbuild, hstands⟩ := compile_of_checked hcheck keepStages
    exact .inl ⟨build, hbuild, hcheck.symm.trans hstands.outcome⟩

namespace Build.Stands

variable {build : Build} {labels : Labels}

theorem evaluate_cases (h : build.Stands e labels) (hsize : build.module.size < 2 ^ 31)
    (depth : Nat) :
    (∃ v, build.program.evaluate depth = .ok v ∧ v.ty = build.ty ∧
        ∃ need cost, need ≤ (depth + 1) * build.module.size ∧
          build.module.Gives need cost v.word) ∨
      (build.program.evaluate depth = .error .tooDeep ∧ ∀ config : Config,
        config.stackSize ≤ Word.greatest → config.maxSteps ≤ depth → build.module.RunsOut config) :=
  Program.evaluate_cases h.wellTyped h.linked (Nat.le_of_lt_succ hsize) depth

/-- Lifting changes no result. -/
theorem evaluate_program (h : build.Stands e labels) (depth : Nat) :
    build.program.evaluate depth = e.resolve.typecheck.item.evaluate depth := by
  have hmain := Expr.eval_main (Expr.typecheck_typed h.outcome).1 (Expr.checked_noShadow h.outcome)
    h.lifts h.wellTyped depth
  rw [Program.evaluate, ← hmain, Expr.evaluate]

end Build.Stands

theorem Value.word_of_bool {v : Value} (h : v.ty = .bool) : v.word = 0 ∨ v.word = 1 := by
  rcases v with n | b
  · cases h
  · cases b
    · exact .inl rfl
    · exact .inr rfl

/-- Compiled code runs safely on every machine whose addresses are words: it gives a word, which is
0 or 1 for a boolean, or stops for want of cells or of steps. -/
theorem compiled_runs_safely {build : Build} (h : compile e keepStages = .ok build)
    (hsize : build.module.size < 2 ^ 31) (config : Config) (hstack : config.stackSize ≤ 2147483647) :
    (∃ w, build.module.execute config = .ok w ∧ (build.ty = .bool → w = 0 ∨ w = 1)) ∨
      (∃ pc, build.module.execute config = .error (.stackOverflow pc)) ∨
      ∃ limit, build.module.execute config = .error (.stepLimit limit) := by
  obtain ⟨labels, hstands⟩ := stands_of_compile h
  have hcases : (∃ v : Value, v.ty = build.ty ∧ build.module.execute config = .ok v.word) ∨
      build.module.RunsOut config := by
    -- a run of so many steps makes no more calls inside one another
    rcases hstands.evaluate_cases hsize config.maxSteps with ⟨v, -, hty, _, _, -, hgives⟩ |
      ⟨-, hlong⟩
    · exact (hgives.cases hstack).imp_left fun hv => ⟨v, hty, hv⟩
    · exact .inr (hlong config hstack (Nat.le_refl _))
  rcases hcases with ⟨v, hty, hv⟩ | ⟨error, herror, hexhausted⟩
  · exact .inl ⟨v.word, hv, fun hbool => Value.word_of_bool (hty.trans hbool)⟩
  · rw [herror]
    rcases MachineError.exhausted_iff.mp hexhausted with ⟨pc, rfl⟩ | ⟨limit, rfl⟩
    · exact .inr (.inl ⟨pc, rfl⟩)
    · exact .inr (.inr ⟨limit, rfl⟩)

/-- A function that calls itself for ever: `let f x : num -> bool = (1, f x) in f 2 == true`. -/
def endlessCalls : Expr :=
  let i : Info := .untyped ⟨1, 1, 1⟩
  .letFun i (.plain "f") (.plain "x") .num .bool
    (.seq i (.num i 1) (.apply i (.plain "f") (.var i (.plain "x"))))
    (.binary i .eq (.apply i (.plain "f") (.num i 2)) (.bool i true))

theorem compiled_runs_safely_endlessCalls : ∃ build,
    compile endlessCalls = .ok build ∧ build.ty = .bool ∧ build.module.size < 2 ^ 31 ∧
      build.module.execute ⟨20, 100⟩ = .error (.stackOverflow 3) ∧
      build.module.execute ⟨20, 25⟩ = .error (.stepLimit 25) ∧
      ∀ config : Config, config.stackSize ≤ 2147483647 →
        (∃ w, build.module.execute config = .ok w ∧ (build.ty = .bool → w = 0 ∨ w = 1)) ∨
          (∃ pc, build.module.execute config = .error (.stackOverflow pc)) ∨
          ∃ limit, build.module.execute config = .error (.stepLimit limit) := by
  have hbuild : (compile endlessCalls).map (fun build => (build.ty, build.module.size,
      build.module.execute ⟨20, 100⟩, build.module.execute ⟨20, 25⟩)) =
      .ok (.bool, 20, .error (.stackOverflow 3), .error (.stepLimit 25)) := by cbv
  cases h : compile endlessCalls with
  | error error => rw [h] at hbuild; cases hbuild
  | ok build =>
    rw [h] at hbuild
    simp only [Except.map, Except.ok.injEq, Prod.mk.injEq] at hbuild
    obtain ⟨hty, hsize, hoverflow, hlimit⟩ := hbuild
    have hsize : build.module.size < 2 ^ 31 := by omega
    exact ⟨build, rfl, hty, hsize, hoverflow, hlimit, compiled_runs_safely h hsize⟩

theorem Value.eq_of_word {v w : Value} (hty : v.ty = w.ty) (hword : v.word = w.word) : v = w := by
  rcases v with n | b <;> rcases w with m | c
  · exact congrArg Value.num hword
  · cases hty
  · cases hty
  · cases b <;> cases c <;> first | rfl | cases hword

/-- Compilation preserves meaning. Of a text whose names are all bound, a machine that comes to an
end gives the word of the value that the tree itself, as it is read, evaluates to; and if the tree
evaluates to a value, every machine with enough cells and steps gives its word. -/
theorem compiled_runs_as_evaluated {source : String} {build : Build} (hparse : parse source = .ok e)
    (hbound : e.Bound []) (h : compile e keepStages = .ok build)
    (hsize : build.module.size < 2 ^ 31) :
    (∀ (config : Config) w, config.stackSize ≤ 2147483647 → build.module.execute config = .ok w →
      ∃ v, v.word = w ∧ ∀ depth, config.maxSteps ≤ depth → e.evaluate depth = .ok v) ∧
    (∀ depth v, e.evaluate depth = .ok v → ∃ need cost, need ≤ (depth + 1) * build.module.size ∧
      ∀ config : Config, need ≤ config.stackSize → config.stackSize ≤ 2147483647 →
        cost ≤ config.maxSteps → build.module.execute config = .ok v.word) := by
  obtain ⟨labels, hstands⟩ := stands_of_compile h
  have hevaluate : ∀ depth, e.evaluate depth = build.program.evaluate depth := fun depth => by
    rw [hstands.evaluate_program, Expr.evaluate, Expr.evaluate,
      Expr.eval_resolve (parse_plain hparse) hbound hstands.outcome]
  simp only [hevaluate]
  constructor
  · intro config w hstack hw
    have hvalue : ∀ depth, config.maxSteps ≤ depth →
        ∃ v, build.program.evaluate depth = .ok v ∧ v.ty = build.ty ∧ v.word = w := by
      intro depth hdepth
      rcases hstands.evaluate_cases hsize depth with ⟨v, hv, hty, _, _, -, hgives⟩ | ⟨-, hlong⟩
      · rcases hgives.cases hstack with hv' | hout
        · exact ⟨v, hv, hty, Except.ok.inj (hv'.symm.trans hw)⟩
        · exact absurd hw (hout.ne_ok w)
      · exact absurd hw ((hlong config hstack hdepth).ne_ok w)
    -- values of one type with one word are equal, so the depth does not matter
    obtain ⟨v, -, hty, hword⟩ := hvalue _ (Nat.le_refl _)
    refine ⟨v, hword, fun depth hdepth => ?_⟩
    obtain ⟨v', hv', hty', hword'⟩ := hvalue depth hdepth
    rw [hv', Value.eq_of_word (hty'.trans hty.symm) (hword'.trans hword.symm)]
  · intro depth v hv
    rcases hstands.evaluate_cases hsize depth with
      ⟨v', hv', -, need, cost, hbound, hgives⟩ | ⟨hdeep, -⟩
    · obtain rfl : v' = v := Except.ok.inj (hv'.symm.trans hv)
      exact ⟨need, cost, hbound, fun config hneed hstack hcost =>
        hgives.ok config hstack hneed hcost⟩
    · rw [hdeep] at hv
      cases hv

def hiddenCapture : String := "let x = 3 in let f y: num -> num = x - y in let x = f 1 in f x"

theorem compiled_runs_as_evaluated_hiddenCapture : ∃ e build,
    parse hiddenCapture = .ok e ∧ e.Bound [] ∧ compile e = .ok build ∧ build.module.size < 2 ^ 31 ∧
      e.evaluate 1 = .ok (.num 1) ∧ build.module.execute ⟨20, 60⟩ = .ok 1 ∧
      (∀ (config : Config) w, config.stackSize ≤ 2147483647 → build.module.execute config = .ok w →
        ∃ v, v.word = w ∧ ∀ depth, config.maxSteps ≤ depth → e.evaluate depth = .ok v) ∧
      ∃ need cost, need ≤ 72 ∧ ∀ config : Config, need ≤ config.stackSize →
        config.stackSize ≤ 2147483647 → cost ≤ config.maxSteps →
          build.module.execute config = .ok 1 := by
  have hresults : (parse hiddenCapture).toOption.bind (fun e => (compile e).toOption.map fun build =>
      (decide (e.Bound []), build.module.size, e.evaluate 1, build.module.execute ⟨20, 60⟩)) =
        some (true, 36, .ok (.num 1), .ok 1) := by cbv
  cases hparse : parse hiddenCapture with
  | error error => rw [hparse] at hresults; cases hresults
  | ok e =>
    cases hcompile : compile e with
    | error error => simp [hparse, hcompile, Except.toOption] at hresults
    | ok build =>
      simp only [hparse, hcompile, Except.toOption, Option.bind_some, Option.map_some,
        Option.some.injEq, Prod.mk.injEq, decide_eq_true_eq] at hresults
      obtain ⟨hbound, hsize, hvalue, hword⟩ := hresults
      have hword' : build.module.size < 2 ^ 31 := by omega
      obtain ⟨hback, hruns⟩ := compiled_runs_as_evaluated hparse hbound hcompile hword'
      obtain ⟨need, cost, hneed, hconfig⟩ := hruns 1 _ hvalue
      exact ⟨e, build, rfl, hbound, hcompile, hword', hvalue, hword, hback, need, cost, by omega,
        hconfig⟩

/-- Results do not depend on the size of the machine: where compiled code gives a word, it gives the
same word to every larger machine, after the same number of steps. -/
theorem compiled_run_same_on_larger {build : Build} (h : compile e keepStages = .ok build)
    (hsize : build.module.size < 2 ^ 31) {small large : Config}
    (hstack : small.stackSize ≤ large.stackSize) (hlarge : large.stackSize ≤ 2147483647)
    (hsteps : small.maxSteps ≤ large.maxSteps) {w : Word}
    (hrun : ((new small).run build.module).1 = .ok w) :
    ((new large).run build.module).1 = .ok w ∧
      ((new large).run build.module).2.steps = ((new small).run build.module).2.steps := by
  obtain ⟨labels, hstands⟩ := stands_of_compile h
  rcases hstands.evaluate_cases hsize small.maxSteps with
    ⟨v, -, -, need, cost, -, hgives⟩ | ⟨-, hlong⟩
  · exact hgives.larger hstack hlarge hsteps hrun
  · exact absurd hrun ((hlong small (hstack.trans hlarge) (Nat.le_refl _)).ne_ok w)

theorem compiled_run_same_on_larger_hiddenCapture : ∃ e build,
    parse hiddenCapture = .ok e ∧ compile e = .ok build ∧ build.module.size < 2 ^ 31 ∧
      ((new ⟨14, 45⟩).run build.module).1 = .ok 1 ∧ ((new {}).run build.module).1 = .ok 1 ∧
      ((new {}).run build.module).2.steps = 45 := by
  have hresults : (parse hiddenCapture).toOption.bind (fun e => (compile e).toOption.map fun build =>
      (build.module.size, ((new ⟨14, 45⟩).run build.module).1,
        ((new ⟨14, 45⟩).run build.module).2.steps)) = some (36, .ok 1, 45) := by cbv
  cases hparse : parse hiddenCapture with
  | error error => rw [hparse] at hresults; cases hresults
  | ok e =>
    cases hcompile : compile e with
    | error error => simp [hparse, hcompile, Except.toOption] at hresults
    | ok build =>
      simp only [hparse, hcompile, Except.toOption, Option.bind_some, Option.map_some,
        Option.some.injEq, Prod.mk.injEq] at hresults
      obtain ⟨hsize, hword, hsteps⟩ := hresults
      have hsize : build.module.size < 2 ^ 31 := by omega
      obtain ⟨hlarge, hsame⟩ : ((new {}).run build.module).1 = .ok 1 ∧
          ((new {}).run build.module).2.steps = ((new ⟨14, 45⟩).run build.module).2.steps :=
        compiled_run_same_on_larger hcompile hsize (by decide) (by decide) (by decide) hword
      exact ⟨e, build, rfl, hcompile, hsize, hword, hlarge, hsame.trans hsteps⟩

end LetStack
