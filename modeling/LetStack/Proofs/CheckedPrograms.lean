import Mathlib
import LetStack.Proofs.Marks
import LetStack.Proofs.ProgramRuns

namespace LetStack

theorem Function.check_typed {s : Scopes} {f f' : Function} (h : f.check s = (f', .ok ())) :
    f'.body.Typed (s.params f'.params) f'.resultTy ∧ f'.unmark = f.unmark := by
  rcases hbody : f.body.check (s.params f.params) with ⟨body, stuck | t⟩
  · simp [check, hbody] at h
  · by_cases ht : t = f.resultTy
    · simp only [check, hbody, if_pos ht, Prod.mk.injEq, and_true] at h
      subst h ht
      obtain ⟨htyped, hunmark⟩ := Expr.check_typed hbody
      exact ⟨htyped, by simp [unmark, hunmark]⟩
    · simp [check, hbody, ht] at h

namespace Program

structure Flat (p : Program) : Prop where
  functions : ∀ f ∈ p.functions, f.body.Flat
  main : p.main.Flat

theorem flat_unmark {p : Program} : p.unmark.Flat ↔ p.Flat := by
  constructor
  · intro h
    refine ⟨fun f hf => ?_, Expr.flat_unmark.mp h.main⟩
    exact Expr.flat_unmark.mp (h.functions f.unmark (List.mem_map_of_mem hf))
  · intro h
    refine ⟨fun f hf => ?_, Expr.flat_unmark.mpr h.main⟩
    obtain ⟨g, hg, rfl⟩ := List.mem_map.mp hf
    exact Expr.flat_unmark.mpr (h.functions g hg)

theorem names_unmark (p : Program) :
    p.unmark.functions.map Function.name = p.functions.map Function.name := by
  simp only [unmark, List.map_map]
  rfl

theorem signatures_unmark (p : Program) : p.unmark.signatures = p.signatures := by
  simp only [signatures, Scopes.declare, unmark, List.foldl_map]
  rfl

theorem checkFunctions_typed {s : Scopes} {fs fs' : List Function}
    (h : checkFunctions s fs = (fs', .ok ())) :
    (∀ f ∈ fs', f.body.Typed (s.params f.params) f.resultTy) ∧
      fs'.map Function.unmark = fs.map Function.unmark := by
  induction fs generalizing fs' with
  | nil =>
    cases h
    simp
  | cons f fs ih =>
    rcases hf : f.check s with ⟨f', stuck | _⟩
    · simp [checkFunctions, hf] at h
    · rcases hfs : checkFunctions s fs with ⟨rest, outcome⟩
      simp only [checkFunctions, hf, hfs, Prod.mk.injEq] at h
      obtain ⟨rfl, rfl⟩ := h
      obtain ⟨htyped, hunmark⟩ := Function.check_typed hf
      obtain ⟨htypedAll, hunmarkAll⟩ := ih hfs
      exact ⟨List.forall_mem_cons.mpr ⟨htyped, htypedAll⟩, by simp [hunmark, hunmarkAll]⟩

theorem check_typed {s : Scopes} {p p' : Program} {t : Ty} (h : p.check s = (p', .ok t)) :
    (∀ f ∈ p'.functions, f.body.Typed (s.params f.params) f.resultTy) ∧ p'.main.Typed s t ∧
      p'.unmark = p.unmark := by
  rcases hfs : checkFunctions s p.functions with ⟨functions, stuck | _⟩
  · simp [check, hfs] at h
  · rcases hmain : p.main.check s with ⟨main, outcome⟩
    simp only [check, hfs, hmain, Prod.mk.injEq] at h
    obtain ⟨rfl, rfl⟩ := h
    obtain ⟨hfunctions, hunmark⟩ := checkFunctions_typed hfs
    obtain ⟨htyped, hmainUnmark⟩ := Expr.check_typed hmain
    exact ⟨hfunctions, htyped, by simp only [unmark, hunmark, hmainUnmark]⟩

theorem checkProgram_typed {p : Program} {t : Ty} (h : (Scopes.checkProgram {} p).outcome = .ok t) :
    (∀ f ∈ (Scopes.checkProgram {} p).item.functions, f.Typed p.signatures) ∧
      (Scopes.checkProgram {} p).item.main.Typed { lifted := p.signatures } t ∧
      (Scopes.checkProgram {} p).item.unmark = p.unmark := by
  rcases hcheck : p.check (Scopes.declare {} p.functions) with ⟨p', stuck | t'⟩
  · simp [Scopes.checkProgram, Checked.ofCheck, hcheck] at h
  · simp only [Scopes.checkProgram, Checked.ofCheck, hcheck, Except.ok.injEq] at h ⊢
    exact h ▸ check_typed hcheck

/-- A flat program whose functions can be told apart is well typed once it has passed the check. -/
theorem checked_wellTyped {p : Program} {t : Ty} (h : (Scopes.checkProgram {} p).outcome = .ok t)
    (hflat : p.Flat) (hnodup : (p.functions.map Function.name).Nodup)
    (hmain : Module.mainLabel ∉ p.functions.map Function.name) :
    (Scopes.checkProgram {} p).item.WellTyped t := by
  obtain ⟨hfunctions, htyped, hunmark⟩ := checkProgram_typed h
  have hflat' : (Scopes.checkProgram {} p).item.Flat := by rwa [← flat_unmark, hunmark, flat_unmark]
  -- names and signatures are not marked
  rw [← names_unmark, ← hunmark, names_unmark] at hnodup hmain
  rw [← signatures_unmark, ← hunmark, signatures_unmark] at hfunctions htyped
  exact ⟨hnodup, hmain, fun f hf => ⟨hfunctions f hf, hflat'.functions f hf⟩, htyped, hflat'.main⟩

end Program

/-- The code of a checked program runs as the program evaluates. The program may come from anywhere
and name its variables and parameters as it likes, as long as functions have names of their own. -/
theorem checked_program_runs_as_evaluated {p : Program} {t : Ty}
    (h : (Scopes.checkProgram {} p).outcome = .ok t) (hflat : p.Flat)
    (hnodup : (p.functions.map Function.name).Nodup)
    (hmain : "main" ∉ p.functions.map Function.name) :
    let checked := (Scopes.checkProgram {} p).item
    (∀ depth, checked.evaluate depth = p.evaluate depth) ∧
    ∃ unlinked code count, checked.generate = .ok unlinked ∧ unlinked.link = (code, .ok count) ∧
      (code.size < 2 ^ 31 → ∀ depth v, checked.evaluate depth = .ok v →
        ∃ need cost, need ≤ (depth + 1) * code.size ∧ ∀ config : Machine.Config,
          need ≤ config.stackSize → config.stackSize ≤ 2147483647 → cost ≤ config.maxSteps →
            code.execute config = .ok v.word) := by
  intro checked
  have hp : checked.WellTyped t := Program.checked_wellTyped h hflat hnodup hmain
  obtain ⟨code, labels, count, hlink, hlinked⟩ := Program.link_code hp
  refine ⟨fun depth => ?_, _, code, count, Program.generate_eq hp, hlink, fun hsize depth v hv => ?_⟩
  · rw [← Program.evaluate_unmark, (Program.checkProgram_typed h).2.2, Program.evaluate_unmark]
  · rcases Program.evaluate_cases hp hlinked (Nat.le_of_lt_succ hsize) depth with
      ⟨v', hv', -, need, cost, hbound, hgives⟩ | ⟨hdeep, -⟩
    · obtain rfl : v' = v := Except.ok.inj (hv'.symm.trans hv)
      exact ⟨need, cost, hbound, fun config hneed hstack hcost =>
        hgives.ok config hstack hneed hcost⟩
    · rw [hdeep] at hv
      cases hv

/-- Two parameters of one name, a function without parameters, variables that hide others, and a
variable that is bound inside of an argument. -/
def manyHidden : Program :=
  let i : Info := .untyped ⟨1, 1, 1⟩
  let a : Param := ⟨"a", "a", .num⟩
  let x : Name := .plain "x"
  let body := .letIn i (.plain "a") (.binary i .sub (.var i (.plain "a")) (.num i 1))
    (.binary i .add (.var i (.plain "a")) (.call i "k" []))
  let inner := .letIn i x (.num i 5) (.var i x)
  { functions := [⟨"f", [a, a], .num, body, i.span⟩, ⟨"k", [], .num, .num i 2, i.span⟩]
    main := .letIn i x (.num i 10) (.letIn i x (.binary i .add (.var i x) (.num i 1))
      (.call i "f" [inner, .call i "f" [.num i 0, .var i x]])) }

theorem checked_program_runs_as_evaluated_manyHidden :
    let checked := (Scopes.checkProgram {} manyHidden).item
    (Scopes.checkProgram {} manyHidden).outcome = .ok .num ∧ manyHidden.Flat ∧
      (manyHidden.functions.map Function.name).Nodup ∧
      "main" ∉ manyHidden.functions.map Function.name ∧ checked.evaluate 2 = .ok (.num 13) ∧
      ∃ unlinked code count, checked.generate = .ok unlinked ∧ unlinked.link = (code, .ok count) ∧
        code.execute ⟨22, 93⟩ = .ok 13 ∧ code.execute ⟨21, 93⟩ = .error (.stackOverflow 24) ∧
        ∃ need cost, need ≤ 195 ∧ ∀ config : Machine.Config, need ≤ config.stackSize →
          config.stackSize ≤ 2147483647 → cost ≤ config.maxSteps → code.execute config = .ok 13 := by
  intro checked
  have hcheck : (Scopes.checkProgram {} manyHidden).outcome = .ok .num := by cbv
  have hflat : manyHidden.Flat := by
    constructor <;> simp [manyHidden, Expr.Flat, Expr.FlatAll]
  have hnodup : (manyHidden.functions.map Function.name).Nodup := by decide
  have hmain : "main" ∉ manyHidden.functions.map Function.name := by decide
  have hvalue : checked.evaluate 2 = .ok (.num 13) := by cbv
  obtain ⟨-, unlinked, code, count, hgenerate, hlink, hruns⟩ :=
    checked_program_runs_as_evaluated hcheck hflat hnodup hmain
  have hcode : checked.generate.toOption.map (fun m =>
      (m.link.1.size, m.link.1.execute ⟨22, 93⟩, m.link.1.execute ⟨21, 93⟩)) =
        some (65, .ok 13, .error (.stackOverflow 24)) := by cbv
  simp only [checked, hgenerate, Except.toOption, Option.map_some, hlink, Option.some.injEq,
    Prod.mk.injEq] at hcode
  obtain ⟨hsize, hword, hoverflow⟩ := hcode
  obtain ⟨need, cost, hneed, hconfig⟩ := hruns (by omega) 2 _ hvalue
  exact ⟨hcheck, hflat, hnodup, hmain, hvalue, unlinked, code, count, hgenerate, hlink, hword,
    hoverflow, need, cost, by omega, hconfig⟩

end LetStack
