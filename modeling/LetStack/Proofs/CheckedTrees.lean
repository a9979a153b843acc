import Mathlib
import LetStack.Proofs.CheckedPrograms

namespace LetStack

theorem Info.typed_eq_self {i : Info} {t : Ty} (h : i.ty = some t) : i.typed t = i := by
  rw [Info.typed, ← h]

/-- A safe computation comes to a value of the kind it promises, or is given up. -/
theorem Eval.Ends.run {c : Eval Value} {post : Value → Prop} (h : c.Safe post) (n : Nat) :
    (∃ v, (c.run n).1 = .ok v ∧ post v) ∨ (c.run n).1 = .error .tooDeep := by
  have h := h n
  unfold Eval.run
  rcases hn : c n with ⟨v, n'⟩ | ⟨error | _, n'⟩
  · rw [hn] at h
    exact .inl ⟨v, rfl, h⟩
  · rw [hn] at h
    exact h.elim
  · exact .inr rfl

namespace Expr

/-- The marks of the check do not matter to evaluation. -/
theorem eval_typecheck {e : Expr} {t : Ty} (h : e.typecheck.outcome = .ok t) (depth : Nat) :
    e.typecheck.item.eval [] depth [] = e.eval [] depth [] := by
  obtain ⟨-, hunmark⟩ := typecheck_typed h
  rw [← eval_unmark [] depth [] e, ← hunmark]
  exact (eval_unmark [] depth [] _).symm

theorem eval_safe_of_typecheck {e : Expr} {t : Ty} (h : e.typecheck.outcome = .ok t) (depth : Nat) :
    (e.eval [] depth []).Safe fun v => v.ty = t := by
  have hfun : FunctionsTyped [] [] := fun f sig hf => by simp at hf
  rw [← eval_typecheck h]
  exact eval_safe hfun depth {} [] _ t rfl .nil (typecheck_typed h).1

theorem checkArgs_of_typed {s : Scopes} (callee : String) {args : List Expr} {ts : List Ty}
    (hcheck : ∀ a ∈ args, ∀ t, Typed s a t → a.check s = (a, .ok t)) (h : ArgsTyped s args ts) :
    checkArgs s callee args ts = (args, .ok ()) := by
  induction args generalizing ts with
  | nil => cases h; rfl
  | cons arg args ih =>
    cases h with
    | cons harg hargs =>
      simp only [checkArgs, hcheck arg (by simp) _ harg,
        ih (fun a ha => hcheck a (by simp [ha])) hargs, if_true]

/-- The check accepts a tree whose marks follow the rules, and leaves it as it is. -/
theorem check_of_typed {s : Scopes} {e : Expr} {t : Ty} (h : Typed s e t) :
    e.check s = (e, .ok t) := by
  induction e generalizing s t with
  | letIn i x value body ihv ihb =>
    cases h with
    | letIn hi hvalue hbody => simp only [check, ihv hvalue, ihb hbody, Info.typed_eq_self hi]
  | letFun i f x paramTy resultTy body rest ihb ihr =>
    cases h with
    | letFun hi hbody hrest =>
      simp only [check, ihb hbody, ihr hrest, Info.typed_eq_self hi, if_true]
  | apply i f arg ih =>
    cases h with
    | apply hi hf harg => simp only [check, hf, ih harg, Info.typed_eq_self hi, if_true]
  | call i f args ih =>
    cases h with
    | call hi hf hargs =>
      have hchecked := checkArgs_of_typed f (fun a ha t ht => ih a ha ht) hargs
      simp only [check, hf, hargs.length_eq, hchecked, Info.typed_eq_self hi, if_true]
  | seq i first second ihf ihs =>
    cases h with
    | seq hi hfirst hsecond => simp only [check, ihf hfirst, ihs hsecond, Info.typed_eq_self hi]
  | binary i op left right ihl ihr =>
    cases h with
    | binary hi hleft hright hop =>
      simp only [check, ihl hleft, ihr hright, hop, Info.typed_eq_self hi]
  | var i x =>
    cases h with
    | var hi hx => simp only [check, hx, Info.typed_eq_self hi]
  | num i n =>
    cases h with
    | num hi => simp only [check, Info.typed_eq_self hi]
  | bool i b =>
    cases h with
    | bool hi => simp only [check, Info.typed_eq_self hi]

end Expr

theorem Function.check_of_typed {s : Scopes} {f : Function}
    (h : f.body.Typed (s.params f.params) f.resultTy) : f.check s = (f, .ok ()) := by
  simp only [check, Expr.check_of_typed h, if_true]

namespace Program

theorem checkFunctions_of_typed {s : Scopes} {fs : List Function}
    (h : ∀ f ∈ fs, f.body.Typed (s.params f.params) f.resultTy) :
    checkFunctions s fs = (fs, .ok ()) := by
  induction fs with
  | nil => rfl
  | cons f fs ih =>
    simp only [checkFunctions, Function.check_of_typed (h f (by simp)),
      ih fun g hg => h g (by simp [hg])]

/-- A well-typed program passes the check with its marks as they are. -/
theorem WellTyped.check_eq {p : Program} {t : Ty} (h : p.WellTyped t) :
    p.check (Scopes.declare {} p.functions) = (p, .ok t) := by
  have hfunctions := checkFunctions_of_typed (s := Scopes.declare {} p.functions)
    fun f hf => (h.functions f hf).1
  have hmain := Expr.check_of_typed (s := Scopes.declare {} p.functions) h.main.1
  simp only [check, hfunctions, hmain]

/-- The signatures that the check goes by are those of the functions that are called, also where
several functions have one name. -/
theorem functionsTyped_of_check {p : Program} {t : Ty}
    (h : (Scopes.checkProgram {} p).outcome = .ok t) :
    FunctionsTyped p.signatures (Scopes.checkProgram {} p).item.callees := by
  obtain ⟨hfunctions, -, hunmark⟩ := checkProgram_typed h
  intro name sig hsig
  rw [← signatures_unmark, ← hunmark, signatures_unmark, lookup_signatures,
    Option.map_eq_some_iff] at hsig
  obtain ⟨g, hg, hsig⟩ := hsig
  exact ⟨g, hg, hsig, hfunctions g (List.mem_reverse.mp (List.mem_of_find?_eq_some hg))⟩

end Program

/-- What passes the check evaluates safely. At every depth a checked tree, with the marks of the
check or without, comes to a value of its type or is given up for its depth, and never ends in an
error; and so does a checked program, whatever its functions and parameters are called. -/
theorem checked_evaluates_safely :
    (∀ (e : Expr) (t : Ty), e.typecheck.outcome = .ok t → ∀ depth,
      e.typecheck.item.evaluate depth = e.evaluate depth ∧
        ((∃ v, e.evaluate depth = .ok v ∧ v.ty = t) ∨ e.evaluate depth = .error .tooDeep)) ∧
    (∀ (p : Program) (t : Ty), (Scopes.checkProgram {} p).outcome = .ok t → ∀ depth,
      (Scopes.checkProgram {} p).item.evaluate depth = p.evaluate depth ∧
        ((∃ v, p.evaluate depth = .ok v ∧ v.ty = t) ∨ p.evaluate depth = .error .tooDeep)) := by
  constructor
  · intro e t h depth
    refine ⟨?_, (Expr.eval_safe_of_typecheck h depth).run 0⟩
    rw [Expr.evaluate, Expr.evaluate, Expr.eval_typecheck h]
  · intro p t h depth
    obtain ⟨-, hmain, hunmark⟩ := Program.checkProgram_typed h
    have hmarks : (Scopes.checkProgram {} p).item.evaluate depth = p.evaluate depth := by
      rw [← Program.evaluate_unmark, hunmark, Program.evaluate_unmark]
    refine ⟨hmarks, ?_⟩
    rw [← hmarks]
    exact (Expr.eval_safe (Program.functionsTyped_of_check h) depth _ [] _ t rfl .nil hmain).run 0

/-- A variable, a function and a second variable of one spelling:
`let x = 1 in let x x : num -> bool = x < 2 in let x = x x in x == true`. -/
def oneSpelling : Expr :=
  let i : Info := .untyped ⟨1, 1, 1⟩
  let x : Name := .plain "x"
  .letIn i x (.num i 1) <|
    .letFun i x x .num .bool (.binary i .lt (.var i x) (.num i 2)) <|
      .letIn i x (.apply i x (.var i x)) (.binary i .eq (.var i x) (.bool i true))

def sameNames : Program :=
  let i : Info := .untyped ⟨1, 1, 1⟩
  let a : Name := .plain "a"
  let g : Name := .plain "g"
  let inner := .letFun i g a .bool .bool (.var i a) (.apply i g (.var i a))
  { functions := [
      ⟨"f", [⟨"a", "a", .num⟩], .num, .var i a, i.span⟩,
      ⟨"f", [⟨"a", "a", .num⟩, ⟨"a", "a", .bool⟩], .bool, inner, i.span⟩]
    main := .call i "f" [.num i 3, .bool i true] }

theorem checked_evaluates_safely_oneSpelling_sameNames :
    oneSpelling.typecheck.outcome = .ok .bool ∧ oneSpelling.evaluate 1 = .ok (.bool true) ∧
      (∀ depth, oneSpelling.typecheck.item.evaluate depth = oneSpelling.evaluate depth ∧
        ((∃ v, oneSpelling.evaluate depth = .ok v ∧ v.ty = .bool) ∨
          oneSpelling.evaluate depth = .error .tooDeep)) ∧
      (Scopes.checkProgram {} sameNames).outcome = .ok .bool ∧
      sameNames.evaluate 2 = .ok (.bool true) ∧
      ∀ depth, (Scopes.checkProgram {} sameNames).item.evaluate depth = sameNames.evaluate depth ∧
        ((∃ v, sameNames.evaluate depth = .ok v ∧ v.ty = .bool) ∨
          sameNames.evaluate depth = .error .tooDeep) := by
  have htree : oneSpelling.typecheck.outcome = .ok .bool := by cbv
  have hprogram : (Scopes.checkProgram {} sameNames).outcome = .ok .bool := by cbv
  exact ⟨htree, by cbv, checked_evaluates_safely.1 _ _ htree, hprogram, by cbv,
    checked_evaluates_safely.2 _ _ hprogram⟩

/-- Lifting a resolved and checked tree gives a program that passes the check in its turn, with the
type of the tree, and that is marked already as the check would mark it. -/
theorem lifted_program_rechecks (e : Expr) {t : Ty} (h : e.resolve.typecheck.outcome = .ok t) :
    ∃ p, e.resolve.typecheck.item.lift = .ok p ∧
      (Scopes.checkProgram {} p).outcome = .ok t ∧ (Scopes.checkProgram {} p).item = p := by
  obtain ⟨p, hlift, -, hp⟩ := Expr.lift_checked h
  refine ⟨p, hlift, ?_, ?_⟩
  · simp only [Scopes.checkProgram, hp.check_eq, Checked.ofCheck]
  · simp only [Scopes.checkProgram, hp.check_eq, Checked.ofCheck]

/-- The innermost function captures what the first one captures, since it calls that:
`let x = true in let f y : num -> bool = (y < 1) == x in
let g z : num -> bool = (let h w : num -> bool = f w in h z) in g 0`. -/
def capturedThroughCall : Expr :=
  let i : Info := .untyped ⟨1, 1, 1⟩
  let var (s : String) : Expr := .var i (.plain s)
  let call (f : String) (arg : Expr) : Expr := .apply i (.plain f) arg
  let fn (f x : String) (body rest : Expr) : Expr :=
    .letFun i (.plain f) (.plain x) .num .bool body rest
  .letIn i (.plain "x") (.bool i true) <|
    fn "f" "y" (.binary i .eq (.binary i .lt (var "y") (.num i 1)) (var "x")) <|
      fn "g" "z" (fn "h" "w" (call "f" (var "w")) (call "h" (var "z"))) (call "g" (.num i 0))

theorem lifted_program_rechecks_capturedThroughCall :
    capturedThroughCall.resolve.typecheck.outcome = .ok .bool ∧
      ∃ p, capturedThroughCall.resolve.typecheck.item.lift = .ok p ∧
        (Scopes.checkProgram {} p).outcome = .ok .bool ∧ (Scopes.checkProgram {} p).item = p := by
  have hcheck : capturedThroughCall.resolve.typecheck.outcome = .ok .bool := by cbv
  exact ⟨hcheck, lifted_program_rechecks capturedThroughCall hcheck⟩

end LetStack
