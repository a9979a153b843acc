import Mathlib
import LetStack.Proofs.CheckedTrees
import LetStack.Proofs.LiftedMeaning

namespace LetStack

namespace Eval

variable {α β : Type}

def Settles (c : Eval α) : Prop := ∀ n n', c n ≠ .error .tooDeep n'

namespace Settles

variable {c : Eval α}

theorem pure (a : α) : Settles (pure a) := fun _ _ h => by cases h

theorem fail (error : EvalError) : Settles (fail error : Eval α) := fun _ _ h => by cases h

theorem countCall : Settles countCall := fun _ _ h => by cases h

theorem bind {k : α → Eval β} (hc : c.Settles) (hk : ∀ a, (k a).Settles) : (c >>= k).Settles := by
  intro n n'
  simp only [Bind.bind, EStateM.bind]
  rcases hn : c n with ⟨a, m⟩ | ⟨stop, m⟩
  · exact hk a m n'
  · intro h
    cases h
    exact hc n _ hn

/-- A safe computation that is not given up comes to a value. -/
theorem run {c : Eval Value} {post : Value → Prop} (hc : c.Settles) (hsafe : c.Safe post) (n : Nat) :
    ∃ v, (c.run n).1 = .ok v ∧ post v := by
  rcases Ends.run hsafe n with hvalue | hdeep
  · exact hvalue
  · unfold Eval.run at hdeep
    rcases hn : c n with ⟨v, m⟩ | ⟨stop, m⟩
    · simp [hn] at hdeep
    · simp only [hn, Except.error.injEq] at hdeep
      exact absurd (hdeep ▸ hn) (hc n m)

end Settles

def Extends (c c' : Eval α) : Prop := ∀ n, c' n = c n ∨ ∃ n', c n = .error .tooDeep n'

namespace Extends

variable {c c' : Eval α}

theorem refl (c : Eval α) : Extends c c := fun _ => .inl rfl

theorem tooDeep (c : Eval α) : Extends (throw .tooDeep) c := fun n => .inr ⟨n, rfl⟩

theorem bind {k k' : α → Eval β} (hc : Extends c c') (hk : ∀ a, Extends (k a) (k' a)) :
    Extends (c >>= k) (c' >>= k') := by
  intro n
  simp only [Bind.bind, EStateM.bind]
  rcases hc n with heq | ⟨n', heq⟩
  · rw [heq]
    rcases c n with ⟨a, m⟩ | ⟨stop, m⟩
    · exact hk a m
    · exact .inl rfl
  · exact .inr ⟨n', by rw [heq]⟩

theorem eq (h : Extends c c') (hc : c.Settles) : c' = c := by
  funext n
  rcases h n with heq | ⟨n', heq⟩
  · exact heq
  · exact absurd heq (hc n n')

end Extends

end Eval

namespace Expr

section

variable {functions : List Function} {enter enter' : Env → Expr → Eval Value}

theorem evalArgs_extends {args : List Expr} {env : Env}
    (heval : ∀ a ∈ args, (a.evalWith functions enter env).Extends
      (a.evalWith functions enter' env)) :
    (evalArgs functions enter env args).Extends (evalArgs functions enter' env args) := by
  induction args with
  | nil => exact .refl _
  | cons arg args ih =>
    refine .bind (heval arg (by simp)) fun v => ?_
    exact .bind (ih fun a ha => heval a (by simp [ha])) fun vs => .refl _

theorem evalWith_extends (henter : ∀ env e, (enter env e).Extends (enter' env e)) (e : Expr)
    (env : Env) : (e.evalWith functions enter env).Extends (e.evalWith functions enter' env) := by
  induction e generalizing env with
  | letIn i x value body ihv ihb => exact .bind (ihv env) fun v => ihb (.var x.id v :: env)
  | letFun i f x paramTy resultTy body rest ihb ihr => exact ihr (.fn f.id x.id body :: env)
  | apply i f arg ih =>
    simp only [evalWith]
    rcases env.closure? f.id with _ | ⟨x, body, inner⟩
    · exact .refl _
    · exact .bind (ih env) fun v => .bind (.refl _) fun _ => henter (.var x v :: inner) body
  | call i f args ih =>
    simp only [evalWith]
    cases functions.find? fun g => g.name == f with
    | none => exact .refl _
    | some g =>
      by_cases harity : g.arity = args.length
      · simp only [if_pos harity]
        refine .bind (evalArgs_extends fun a ha => ih a ha env) fun vs => ?_
        exact .bind (.refl _) fun _ => henter (.ofArgs g.params vs) g.body
      · simp only [if_neg harity]
        exact .refl _
  | seq i first second ihf ihs => exact .bind (ihf env) fun _ => ihs env
  | binary i op left right ihl ihr =>
    exact .bind (ihl env) fun a => .bind (ihr env) fun b => .refl _
  | var | num | bool => exact .refl _

end

/-- What an evaluation comes to is not changed by allowing for more calls. -/
theorem eval_extends (functions : List Function) (depth : Nat) (env : Env) (e : Expr) :
    (e.eval functions depth env).Extends (e.eval functions (depth + 1) env) := by
  induction depth generalizing env e with
  | zero => exact evalWith_extends (fun _ _ => .tooDeep _) e env
  | succ depth ih => exact evalWith_extends ih e env

mutual

/-- No function is called from inside of its own body. The functions in sight are listed innermost
first, with whether the tree lies in their bodies. -/
def NoSelfCall (scope : List (String × Bool)) : Expr → Prop
  | letIn _ _ value body => value.NoSelfCall scope ∧ body.NoSelfCall scope
  | letFun _ f _ _ _ body rest =>
    body.NoSelfCall ((f.id, true) :: scope) ∧ rest.NoSelfCall ((f.id, false) :: scope)
  | apply _ f arg => scope.lookup f.id ≠ some true ∧ arg.NoSelfCall scope
  | call _ _ args => NoSelfCallOf scope args
  | seq _ a b | binary _ _ a b => a.NoSelfCall scope ∧ b.NoSelfCall scope
  | var .. | num .. | bool .. => True

def NoSelfCallOf (scope : List (String × Bool)) : List Expr → Prop
  | [] => True
  | e :: es => e.NoSelfCall scope ∧ NoSelfCallOf scope es

end

mutual

instance decidableNoSelfCall (scope : List (String × Bool)) :
    (e : Expr) → Decidable (e.NoSelfCall scope)
  | letIn _ _ a b | seq _ a b | binary _ _ a b =>
    have := decidableNoSelfCall scope a
    have := decidableNoSelfCall scope b
    inferInstanceAs (Decidable (a.NoSelfCall scope ∧ b.NoSelfCall scope))
  | letFun _ f _ _ _ a b =>
    have := decidableNoSelfCall ((f.id, true) :: scope) a
    have := decidableNoSelfCall ((f.id, false) :: scope) b
    inferInstanceAs (Decidable (a.NoSelfCall ((f.id, true) :: scope) ∧
      b.NoSelfCall ((f.id, false) :: scope)))
  | apply _ f a =>
    have := decidableNoSelfCall scope a
    inferInstanceAs (Decidable (scope.lookup f.id ≠ some true ∧ a.NoSelfCall scope))
  | call _ _ args => decidableNoSelfCallOf scope args
  | var .. | num .. | bool .. => inferInstanceAs (Decidable True)

instance decidableNoSelfCallOf (scope : List (String × Bool)) :
    (es : List Expr) → Decidable (NoSelfCallOf scope es)
  | [] => inferInstanceAs (Decidable True)
  | e :: es =>
    have := decidableNoSelfCall scope e
    have := decidableNoSelfCallOf scope es
    inferInstanceAs (Decidable (e.NoSelfCall scope ∧ NoSelfCallOf scope es))

end

mutual

def callDepth (depths : List (String × Nat)) : Expr → Nat
  | letIn _ _ value body => max (value.callDepth depths) (body.callDepth depths)
  | letFun _ f _ _ _ body rest =>
    rest.callDepth ((f.id, body.callDepth ((f.id, 0) :: depths)) :: depths)
  | apply _ f arg => max (arg.callDepth depths) ((depths.lookup f.id).getD 0 + 1)
  | call _ _ args => callDepthOf depths args
  | seq _ a b | binary _ _ a b => max (a.callDepth depths) (b.callDepth depths)
  | var .. | num .. | bool .. => 0

def callDepthOf (depths : List (String × Nat)) : List Expr → Nat
  | [] => 0
  | e :: es => max (e.callDepth depths) (callDepthOf depths es)

end

end Expr

/-- The functions of the environment are those in sight. A function that may be called has no call
of itself in its body and is listed with the depth of its body's calls. -/
inductive EnvCalls : List (String × Bool) → List (String × Nat) → Env → Prop
  | nil : EnvCalls [] [] []
  | var {scope : List (String × Bool)} {depths : List (String × Nat)} {env : Env} {x : String}
      {v : Value} (henv : EnvCalls scope depths env) : EnvCalls scope depths (.var x v :: env)
  | inside {scope : List (String × Bool)} {depths : List (String × Nat)} {env : Env} {f x : String}
      {body : Expr} (henv : EnvCalls scope depths env) :
      EnvCalls ((f, true) :: scope) ((f, 0) :: depths) (.fn f x body :: env)
  | outside {scope : List (String × Bool)} {depths : List (String × Nat)} {env : Env} {f x : String}
      {body : Expr} (henv : EnvCalls scope depths env)
      (hbody : body.NoSelfCall ((f, true) :: scope)) :
      EnvCalls ((f, false) :: scope) ((f, body.callDepth ((f, 0) :: depths)) :: depths)
        (.fn f x body :: env)

theorem EnvCalls.closure {scope : List (String × Bool)} {depths : List (String × Nat)}
    {env inner : Env}
    {f x : String} {body : Expr} (h : EnvCalls scope depths env) (hf : scope.lookup f ≠ some true)
    (hclosure : env.closure? f = some (x, body, inner)) :
    ∃ scope₀ depths₀, EnvCalls scope₀ depths₀ inner ∧ body.NoSelfCall scope₀ ∧
      depths.lookup f = some (body.callDepth depths₀) := by
  induction h with
  | nil => cases hclosure
  | var _ ih => exact ih hf hclosure
  | @inside scope depths env g y b henv ih =>
    have hg : f ≠ g := by
      rintro rfl
      exact hf List.lookup_cons_self
    rw [lookup_cons_of_ne hg] at hf ⊢
    exact ih hf (by simpa [Env.closure?, Ne.symm hg] using hclosure)
  | @outside scope depths env g y b henv hbody ih =>
    by_cases hg : f = g
    · subst hg
      simp only [Env.closure?, if_true, Option.some.injEq, Prod.mk.injEq] at hclosure
      obtain ⟨-, rfl, rfl⟩ := hclosure
      -- from inside of its body the function must not be called any more
      exact ⟨_, _, .inside henv, hbody, List.lookup_cons_self⟩
    · rw [lookup_cons_of_ne hg] at hf ⊢
      exact ih hf (by simpa [Env.closure?, Ne.symm hg] using hclosure)

namespace Expr

/-- One level of evaluation is not given up if the calls it makes are not. -/
theorem evalWith_settles {enter : Env → Expr → Eval Value} {limit : Nat}
    (henter : ∀ scope depths env e, EnvCalls scope depths env → e.NoSelfCall scope →
      e.callDepth depths < limit → (enter env e).Settles)
    {scope : List (String × Bool)} {depths : List (String × Nat)} {env : Env} {e : Expr}
    (henv : EnvCalls scope depths env) (h : e.NoSelfCall scope)
    (hdepth : e.callDepth depths ≤ limit) :
    (e.evalWith [] enter env).Settles := by
  induction e generalizing scope depths env with
  | letIn i x value body ihv ihb =>
    obtain ⟨hv, hb⟩ := max_le_iff.mp hdepth
    exact .bind (ihv henv h.1 hv) fun v => ihb henv.var h.2 hb
  | letFun i f x paramTy resultTy body rest ihb ihr => exact ihr (henv.outside h.1) h.2 hdepth
  | apply i f arg ih =>
    obtain ⟨harg, hcall⟩ := max_le_iff.mp hdepth
    simp only [evalWith]
    rcases hclosure : env.closure? f.id with _ | ⟨x, body, inner⟩
    · exact .fail _
    -- A body without calls of itself lies one level lower than every call of it: the entered
    -- evaluation is asked only for depths below `limit`.
    · obtain ⟨scope₀, depths₀, hinner, hbody, hlookup⟩ := henv.closure h.1 hclosure
      rw [hlookup, Option.getD_some] at hcall
      refine .bind (ih henv h.2 harg) fun v => .bind .countCall fun _ => ?_
      exact henter scope₀ depths₀ _ body hinner.var hbody hcall
  | call i f args ih => exact .fail _
  | seq i a b iha ihb =>
    obtain ⟨ha, hb⟩ := max_le_iff.mp hdepth
    exact .bind (iha henv h.1 ha) fun _ => ihb henv h.2 hb
  | binary i op a b iha ihb =>
    obtain ⟨ha, hb⟩ := max_le_iff.mp hdepth
    refine .bind (iha henv h.1 ha) fun v => .bind (ihb henv h.2 hb) fun w => ?_
    rcases op.apply? v w with _ | _
    · exact .fail _
    · exact .pure _
  | var i x =>
    simp only [evalWith]
    rcases env.value? x.id with _ | _
    · exact .fail _
    · exact .pure _
  | num | bool => exact .pure _

theorem eval_settles (depth : Nat) {scope : List (String × Bool)} {depths : List (String × Nat)}
    {env : Env} {e : Expr} (henv : EnvCalls scope depths env) (h : e.NoSelfCall scope)
    (hdepth : e.callDepth depths ≤ depth) : (e.eval [] depth env).Settles := by
  induction depth generalizing scope depths env e with
  | zero => exact evalWith_settles (fun _ _ _ _ _ _ h => absurd h (Nat.not_lt_zero _)) henv h hdepth
  | succ depth ih =>
    exact evalWith_settles (fun _ _ _ _ henv h hlt => ih henv h (Nat.le_of_lt_succ hlt))
      henv h hdepth

/-- From the depth of its calls on, evaluation of a tree does not depend on the depth. -/
theorem eval_eq_of_callDepth_le {e : Expr} (h : e.NoSelfCall []) {depth : Nat}
    (hdepth : e.callDepth [] ≤ depth) : e.eval [] depth [] = e.eval [] (e.callDepth []) [] := by
  induction depth, hdepth using Nat.le_induction with
  | base => rfl
  | succ depth hle ih => rw [(eval_extends [] depth [] e).eq (eval_settles depth .nil h hle), ih]

end Expr

/-- Trees without recursive calls terminate. If a tree resolves and passes the check, and no
function is called from inside of its own body, the resolved tree evaluates to a value of its type,
and so does the program that it is lifted to; both need no more than the depth of calls that is read
off the tree. -/
theorem evaluate_terminates_of_noSelfCall (e : Expr) {t : Ty}
    (h : e.resolve.typecheck.outcome = .ok t) (hcalls : e.resolve.NoSelfCall []) :
    ∃ p v, e.resolve.typecheck.item.lift = .ok p ∧ v.ty = t ∧
      ∀ depth, e.resolve.callDepth [] ≤ depth →
        e.resolve.evaluate depth = .ok v ∧ p.evaluate depth = .ok v := by
  obtain ⟨p, hlift, hlifts, hp⟩ := Expr.lift_checked h
  have hsettles := Expr.eval_settles (e.resolve.callDepth []) .nil hcalls (Nat.le_refl _)
  obtain ⟨v, hv, hty⟩ := hsettles.run (Expr.eval_safe_of_typecheck h _) 0
  refine ⟨p, v, hlift, hty, fun depth hdepth => ?_⟩
  have htree : e.resolve.evaluate depth = .ok v := by
    rw [Expr.evaluate, Expr.eval_eq_of_callDepth_le hcalls hdepth, hv]
  have hmain := Expr.eval_main (Expr.typecheck_typed h).1 (Expr.checked_noShadow h) hlifts hp depth
  refine ⟨htree, ?_⟩
  rw [Program.evaluate, ← hmain, Expr.eval_typecheck h]
  exact htree

/-- A function inside of another, calls of a function bound before, and the result of a function as
its next argument: `let f x : num -> num = x + 1 in let g y : num -> num = (let h z : num -> num = f
(f z) in h (f y)) in g (g 1)`. -/
def layeredCalls : Expr :=
  let i : Info := .untyped ⟨1, 1, 1⟩
  let var (s : String) : Expr := .var i (.plain s)
  let call (f : String) (arg : Expr) : Expr := .apply i (.plain f) arg
  let fn (f x : String) (body rest : Expr) : Expr :=
    .letFun i (.plain f) (.plain x) .num .num body rest
  fn "f" "x" (.binary i .add (var "x") (.num i 1)) <|
    fn "g" "y" (fn "h" "z" (call "f" (call "f" (var "z"))) (call "h" (call "f" (var "y")))) <|
      call "g" (call "g" (.num i 1))

theorem evaluate_terminates_of_noSelfCall_layeredCalls :
    layeredCalls.resolve.typecheck.outcome = .ok .num ∧ layeredCalls.resolve.NoSelfCall [] ∧
      layeredCalls.resolve.callDepth [] = 3 ∧ layeredCalls.evaluate 2 = .error .tooDeep ∧
      ∃ p v, layeredCalls.resolve.typecheck.item.lift = .ok p ∧ v.ty = .num ∧
        ∀ depth, 3 ≤ depth → layeredCalls.resolve.evaluate depth = .ok v ∧
          p.evaluate depth = .ok v := by
  have hcheck : layeredCalls.resolve.typecheck.outcome = .ok .num := by cbv
  have hcalls : layeredCalls.resolve.NoSelfCall [] := of_decide_eq_true (by cbv)
  have hdepth : layeredCalls.resolve.callDepth [] = 3 := by cbv
  refine ⟨hcheck, hcalls, hdepth, by cbv, ?_⟩
  rw [← hdepth]
  exact evaluate_terminates_of_noSelfCall layeredCalls hcheck hcalls

end LetStack
