import LetStack.Evaluation
import LetStack.Proofs.Trees

namespace LetStack

def Function.unmark (f : Function) : Function := { f with body := f.body.unmark }

theorem Function.find?_unmark (functions : List Function) (name : String) :
    ((functions.map unmark).find? fun g => g.name == name) =
      (functions.find? fun g => g.name == name).map unmark :=
  List.find?_map ..

def Program.unmark (p : Program) : Program := ⟨p.functions.map Function.unmark, p.main.unmark⟩

namespace Env

def mapBodies (f : Expr → Expr) (env : Env) : Env :=
  env.map fun
    | .var x v => .var x v
    | .fn g x body => .fn g x (f body)

theorem value?_mapBodies (f : Expr → Expr) (env : Env) (x : String) :
    (env.mapBodies f).value? x = env.value? x := by
  induction env with
  | nil => rfl
  | cons b env ih =>
    cases b with
    | var y v => exact congrArg (if y = x then some v else ·) ih
    | fn g y body => exact ih

theorem closure?_mapBodies (f : Expr → Expr) (env : Env) (g : String) :
    (env.mapBodies f).closure? g =
      (env.closure? g).map fun (x, body, inner) => (x, f body, Env.mapBodies f inner) := by
  induction env with
  | nil => rfl
  | cons b env ih =>
    cases b with
    | var y v => exact ih
    | fn h y body =>
      by_cases hh : h = g
      · simp [mapBodies, closure?, hh]
      · simpa [mapBodies, closure?, hh] using ih

theorem ofArgs_mapBodies (f : Expr → Expr) (params : List Param) (args : List Value) :
    (ofArgs params args).mapBodies f = ofArgs params args :=
  (List.foldl_hom (Env.mapBodies f) fun _ _ => rfl).symm

end Env

namespace Expr

section

variable {functions : List Function} {enter enter' : Env → Expr → Eval Value}

theorem evalArgs_unmark {args : List Expr} {env env' : Env}
    (heval : ∀ a ∈ args, a.unmark.evalWith (functions.map Function.unmark) enter' env' =
      a.evalWith functions enter env) :
    evalArgs (functions.map Function.unmark) enter' env' (unmarkAll args) =
      evalArgs functions enter env args := by
  induction args with
  | nil => rfl
  | cons a args ih =>
    simp only [unmarkAll, evalArgs, heval a (by simp), ih fun b hb => heval b (by simp [hb])]

theorem length_unmarkAll (args : List Expr) : (unmarkAll args).length = args.length := by
  induction args with
  | nil => rfl
  | cons a args ih => simp [unmarkAll, ih]

theorem evalWith_unmark (henter : ∀ env e, enter' (env.mapBodies unmark) e.unmark = enter env e)
    (e : Expr) (env : Env) :
    e.unmark.evalWith (functions.map Function.unmark) enter' (env.mapBodies unmark) =
      e.evalWith functions enter env := by
  induction e generalizing env with
  | letIn i x value body ihv ihb =>
    simp only [unmark, evalWith, ihv]
    exact bind_congr fun v => ihb (.var x.id v :: env)
  | letFun i f x paramTy resultTy body rest ihb ihr => exact ihr (.fn f.id x.id body :: env)
  | apply i f arg ih =>
    simp only [unmark, evalWith, Env.closure?_mapBodies]
    rcases env.closure? f.id with _ | ⟨x, body, inner⟩
    · rfl
    · simp only [Option.map_some, ih]
      exact bind_congr fun v => bind_congr fun _ => henter (.var x v :: inner) body
  | call i f args ih =>
    simp only [unmark, evalWith, Function.find?_unmark, length_unmarkAll,
      evalArgs_unmark fun a ha => ih a ha env]
    cases hg : functions.find? fun g => g.name == f with
    | none => rfl
    | some g =>
      have hbody (vs : List Value) :
          enter' (.ofArgs g.params vs) g.body.unmark = enter (.ofArgs g.params vs) g.body := by
        rw [← henter, Env.ofArgs_mapBodies]
      simp only [Option.map_some, Function.unmark, Function.arity, hbody]
      rfl
  | seq i a b iha ihb => simp only [unmark, evalWith, iha, ihb]
  | binary i op a b iha ihb =>
    simp only [unmark, evalWith, iha, ihb]
    rfl
  | var i x =>
    simp only [unmark, evalWith, Env.value?_mapBodies]
    rfl
  | num | bool => rfl

end

/-- Type marks do not matter to evaluation. -/
theorem eval_unmark (functions : List Function) (depth : Nat) (env : Env) (e : Expr) :
    e.unmark.eval (functions.map Function.unmark) depth (env.mapBodies unmark) =
      e.eval functions depth env := by
  induction depth generalizing env e with
  | zero => exact evalWith_unmark (fun _ _ => rfl) e env
  | succ depth ih => exact evalWith_unmark ih e env

end Expr

theorem Program.evaluate_unmark (p : Program) (depth : Nat) :
    p.unmark.evaluate depth = p.evaluate depth := by
  have hcallees : p.unmark.callees = p.callees.map Function.unmark := by
    simp only [callees, unmark, List.map_reverse]
  rw [evaluate, evaluate, hcallees, ← Expr.eval_unmark p.callees depth [] p.main]
  rfl

end LetStack
