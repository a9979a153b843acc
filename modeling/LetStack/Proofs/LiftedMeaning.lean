import Mathlib
import LetStack.Proofs.Lifting

namespace LetStack

open Lifter

namespace Env

def names : Env → List String
  | [] => []
  | .var x _ :: env => x :: names env
  | .fn f _ _ :: env => f :: names env

theorem value?_var_of_ne {env : Env} {x y : String} {v : Value} (h : y ≠ x) :
    value? y (.var x v :: env) = value? y env := by
  simp [value?, Ne.symm h]

theorem ofArgs_value?_aux {ps : List Param} {y : String} (value : String → Value) {env : Env}
    (h : (∃ p ∈ ps, p.name = y) ∨ env.value? y = some (value y)) :
    value? y ((ps.zip (ps.map fun p => value p.name)).foldl
      (fun env (p, v) => .var p.name v :: env) env) = some (value y) := by
  induction ps generalizing env with
  | nil => simpa using h
  | cons p ps ih =>
    refine ih ?_
    by_cases hp : p.name = y
    · exact .inr (by simp [value?, hp])
    · simpa [value?, hp] using h

/-- Where the arguments are given by the names of their parameters, so is the environment. -/
theorem ofArgs_value? {ps : List Param} {y : String} (value : String → Value)
    (hy : y ∈ ps.map Param.name) :
    (ofArgs ps (ps.map fun p => value p.name)).value? y = some (value y) :=
  ofArgs_value?_aux value (.inl (by simpa using hy))

end Env

/-- Every variable that the tree or the functions it calls use is among the names. -/
def Closed (scope : Scope) (names : List String) (e : Expr) : Prop :=
  ∀ v ∈ e.occurrences (capturesOf scope), v.name ∈ names

namespace Closed

variable {scope : Scope} {names : List String} {i : Info}

theorem letIn {x : Name} {value body : Expr} (h : Closed scope names (.letIn i x value body)) :
    Closed scope names value ∧ Closed scope (x.id :: names) body := by
  refine ⟨fun v hv => h v (List.mem_append_left _ hv), fun v hv => ?_⟩
  by_cases hvx : v.name = x.id
  · simp [hvx]
  · exact List.mem_cons_of_mem _ (h v (by simp [Expr.occurrences, hv, hvx]))

theorem letFun (name : String) {f x : Name} {paramTy resultTy : Ty} {body rest : Expr}
    {captures : FreeVars} (h : Closed scope names (.letFun i f x paramTy resultTy body rest))
    (hcaptures : captures = body.freeVars (capturesOf scope) [f.id, x.id]) :
    (∀ v ∈ captures, v.name ∈ names) ∧
      Closed ((f.id, ⟨name, captures⟩) :: scope) (x.id :: f.id :: names) body ∧
      Closed ((f.id, ⟨name, captures⟩) :: scope) (f.id :: names) rest := by
  -- The captures are bound around the definition, so a call of `f` in its own body or in
  -- `rest` brings no new free name.
  have hcap : ∀ v ∈ captures, v.name ∈ names := by
    intro v hv
    rw [hcaptures] at hv
    obtain ⟨hocc, hbound⟩ := Expr.mem_occurrences_of_mem_freeVars hv
    simp only [List.mem_cons, List.not_mem_nil, or_false, not_or] at hbound
    exact h v (by simp [Expr.occurrences, hocc, hbound])
  refine ⟨hcap, fun v hv => ?_, fun v hv => ?_⟩
  · rcases Expr.mem_occurrences_mono (fun _ _ => mem_capturesOf_cons) hv with hv | hv
    · by_cases hvx : v.name = x.id
      · simp [hvx]
      · by_cases hvf : v.name = f.id
        · simp [hvf]
        · simp [h v (by simp [Expr.occurrences, hv, hvx, hvf])]
    · simp [hcap v hv]
  · rcases Expr.mem_occurrences_mono (fun _ _ => mem_capturesOf_cons) hv with hv | hv
    · by_cases hvf : v.name = f.id
      · simp [hvf]
      · simp [h v (by simp [Expr.occurrences, hv, hvf])]
    · simp [hcap v hv]

end Closed

structure LiftedTree (functions : List Function) (scope : Scope) (names : List String)
    (e e' : Expr) : Prop where
  lifts : ∃ fs, Lifts scope e e' fs ∧ ∀ g ∈ fs, functions.find? (fun h => h.name == g.name) = some g
  noShadow : e.NoShadow names
  closed : Closed scope names e

/-- A function with parameter `x`, bound where `names` are in sight, is lifted to `g`. -/
structure LiftedFunction (functions : List Function) (scope : Scope) (names : List String)
    (entry : Entry) (x : String) (body : Expr) (g : Function) : Prop where
  callee : functions.find? (fun h => h.name == entry.name) = some g
  params : g.params.map Param.name = x :: entry.captures.map FreeVar.name
  fresh : x ∉ names
  captures : ∀ v ∈ entry.captures, v.name ∈ names
  body : LiftedTree functions scope (x :: names) body g.body

/-- The functions of the environment are those in sight, each lifted to one of the program, and no
binding hides another. -/
inductive EnvLifted (functions : List Function) : Scope → Env → Prop
  | nil : EnvLifted functions [] []
  | var {scope : Scope} {env : Env} {x : String} {v : Value} (henv : EnvLifted functions scope env)
      (hx : x ∉ env.names) : EnvLifted functions scope (.var x v :: env)
  | fn {scope : Scope} {env : Env} {f x : String} {body : Expr} {entry : Entry} {g : Function}
      (henv : EnvLifted functions scope env)
      (hg : LiftedFunction functions ((f, entry) :: scope) (f :: env.names) entry x body g) :
      EnvLifted functions ((f, entry) :: scope) (.fn f x body :: env)

/-- A function in sight has a closure, and the variables of the closure still have the values that
they had where the function was bound. -/
theorem EnvLifted.closure {functions : List Function} {scope : Scope} {env : Env} {f : String}
    {entry : Entry} (h : EnvLifted functions scope env) (hf : scope.lookup f = some entry) :
    ∃ x body inner scope₀ g, env.closure? f = some (x, body, inner) ∧
      EnvLifted functions scope₀ inner ∧
      LiftedFunction functions scope₀ inner.names entry x body g ∧
      ∀ y ∈ inner.names, y ∈ env.names ∧ inner.value? y = env.value? y := by
  induction h with
  | nil => simp at hf
  | @var scope env z v henv hz ih =>
    obtain ⟨x, body, inner, scope₀, g, hclosure, hinner, hg, hvalues⟩ := ih hf
    refine ⟨x, body, inner, scope₀, g, hclosure, hinner, hg, fun y hy => ?_⟩
    obtain ⟨hmem, hvalue⟩ := hvalues y hy
    -- the new variable hides none of those that the closure sees
    have hne : y ≠ z := fun h => hz (h ▸ hmem)
    exact ⟨List.mem_cons_of_mem _ hmem, by rw [hvalue, Env.value?_var_of_ne hne]⟩
  | @fn scope env k x body entry' g henv hg ih =>
    by_cases hk : f = k
    · subst hk
      obtain rfl : entry' = entry := by simpa using hf
      exact ⟨x, body, _, _, g, by simp [Env.closure?], .fn henv hg, hg, fun y hy => ⟨hy, rfl⟩⟩
    · rw [lookup_cons_of_ne hk] at hf
      obtain ⟨x', body', inner, scope₀, g', hclosure, hinner, hg', hvalues⟩ := ih hf
      refine ⟨x', body', inner, scope₀, g', ?_, hinner, hg', fun y hy => ?_⟩
      · simpa [Env.closure?, Ne.symm hk] using hclosure
      · exact ⟨List.mem_cons_of_mem _ (hvalues y hy).1, (hvalues y hy).2⟩

def Agree (s : Scopes) (env env' : Env) : Prop :=
  ∀ y t, s.vars.lookup y = some t → ∃ v, env.value? y = some v ∧ env'.value? y = some v

theorem Agree.var {s : Scopes} {env env' : Env} (h : Agree s env env') (x : String) (t : Ty)
    (v : Value) : Agree (s.var x t) (.var x v :: env) (.var x v :: env') := by
  intro y u hy
  by_cases hyx : y = x
  · exact ⟨v, by simp [Env.value?, hyx], by simp [Env.value?, hyx]⟩
  · rw [Scopes.var_vars, lookup_cons_of_ne hyx] at hy
    simpa only [Env.value?_var_of_ne hyx] using h y u hy

/-- What a call sees is what the closure's body sees, as far as the lifted body can tell. -/
theorem LiftedFunction.agree {functions : List Function} {scope : Scope} {entry : Entry}
    {x : String} {body : Expr} {g : Function} {env inner : Env}
    {lifted : List (String × Signature)} {values : String → Value}
    (hg : LiftedFunction functions scope inner.names entry x body g)
    (hinner : ∀ y ∈ inner.names, inner.value? y = env.value? y)
    (hvalues : ∀ v ∈ entry.captures, env.value? v.name = some (values v.name)) (v : Value) :
    Agree (Scopes.params { lifted := lifted } g.params) (.var x v :: inner)
      (.ofArgs g.params (v :: entry.captures.map fun w => values w.name)) := by
  -- the arguments as a function of the parameters' names, which differ
  let value (y : String) : Value := if y = x then v else values y
  have hne : ∀ w ∈ entry.captures, w.name ≠ x := fun w hw h => hg.fresh (h ▸ hg.captures w hw)
  have hargs : (v :: entry.captures.map fun w => values w.name) =
      g.params.map fun p => value p.name := by
    have hmap := congrArg (List.map value) hg.params
    rw [List.map_map] at hmap
    refine Eq.trans ?_ hmap.symm
    simp only [List.map_cons, List.map_map, List.cons.injEq]
    refine ⟨by simp [value], List.map_congr_left fun w hw => ?_⟩
    simp [value, hne w hw]
  intro y t hy
  have hmem : y ∈ g.params.map Param.name := by
    rcases Scopes.mem_of_params_lookup hy with h | h
    · exact h
    · simp at h
  refine ⟨value y, ?_, by rw [hargs]; exact Env.ofArgs_value? value hmem⟩
  rw [hg.params] at hmem
  rcases List.mem_cons.mp hmem with rfl | hmem
  · simp [Env.value?, value]
  · obtain ⟨w, hw, rfl⟩ := List.mem_map.mp hmem
    rw [Env.value?_var_of_ne (hne w hw), hinner _ (hg.captures w hw), hvalues w hw]
    simp [value, hne w hw]

structure Matches (functions : List Function) (lifted : List (String × Signature)) (env : Env)
    (e : Expr) (env' : Env) (e' : Expr) : Prop where
  tree : ∃ scope, EnvLifted functions scope env ∧ LiftedTree functions scope env.names e e'
  typed : ∃ s t, s.lifted = lifted ∧ e'.Typed s t ∧ Agree s env env'

namespace Expr

variable {functions : List Function} {lifted : List (String × Signature)}
  {enter enter' : Env → Expr → Eval Value}

theorem evalArgs_captures {s : Scopes} {env env' : Env} (span : Span) {vs : FreeVars} {ts : List Ty}
    (hargs : ArgsTyped s (vs.map (captureArg span)) ts) (hagree : Agree s env env') :
    ∃ values : String → Value, (∀ v ∈ vs, env.value? v.name = some (values v.name)) ∧
      evalArgs functions enter env' (vs.map (captureArg span)) =
        pure (vs.map fun v => values v.name) := by
  refine ⟨fun y => (env.value? y).getD (.num 0), ?_⟩
  induction vs generalizing ts with
  | nil => simp [evalArgs]
  | cons v vs ih =>
    cases hargs with
    | cons hv hvs =>
      cases hv with
      | var _ hlookup =>
        obtain ⟨w, hw, hw'⟩ := hagree _ _ hlookup
        obtain ⟨hmem, heval⟩ := ih hvs
        refine ⟨?_, ?_⟩
        · intro u hu
          rcases List.mem_cons.mp hu with rfl | hu
          · simp [hw]
          · exact hmem u hu
        · simp [evalArgs, captureArg, evalWith, hw', heval, hw]

/-- One level of evaluation, with calls that are known to match. -/
theorem evalWith_lifts (hfun : FunctionsTyped lifted functions)
    (henter : ∀ env e env' e', Matches functions lifted env e env' e' → enter env e = enter' env' e')
    {scope : Scope} {e e' : Expr} {fs : List Function} {env env' : Env} {s : Scopes} {t : Ty}
    (hlifts : Lifts scope e e' fs)
    (hfs : ∀ g ∈ fs, functions.find? (fun h => h.name == g.name) = some g)
    (hshadow : e.NoShadow env.names) (hclosed : Closed scope env.names e)
    (henv : EnvLifted functions scope env) (he : e'.Typed s t) (hagree : Agree s env env')
    (hs : s.lifted = lifted) :
    e.evalWith [] enter env = e'.evalWith functions enter' env' := by
  induction hlifts generalizing env env' s t with
  | @letIn scope i x value body value' body' fs gs _ _ ihv ihb =>
    simp only [List.mem_append] at hfs
    obtain ⟨hnv, hx, hnb⟩ := hshadow
    obtain ⟨hcv, hcb⟩ := hclosed.letIn
    cases he with
    | @letIn _ _ _ _ _ u _ _ hvalue hbody =>
      simp only [evalWith]
      rw [ihv (fun g hg => hfs g (.inl hg)) hnv hcv henv hvalue hagree hs]
      exact bind_congr fun v =>
        ihb (fun g hg => hfs g (.inr hg)) hnb hcb (.var henv hx) hbody (hagree.var x.id u v) hs
  | @letFun scope i f x paramTy resultTy body rest body' rest' fs gs name captures params hcaptures
      hparams hbody _ ihb ihr =>
    simp only [List.mem_append, List.mem_cons] at hfs
    obtain ⟨hf, hx, hnb, hnr⟩ := hshadow
    obtain ⟨hcap, hcb, hcr⟩ := hclosed.letFun name hcaptures
    let g := Lifter.lifted i x paramTy resultTy name params body'
    have hg : LiftedFunction functions ((f.id, ⟨name, captures⟩) :: scope) (f.id :: env.names)
        ⟨name, captures⟩ x.id body g := by
      refine ⟨hfs g (.inr (.inl rfl)), ?_, hx, ?_,
        ⟨fs, hbody, fun h hh => hfs h (.inl hh)⟩, hnb, hcb⟩
      · simp [g, Lifter.lifted, (params_of_mapM hparams).1]
      · exact fun v hv => List.mem_cons_of_mem _ (hcap v hv)
    -- a binding of a function is not evaluated; the lifted tree has nothing in its place
    simp only [evalWith]
    exact ihr (fun g hg => hfs g (.inr (.inr hg))) hnr hcr (.fn henv hg) he hagree hs
  | @apply scope i f arg arg' fs entry hf _ ih =>
    obtain ⟨x, body, inner, scope₀, g, hclosure, hinner, hg, hsame⟩ := henv.closure hf
    cases he with
    | @call _ _ _ _ sig _ hcallee hargs =>
      obtain ⟨g', hfind, -, htyped⟩ := hfun _ _ (hs ▸ hcallee)
      obtain rfl : g' = g := Option.some.inj (hfind.symm.trans hg.callee)
      have harity : g'.arity = (arg' :: entry.captures.map (captureArg i.span)).length := by
        simpa [Function.arity] using congrArg List.length hg.params
      rcases sig with ⟨params, result⟩
      -- the captures are plain variables, so passing them on takes no call of its own
      cases hargs with
      | cons harg hcaptured =>
        obtain ⟨values, hvalues, heval⟩ := evalArgs_captures i.span hcaptured hagree
        simp only [evalWith, hclosure, hfind, harity, if_true, evalArgs]
        rw [ih hfs hshadow (fun v hv => hclosed v (List.mem_append_right _ hv)) henv harg hagree hs,
          heval]
        simp only [bind_assoc, pure_bind]
        refine bind_congr fun v => bind_congr fun _ => ?_
        exact henter _ _ _ _ ⟨⟨scope₀, .var hinner hg.fresh, hg.body⟩, _, _,
          Scopes.params_lifted _ _, htyped, hg.agree (fun y hy => (hsame y hy).2) hvalues v⟩
  | seq _ _ iha ihb =>
    simp only [List.mem_append] at hfs
    cases he with
    | seq _ ha hb =>
      simp only [evalWith]
      rw [iha (fun g hg => hfs g (.inl hg)) hshadow.1
          (fun v hv => hclosed v (List.mem_append_left _ hv)) henv ha hagree hs,
        ihb (fun g hg => hfs g (.inr hg)) hshadow.2
          (fun v hv => hclosed v (List.mem_append_right _ hv)) henv hb hagree hs]
  | binary _ _ iha ihb =>
    simp only [List.mem_append] at hfs
    cases he with
    | binary _ ha hb _ =>
      simp only [evalWith]
      rw [iha (fun g hg => hfs g (.inl hg)) hshadow.1
          (fun v hv => hclosed v (List.mem_append_left _ hv)) henv ha hagree hs,
        ihb (fun g hg => hfs g (.inr hg)) hshadow.2
          (fun v hv => hclosed v (List.mem_append_right _ hv)) henv hb hagree hs]
  | var =>
    cases he with
    | var _ hx =>
      obtain ⟨v, hv, hv'⟩ := hagree _ _ hx
      simp only [evalWith, hv, hv']
  | num => rfl
  | bool => rfl

/-- Matching evaluations give the same result, with the same number of calls, at every depth. -/
theorem eval_lifts (hfun : FunctionsTyped lifted functions) (depth : Nat) {env env' : Env}
    {e e' : Expr} (h : Matches functions lifted env e env' e') :
    e.eval [] depth env = e'.eval functions depth env' := by
  induction depth generalizing env env' e e' with
  | zero =>
    obtain ⟨⟨scope, henv, ⟨fs, hlifts, hfs⟩, hshadow, hclosed⟩, s, t, hs, he, hagree⟩ := h
    exact evalWith_lifts hfun (fun _ _ _ _ _ => rfl) hlifts hfs hshadow hclosed henv he hagree hs
  | succ depth ih =>
    obtain ⟨⟨scope, henv, ⟨fs, hlifts, hfs⟩, hshadow, hclosed⟩, s, t, hs, he, hagree⟩ := h
    exact evalWith_lifts hfun (fun _ _ _ _ h => ih h) hlifts hfs hshadow hclosed henv he hagree hs

/-- The main expression of a program evaluates as the tree that the program was lifted from. -/
theorem eval_main {e : Expr} {p : Program} {t : Ty} (h : e.Typed {} t) (hshadow : e.NoShadow [])
    (hlifts : Lifts [] e p.main p.functions) (hp : p.WellTyped t) (depth : Nat) :
    e.eval [] depth [] = p.main.eval p.callees depth [] := by
  have hclosed : Closed [] [] e := by
    intro v hv
    obtain ⟨u, -, hu⟩ := occurrences_typed h hshadow (fun x u hx => by simp at hx)
      (by simp [capturesOf]) v hv
    simp at hu
  refine eval_lifts hp.functionsTyped depth ⟨⟨[], .nil, ⟨_, hlifts, ?_⟩, hshadow, hclosed⟩, ?_⟩
  · exact fun g hg => Program.callee_of_mem hp.nodup hg
  · exact ⟨{ lifted := p.signatures }, t, rfl, hp.main.1, fun y u hy => by simp at hy⟩

/-- Lifting preserves meaning. At every depth and after any number of earlier calls, a resolved and
checked tree and the program that it is lifted to end in the same way, with the same value and after
the same number of calls; so the one terminates exactly if the other does. -/
theorem lift_preserves_evaluation (e : Expr) {t : Ty} (h : e.resolve.typecheck.outcome = .ok t) :
    ∃ p, e.resolve.typecheck.item.lift = .ok p ∧ ∀ depth calls,
      (e.resolve.typecheck.item.eval [] depth []).run calls =
        (p.main.eval p.callees depth []).run calls := by
  obtain ⟨p, hp, hlifts, hwell⟩ := lift_checked h
  refine ⟨p, hp, fun depth calls => ?_⟩
  rw [eval_main (typecheck_typed h).1 (checked_noShadow h) hlifts hwell]

/-- The inner function captures a variable and the parameter of the outer function:
`let x = 3 in let f y : num -> num = let g z : num -> num = x + (y + z) in g y in f x`. -/
def nestedCapture : Expr :=
  let i : Info := .untyped ⟨1, 1, 1⟩
  let var (s : String) : Expr := .var i (.plain s)
  .letIn i (.plain "x") (.num i 3) <|
    .letFun i (.plain "f") (.plain "y") .num .num
      (.letFun i (.plain "g") (.plain "z") .num .num
        (.binary i .add (var "x") (.binary i .add (var "y") (var "z")))
        (.apply i (.plain "g") (var "y")))
      (.apply i (.plain "f") (var "x"))

theorem lift_preserves_evaluation_nestedCapture :
    nestedCapture.resolve.typecheck.outcome = .ok .num ∧
      ∃ p, nestedCapture.resolve.typecheck.item.lift = .ok p ∧ ∀ depth calls,
        (nestedCapture.resolve.typecheck.item.eval [] depth []).run calls =
          (p.main.eval p.callees depth []).run calls :=
  ⟨by cbv, lift_preserves_evaluation nestedCapture (by cbv)⟩

end Expr

end LetStack
