import LetStack.Evaluation
import LetStack.Proofs.Typing

namespace LetStack

namespace Eval

/-- The computation ends in no evaluation error, a result satisfies `post`, and nothing but `deep`
lets it be given up. -/
def Ends {α : Type} (c : Eval α) (post : α → Prop) (deep : Prop) : Prop :=
  ∀ n, match c n with
    | .ok a _ => post a
    | .error .tooDeep _ => deep
    | .error (.failed _) _ => False

namespace Ends

variable {α β : Type} {c : Eval α} {post post' : α → Prop} {deep deep' : Prop}

theorem pure {a : α} (h : post a) : Ends (pure a) post deep := fun _ => h

theorem tooDeep (h : deep) : Ends (throw .tooDeep : Eval α) post deep := fun _ => h

theorem countCall : Ends countCall (fun _ => True) deep := fun _ => trivial

theorem bind {k : α → Eval β} {last : β → Prop} (hc : Ends c post deep)
    (hk : ∀ a, post a → Ends (k a) last deep) : Ends (c >>= k) last deep := by
  intro n
  have h := hc n
  simp only [Bind.bind, EStateM.bind]
  rcases hn : c n with ⟨a, n'⟩ | ⟨stop, n'⟩
  · rw [hn] at h
    exact hk a h n'
  · cases stop with
    | failed e => rw [hn] at h; exact h
    | tooDeep => rw [hn] at h; exact h

theorem imp (h : Ends c post deep) (hpost : ∀ a, post a → post' a) (hdeep : deep → deep') :
    Ends c post' deep' := by
  intro n
  have h := h n
  rcases hn : c n with ⟨a, n'⟩ | ⟨stop | _, n'⟩ <;> rw [hn] at h
  · exact hpost a h
  · exact h
  · exact hdeep h

theorem and (h : Ends c post deep) (h' : Ends c post' deep') :
    Ends c (fun a => post a ∧ post' a) deep := by
  intro n
  have h := h n
  have h' := h' n
  rcases hn : c n with ⟨a, n'⟩ | ⟨stop | _, n'⟩ <;> rw [hn] at h h'
  · exact ⟨h, h'⟩
  · exact h
  · exact h

theorem outcome (h : Ends c post deep) : (∃ a, post a) ∨ deep := by
  have h := h 0
  rcases hn : c 0 with ⟨a, n'⟩ | ⟨stop | _, n'⟩ <;> rw [hn] at h
  · exact .inl ⟨a, h⟩
  · exact h.elim
  · exact .inr h

end Ends

abbrev Safe {α : Type} (c : Eval α) (post : α → Prop) : Prop := c.Ends post True

/-- The computation has this result, however many calls were counted before. -/
def Yields {α : Type} (c : Eval α) (a : α) : Prop := c.Ends (fun b => b = a) False

namespace Yields

variable {α β : Type} {c : Eval α} {a : α}

theorem pure (a : α) : Yields (pure a) a := Ends.pure rfl

theorem bind {k : α → Eval β} {b : β} (hc : c.Yields a) (hk : (k a).Yields b) :
    (c >>= k).Yields b := Ends.bind hc fun _ h => h ▸ hk

theorem countCall : Yields countCall () := Ends.imp Ends.countCall (fun _ _ => rfl) id

theorem run {c : Eval Value} {v : Value} (h : c.Yields v) (n : Nat) : (c.run n).1 = .ok v := by
  have hn := h n
  simp only [Eval.run]
  rcases hc : c n with ⟨a, n'⟩ | ⟨stop | _, n'⟩ <;> rw [hc] at hn
  · exact congrArg Except.ok hn
  · exact hn.elim
  · exact hn.elim

end Yields

end Eval

/-- The environment has a binding for each entry of the scopes, in the same order; what a function
sees is typed in the scopes beneath it. -/
inductive EnvTyped : Scopes → Env → Prop
  | nil {lifted : List (String × Signature)} : EnvTyped { lifted := lifted } []
  | var {s : Scopes} {env : Env} (x : String) (v : Value) (henv : EnvTyped s env) :
      EnvTyped (s.var x v.ty) (.var x v :: env)
  | fn {s : Scopes} {env : Env} {f x : String} {a : Arrow} {body : Expr} (henv : EnvTyped s env)
      (hbody : body.Typed ((s.arrow f a).var x a.param) a.result) :
      EnvTyped (s.arrow f a) (.fn f x body :: env)

namespace EnvTyped

theorem value {s : Scopes} {env : Env} {x : String} {t : Ty} (henv : EnvTyped s env)
    (hx : s.vars.lookup x = some t) : ∃ v, env.value? x = some v ∧ v.ty = t := by
  induction henv with
  | nil => simp at hx
  | var y v henv ih =>
    by_cases hy : x = y
    · subst hy
      simp only [Scopes.var, List.lookup_cons_self, Option.some.injEq] at hx
      exact ⟨v, by simp [Env.value?], hx⟩
    · rw [Scopes.var_vars, lookup_cons_of_ne hy] at hx
      simpa [Env.value?, Ne.symm hy] using ih hx
  | fn henv hbody ih => exact ih hx

theorem closure {s : Scopes} {env : Env} {f : String} {a : Arrow} (henv : EnvTyped s env)
    (hf : s.funs.lookup f = some a) :
    ∃ x body inner s₀, env.closure? f = some (x, body, inner) ∧ EnvTyped s₀ inner ∧
      s₀.lifted = s.lifted ∧ body.Typed (s₀.var x a.param) a.result := by
  induction henv with
  | nil => simp at hf
  | var y v henv ih => exact ih hf
  | @fn s env g x b body henv hbody ih =>
    by_cases hg : f = g
    · subst hg
      simp only [Scopes.arrow, List.lookup_cons_self, Option.some.injEq] at hf
      subst hf
      -- the closure starts at the binding of the function itself, so the body sees that too
      exact ⟨x, body, _, _, by simp [Env.closure?], .fn henv hbody, rfl, hbody⟩
    · rw [Scopes.arrow_funs, lookup_cons_of_ne hg] at hf
      simpa [Env.closure?, Ne.symm hg] using ih hf

theorem args {s : Scopes} {env : Env} {ps : List Param} {vs : List Value} (henv : EnvTyped s env)
    (h : vs.map Value.ty = ps.map Param.ty) :
    EnvTyped (s.params ps) ((ps.zip vs).foldl (fun env (p, v) => .var p.name v :: env) env) := by
  induction ps generalizing s env vs with
  | nil => simpa [Scopes.params] using henv
  | cons p ps ih =>
    cases vs with
    | nil => simp at h
    | cons v vs =>
      simp only [List.map_cons, List.cons.injEq] at h
      have hv := EnvTyped.var p.name v henv
      rw [h.1] at hv
      exact ih hv h.2

/-- Arguments of the parameters' types make an environment of the parameters' scopes. -/
theorem ofArgs {lifted : List (String × Signature)} {ps : List Param} {vs : List Value}
    (h : vs.map Value.ty = ps.map Param.ty) :
    EnvTyped (Scopes.params { lifted := lifted } ps) (Env.ofArgs ps vs) :=
  args .nil h

end EnvTyped

def Function.Typed (lifted : List (String × Signature)) (f : Function) : Prop :=
  f.body.Typed (Scopes.params { lifted := lifted } f.params) f.resultTy

/-- Each signature belongs to the function that calls of this name enter, and that is typed. -/
def FunctionsTyped (lifted : List (String × Signature)) (functions : List Function) : Prop :=
  ∀ f sig, lifted.lookup f = some sig →
    ∃ g, (functions.find? fun g => g.name == f) = some g ∧ g.signature = sig ∧ g.Typed lifted

namespace Expr

def EnterSafe (lifted : List (String × Signature)) (enter : Env → Expr → Eval Value) : Prop :=
  ∀ s env e t, s.lifted = lifted → EnvTyped s env → e.Typed s t →
    (enter env e).Safe fun v => v.ty = t

theorem result_of_apply {op : BinOp} {a b : Value} {t : Ty} (h : op.result? a.ty b.ty = some t) :
    ∃ v, op.apply? a b = some v ∧ v.ty = t := by
  cases op <;> cases a <;> cases b <;> simp_all [BinOp.result?, BinOp.apply?, Value.ty]

section

variable {functions : List Function} {enter : Env → Expr → Eval Value}
  {lifted : List (String × Signature)}

theorem evalArgs_safe {args : List Expr} {s : Scopes} {env : Env} {ts : List Ty}
    (heval : ∀ a ∈ args, ∀ t, a.Typed s t → (a.evalWith functions enter env).Safe fun v => v.ty = t)
    (h : ArgsTyped s args ts) :
    (evalArgs functions enter env args).Safe fun vs => vs.map Value.ty = ts := by
  induction args generalizing ts with
  | nil => cases h; exact .pure rfl
  | cons arg args ih =>
    cases h with
    | cons harg hargs =>
      refine .bind (heval arg (by simp) _ harg) fun v hv => ?_
      refine .bind (ih (fun a ha => heval a (by simp [ha])) hargs) fun vs hvs => ?_
      exact .pure (by simp [hv, hvs])

/-- One level of evaluation is safe if the calls it makes are. -/
theorem evalWith_safe (hfun : FunctionsTyped lifted functions) (henter : EnterSafe lifted enter) :
    EnterSafe lifted (evalWith functions enter) := by
  intro s env e t hs henv h
  induction e generalizing s env t with
  | letIn i x value body ihv ihb =>
    cases h with
    | letIn _ hvalue hbody =>
      refine .bind (ihv _ _ _ hs henv hvalue) fun v hv => ?_
      subst hv
      exact ihb (s.var x.id v.ty) _ _ hs (.var x.id v henv) hbody
  | letFun i f x paramTy resultTy body rest ihb ihr =>
    cases h with
    | letFun _ hbody hrest => exact ihr (s.arrow _ _) _ _ hs (.fn henv hbody) hrest
  | apply i f arg ih =>
    cases h with
    | apply _ hf harg =>
      obtain ⟨x, body, inner, s₀, hclosure, hinner, hlifted, hbody⟩ := henv.closure hf
      simp only [evalWith, hclosure]
      refine .bind (ih _ _ _ hs henv harg) fun v hv => ?_
      refine .bind Eval.Ends.countCall fun _ _ => ?_
      -- the body is entered in the scopes of its binding, not in those of the call
      have hvar := EnvTyped.var x v hinner
      rw [hv] at hvar
      exact henter (s₀.var x _) _ _ _ (hlifted.trans hs) hvar hbody
  | call i f args ih =>
    cases h with
    | @call _ _ _ _ sig _ hf hargs =>
      subst hs
      obtain ⟨g, hfind, rfl, hg⟩ := hfun f sig hf
      have harity : g.arity = args.length := by
        simpa [Function.signature, Function.arity] using hargs.length_eq.symm
      simp only [evalWith, hfind, harity, if_true]
      refine .bind (evalArgs_safe (fun a ha t h => ih a ha _ _ _ rfl henv h) hargs) fun vs hvs => ?_
      refine .bind Eval.Ends.countCall fun _ _ => ?_
      exact henter _ _ _ _ (Scopes.params_lifted { lifted := s.lifted } _) (.ofArgs hvs) hg
  | seq i first second ihf ihs =>
    cases h with
    | seq _ hfirst hsecond =>
      exact .bind (ihf _ _ _ hs henv hfirst) fun _ _ => ihs _ _ _ hs henv hsecond
  | binary i op left right ihl ihr =>
    cases h with
    | binary _ hleft hright hop =>
      refine .bind (ihl _ _ _ hs henv hleft) fun a ha => ?_
      refine .bind (ihr _ _ _ hs henv hright) fun b hb => ?_
      subst ha hb
      obtain ⟨v, hv, ht⟩ := result_of_apply hop
      simp only [hv]
      exact .pure ht
  | var i x =>
    cases h with
    | var _ hx =>
      obtain ⟨v, hv, ht⟩ := henv.value hx
      simp only [evalWith, hv]
      exact .pure ht
  | num i n => cases h; exact .pure rfl
  | bool i b => cases h; exact .pure rfl

theorem eval_safe (hfun : FunctionsTyped lifted functions) (depth : Nat) :
    EnterSafe lifted (eval functions depth) := by
  induction depth with
  | zero => exact evalWith_safe hfun fun _ _ _ _ _ _ _ => .tooDeep trivial
  | succ depth ih => exact evalWith_safe hfun ih

end

end Expr

end LetStack
