import Mathlib
import LetStack.Proofs.Marks
import LetStack.Proofs.Scoping

namespace LetStack

def EvalError.NotFound : EvalError → Prop
  | unboundVariable .. | unboundFunction .. => True
  | operandMismatch .. | arityMismatch .. => False

namespace Eval

/-- The second computation comes to the same as the first, or ends in a `stray` error. The first
does not end for want of a binding. -/
structure Follows {α : Type} (stray : EvalError → Prop) (c c' : Eval α) : Prop where
  same : ∀ n, c' n = c n ∨ ∃ error n', c' n = .error (.failed error) n' ∧ stray error
  bound : ∀ n error n', c n = .error (.failed error) n' → ¬error.NotFound

namespace Follows

variable {α β : Type} {stray : EvalError → Prop} {c c' : Eval α}

theorem refl (h : ∀ n error n', c n = .error (.failed error) n' → ¬error.NotFound) :
    Follows stray c c :=
  ⟨fun _ => .inl rfl, h⟩

theorem pure (a : α) : Follows stray (pure a) (pure a) := refl fun _ _ _ h => by cases h

theorem countCall : Follows stray countCall countCall := refl fun _ _ _ h => by cases h

theorem tooDeep : Follows stray (throw .tooDeep : Eval α) (throw .tooDeep) :=
  refl fun _ _ _ h => by cases h

theorem fail {error : EvalError} (h : ¬error.NotFound) :
    Follows stray (fail error : Eval α) (fail error) := by
  refine refl fun n error' n' heq => ?_
  cases heq
  exact h

theorem lost {error : EvalError} (h : Follows stray c c') (herror : stray error) :
    Follows stray c (Eval.fail error) :=
  ⟨fun n => .inr ⟨error, n, rfl, herror⟩, h.bound⟩

theorem bind {k k' : α → Eval β} (hc : Follows stray c c') (hk : ∀ a, Follows stray (k a) (k' a)) :
    Follows stray (c >>= k) (c' >>= k') := by
  constructor
  · intro n
    simp only [Bind.bind, EStateM.bind]
    rcases hc.same n with heq | ⟨error, n', heq, herror⟩
    · rw [heq]
      rcases c n with ⟨a, n'⟩ | ⟨stop, n'⟩
      · exact (hk a).same n'
      · exact .inl rfl
    · exact .inr ⟨error, n', by rw [heq], herror⟩
  · intro n error n' h
    simp only [Bind.bind, EStateM.bind] at h
    rcases hn : c n with ⟨a, n₁⟩ | ⟨stop, n₁⟩
    · rw [hn] at h
      exact (hk a).bound n₁ error n' h
    · rw [hn] at h
      cases h
      exact hc.bound n error n' hn

/-- What holds of the computations holds of what they come to. -/
theorem run {c c' : Eval Value} (h : Follows stray c c') (n : Nat) :
    (c'.run n).1 = (c.run n).1 ∨ ∃ error, (c'.run n).1 = .error (.failed error) ∧ stray error := by
  unfold Eval.run
  rcases h.same n with heq | ⟨error, n', heq, herror⟩
  · exact .inl (by rw [heq])
  · exact .inr ⟨error, by rw [heq], herror⟩

theorem run_ne {c c' : Eval Value} {n : Nat} {error : EvalError} (h : Follows stray c c')
    (herror : error.NotFound) : (c.run n).1 ≠ .error (.failed error) := by
  unfold Eval.run
  rcases hn : c n with ⟨v, n'⟩ | ⟨stop, n'⟩
  · simp
  · intro heq
    obtain rfl := Except.error.inj heq
    exact h.bound n error n' hn herror

end Follows

end Eval

namespace Renaming

def Use.notFound (u : Use) : EvalError :=
  match u.kind with
  | .value => .unboundVariable u.name.display u.span
  | .function => .unboundFunction u.name.display u.span

theorem Use.notFound_notFound (u : Use) : u.notFound.NotFound := by
  unfold notFound
  split <;> trivial

@[simp] theorem Use.asWritten_notFound (u : Use) : u.asWritten.notFound = u.notFound := by
  simp [notFound, asWritten]

section

variable (stray : EvalError → Prop)

/-- A use of `x` becomes one of `y`: that is the name of the nearest binder of its spelling. If that
binder is of the other kind, one further out is of the right kind, and `error` is a stray one. -/
inductive Hits (scope : List Binder) (kind : BinderKind) (x y : String) (error : EvalError) : Prop
  | own (h : nearest scope x = some ⟨kind, x, y⟩)
  | other {kind' : BinderKind} {z : String} (h : nearest scope x = some ⟨kind', x, y⟩)
      (hkind : kind' ≠ kind) (hz : ⟨kind, x, z⟩ ∈ scope) (hstray : stray error)

/-- The trees differ in the names of binders that are not in sight before, and in the names of uses,
which follow the binders. -/
inductive Renames : List Binder → Expr → Expr → Prop
  | letIn {scope : List Binder} {i : Info} {x y : Name} {value value' body body' : Expr}
      (hy : y.id ∉ ids scope) (hvalue : Renames scope value value')
      (hbody : Renames (⟨.value, x.id, y.id⟩ :: scope) body body') :
      Renames scope (.letIn i x value body) (.letIn i y value' body')
  | letFun {scope : List Binder} {i : Info} {f g x y : Name} {paramTy resultTy : Ty}
      {body body' rest rest' : Expr} (hg : g.id ∉ ids scope) (hy : y.id ∉ g.id :: ids scope)
      (hbody : Renames (⟨.value, x.id, y.id⟩ :: ⟨.function, f.id, g.id⟩ :: scope) body body')
      (hrest : Renames (⟨.function, f.id, g.id⟩ :: scope) rest rest') :
      Renames scope (.letFun i f x paramTy resultTy body rest)
        (.letFun i g y paramTy resultTy body' rest')
  | apply {scope : List Binder} {i : Info} {f g : Name} {arg arg' : Expr}
      (hf : Hits stray scope .function f.id g.id (.unboundFunction g.display i.span))
      (harg : Renames scope arg arg') : Renames scope (.apply i f arg) (.apply i g arg')
  | seq {scope : List Binder} {i : Info} {a a' b b' : Expr} (ha : Renames scope a a')
      (hb : Renames scope b b') : Renames scope (.seq i a b) (.seq i a' b')
  | binary {scope : List Binder} {i : Info} {op : BinOp} {a a' b b' : Expr}
      (ha : Renames scope a a') (hb : Renames scope b b') :
      Renames scope (.binary i op a b) (.binary i op a' b')
  | var {scope : List Binder} {i : Info} {x y : Name}
      (hx : Hits stray scope .value x.id y.id (.unboundVariable y.display i.span)) :
      Renames scope (.var i x) (.var i y)
  | num {scope : List Binder} {i : Info} {n : Word} : Renames scope (.num i n) (.num i n)
  | bool {scope : List Binder} {i : Info} {b : Bool} : Renames scope (.bool i b) (.bool i b)

inductive EnvRenames : List Binder → Env → Env → Prop
  | nil : EnvRenames [] [] []
  | var {scope : List Binder} {env env' : Env} {y : String} (henv : EnvRenames scope env env')
      (hy : y ∉ ids scope) (x : String) (v : Value) :
      EnvRenames (⟨.value, x, y⟩ :: scope) (.var x v :: env) (.var y v :: env')
  | fn {scope : List Binder} {env env' : Env} {f g x y : String} {body body' : Expr}
      (henv : EnvRenames scope env env') (hg : g ∉ ids scope) (hy : y ∉ g :: ids scope)
      (hbody : Renames stray (⟨.value, x, y⟩ :: ⟨.function, f, g⟩ :: scope) body body') :
      EnvRenames (⟨.function, f, g⟩ :: scope) (.fn f x body :: env) (.fn g y body' :: env')

end

section

variable {stray : EvalError → Prop} {scope : List Binder} {env env' : Env}

theorem Hits.mem {kind : BinderKind} {x y : String} {error : EvalError}
    (h : Hits stray scope kind x y error) : ∃ z, ⟨kind, x, z⟩ ∈ scope := by
  cases h with
  | own h => exact ⟨y, mem_of_nearest h⟩
  | other _ _ hz _ => exact ⟨_, hz⟩

namespace EnvRenames

theorem nodup (henv : EnvRenames stray scope env env') : (ids scope).Nodup := by
  induction henv with
  | nil => exact List.nodup_nil
  | var _ hy _ _ ih => exact List.nodup_cons.mpr ⟨hy, ih⟩
  | fn _ hg _ _ ih => exact List.nodup_cons.mpr ⟨hg, ih⟩

/-- A variable has a value, and under the name of its nearest binder the renamed one has it too. -/
theorem value {x z : String} (henv : EnvRenames stray scope env env') (h : ⟨.value, x, z⟩ ∈ scope) :
    ∃ v, env.value? x = some v ∧
      ∀ y, nearest scope x = some ⟨.value, x, y⟩ → env'.value? y = some v := by
  induction henv with
  | nil => cases h
  | @var scope _ _ y₀ henv hy₀ w v ih =>
    by_cases hw : w = x
    · subst hw
      refine ⟨v, by simp [Env.value?], fun y hy => ?_⟩
      rw [nearest_cons_self] at hy
      cases hy
      simp [Env.value?]
    · have htail : ⟨.value, x, z⟩ ∈ scope := by simpa [Ne.symm hw] using h
      obtain ⟨v', hv', hnearest⟩ := ih htail
      refine ⟨v', by simpa [Env.value?, hw] using hv', fun y hy => ?_⟩
      -- the name is that of a binder further out, so this one does not hide it either
      rw [nearest_cons_of_ne scope hw] at hy
      have hmem : y ∈ ids scope := List.mem_map_of_mem (mem_of_nearest hy)
      have hne : y₀ ≠ y := fun heq => hy₀ (heq ▸ hmem)
      simpa [Env.value?, hne] using hnearest y hy
  | @fn scope _ _ f g _ _ _ _ henv hg _ _ ih =>
    have htail : ⟨.value, x, z⟩ ∈ scope := by simpa using h
    obtain ⟨v, hv, hnearest⟩ := ih htail
    refine ⟨v, hv, fun y hy => ?_⟩
    by_cases hf : f = x
    · -- the nearest binder is a function
      subst hf
      rw [nearest_cons_self] at hy
      cases hy
    · rw [nearest_cons_of_ne scope hf] at hy
      exact hnearest y hy

/-- A function has a closure and a renamed one, which is found under the name of the function's
nearest binder. -/
theorem closure {f z : String} (henv : EnvRenames stray scope env env')
    (h : ⟨.function, f, z⟩ ∈ scope) :
    ∃ x y body body' inner inner' scope₀, env.closure? f = some (x, body, inner) ∧
      (∀ g, nearest scope f = some ⟨.function, f, g⟩ →
        env'.closure? g = some (y, body', inner')) ∧ EnvRenames stray scope₀ inner inner' ∧
      y ∉ ids scope₀ ∧ Renames stray (⟨.value, x, y⟩ :: scope₀) body body' := by
  induction henv with
  | nil => cases h
  | @var scope _ _ y₀ henv _ w v ih =>
    have htail : ⟨.function, f, z⟩ ∈ scope := by simpa using h
    obtain ⟨x, y, body, body', inner, inner', scope₀, hc, hnearest, hrest⟩ := ih htail
    refine ⟨x, y, body, body', inner, inner', scope₀, hc, fun g hg => ?_, hrest⟩
    by_cases hw : w = f
    · subst hw
      rw [nearest_cons_self] at hg
      cases hg
    · rw [nearest_cons_of_ne scope hw] at hg
      exact hnearest g hg
  | @fn scope env env' k k' x y body body' henv hk hy hbody ih =>
    by_cases hkf : k = f
    · subst hkf
      refine ⟨x, y, body, body', _, _, _, by simp [Env.closure?], fun g hg => ?_,
        .fn henv hk hy hbody, hy, hbody⟩
      rw [nearest_cons_self] at hg
      cases hg
      simp [Env.closure?]
    · have htail : ⟨.function, f, z⟩ ∈ scope := by simpa [Ne.symm hkf] using h
      obtain ⟨x, y, body, body', inner, inner', scope₀, hc, hnearest, hrest⟩ := ih htail
      refine ⟨x, y, body, body', inner, inner', scope₀, by simpa [Env.closure?, hkf] using hc,
        fun g hg => ?_, hrest⟩
      rw [nearest_cons_of_ne scope hkf] at hg
      -- A fresh id hides no id of the scope, so the new binder is passed over on both sides.
      have hmem : g ∈ ids scope := List.mem_map_of_mem (mem_of_nearest hg)
      have hne : k' ≠ g := fun heq => hk (heq ▸ hmem)
      simpa [Env.closure?, hne] using hnearest g hg

theorem value?_eq_none {y : String} (henv : EnvRenames stray scope env env')
    (h : ∀ b ∈ scope, b.id = y → b.kind ≠ .value) : env'.value? y = none := by
  induction henv with
  | nil => rfl
  | @var scope _ _ y₀ henv _ x v ih =>
    have hne : y₀ ≠ y := fun heq => h _ List.mem_cons_self heq rfl
    simpa [Env.value?, hne] using ih fun b hb => h b (List.mem_cons_of_mem _ hb)
  | fn _ _ _ _ ih => exact ih fun b hb => h b (List.mem_cons_of_mem _ hb)

theorem closure?_eq_none {g : String} (henv : EnvRenames stray scope env env')
    (h : ∀ b ∈ scope, b.id = g → b.kind ≠ .function) : env'.closure? g = none := by
  induction henv with
  | nil => rfl
  | var _ _ _ _ ih => exact ih fun b hb => h b (List.mem_cons_of_mem _ hb)
  | @fn scope _ _ f g₀ _ _ _ _ henv _ _ _ ih =>
    have hne : g₀ ≠ g := fun heq => h _ List.mem_cons_self heq rfl
    simpa [Env.closure?, hne] using ih fun b hb => h b (List.mem_cons_of_mem _ hb)

/-- The names in sight differ, so that of a binder of the other kind is no name of this kind. -/
theorem kind_ne {kind kind' : BinderKind} {x y : String} (henv : EnvRenames stray scope env env')
    (h : nearest scope x = some ⟨kind', x, y⟩) (hkind : kind' ≠ kind) :
    ∀ b ∈ scope, b.id = y → b.kind ≠ kind := by
  intro b hb hid
  rwa [List.inj_on_of_nodup_map henv.nodup hb (mem_of_nearest h) hid]

end EnvRenames

end

def EnterFollows (stray : EvalError → Prop) (enter enter' : Env → Expr → Eval Value) : Prop :=
  ∀ scope env env' e e', EnvRenames stray scope env env' → Renames stray scope e e' →
    Eval.Follows stray (enter env e) (enter' env' e')

theorem evalWith_renames {stray : EvalError → Prop} {enter enter' : Env → Expr → Eval Value}
    (henter : EnterFollows stray enter enter') (functions : List Function) :
    EnterFollows stray (Expr.evalWith functions enter) (Expr.evalWith functions enter') := by
  intro scope env env' e e' henv h
  induction h generalizing env env' with
  | letIn hy _ _ ihv ihb => exact .bind (ihv env env' henv) fun v => ihb _ _ (henv.var hy _ v)
  | letFun hg hy hbody _ _ ihr => exact ihr _ _ (henv.fn hg hy hbody)
  | apply hf _ ih =>
    obtain ⟨z, hz⟩ := hf.mem
    obtain ⟨x, y, body, body', inner, inner', scope₀, hc, hnearest, hinner, hy, hbody⟩ :=
      henv.closure hz
    have hcall := Eval.Follows.bind (ih env env' henv) fun v => .bind .countCall fun _ =>
      henter _ _ _ _ _ (hinner.var hy x v) hbody
    simp only [Expr.evalWith, hc]
    cases hf with
    | own h => simpa only [hnearest _ h] using hcall
    | other h hkind _ hstray =>
      -- The nearest binder is of the other kind: the renamed tree does not find the function.
      simpa only [henv.closure?_eq_none (henv.kind_ne h hkind)] using hcall.lost hstray
  | seq _ _ iha ihb => exact .bind (iha env env' henv) fun _ => ihb env env' henv
  | binary _ _ iha ihb =>
    refine .bind (iha env env' henv) fun a => .bind (ihb env env' henv) fun b => ?_
    split
    · exact .pure _
    · exact .fail id
  | var hx =>
    obtain ⟨z, hz⟩ := hx.mem
    obtain ⟨v, hv, hnearest⟩ := henv.value hz
    simp only [Expr.evalWith, hv]
    cases hx with
    | own h => simpa only [hnearest _ h] using .pure v
    | other h hkind _ hstray =>
      simpa only [henv.value?_eq_none (henv.kind_ne h hkind)] using
        (Eval.Follows.pure v).lost hstray
  | num | bool => exact .pure _

theorem eval_renames (stray : EvalError → Prop) (functions : List Function) (depth : Nat) :
    EnterFollows stray (Expr.eval functions depth) (Expr.eval functions depth) := by
  induction depth with
  | zero => exact evalWith_renames (fun _ _ _ _ _ _ _ => .tooDeep) functions
  | succ depth ih => exact evalWith_renames ih functions

variable {stray : EvalError → Prop} {scope : List Binder}

theorem hits_of_use (u : Use) (hid : ∀ b ∈ nearest u.around u.name.display, u.name.id = b.id)
    (howned : u.Owned) (hstray : u.Astray → stray u.notFound) :
    Hits stray u.around u.kind u.name.display u.name.id u.notFound := by
  obtain ⟨b, hb, hkind, hdisplay⟩ := howned
  have hmem : ⟨u.kind, u.name.display, b.id⟩ ∈ u.around := by rwa [← hkind, ← hdisplay]
  cases hnearest : nearest u.around u.name.display with
  | none => exact absurd hdisplay (nearest_eq_none_iff.mp hnearest b hb)
  | some b' =>
    have heq : b' = ⟨b'.kind, u.name.display, u.name.id⟩ := by
      rw [hid b' hnearest, ← display_of_nearest hnearest]
    by_cases hkind' : b'.kind = u.kind
    · exact .own (by rw [hnearest, heq, hkind'])
    · exact .other (by rw [hnearest, ← heq]) hkind' hmem (hstray ⟨b', hnearest, hkind'⟩)

/-- The walk renames a plain tree, provided its names hide nothing and each use has a binder of its
kind. -/
theorem walk_renames {e : Expr} (hplain : e.Plain) (scope : List Binder) (r : Renaming)
    (hshadow : (walk (spellings scope) e r).1.NoShadow (ids scope))
    (huses : ∀ u ∈ (walk (spellings scope) e r).1.uses scope,
      u.Owned ∧ (u.Astray → stray u.notFound)) :
    Renames stray scope e (walk (spellings scope) e r).1 := by
  induction e generalizing scope r with
  | letIn i x value body ihv ihb =>
    obtain ⟨hx, hvalue, hbody⟩ := hplain
    obtain ⟨x, rfl⟩ := Name.eq_plain hx
    -- `NoShadow` of the renamed tree is where the freshness of each binder comes from.
    obtain ⟨hvalueShadow, hfresh, hbodyShadow⟩ := hshadow
    simp only [walk, Expr.uses, List.forall_mem_append] at huses
    exact .letIn hfresh (ihv hvalue scope r hvalueShadow huses.1)
      (ihb hbody (⟨.value, x, _⟩ :: scope) _ hbodyShadow huses.2)
  | letFun i f x paramTy resultTy body rest ihb ihr =>
    obtain ⟨hf, hx, hbody, hrest⟩ := hplain
    obtain ⟨f, rfl⟩ := Name.eq_plain hf
    obtain ⟨x, rfl⟩ := Name.eq_plain hx
    obtain ⟨hfreshF, hfreshX, hbodyShadow, hrestShadow⟩ := hshadow
    simp only [walk, Expr.uses, List.forall_mem_append] at huses
    exact .letFun hfreshF hfreshX
      (ihb hbody (⟨.value, x, _⟩ :: ⟨.function, f, _⟩ :: scope) _ hbodyShadow huses.1)
      (ihr hrest (⟨.function, f, _⟩ :: scope) _ hrestShadow huses.2)
  | apply i f arg ih =>
    obtain ⟨f, rfl⟩ := Name.eq_plain hplain.1
    simp only [walk, Expr.uses, List.forall_mem_cons] at huses
    obtain ⟨⟨howned, hstray⟩, harg⟩ := huses
    exact .apply (hits_of_use _ (use_id_of_nearest scope (.plain f)) howned hstray)
      (ih hplain.2 scope r hshadow harg)
  | call => exact hplain.elim
  | seq i a b iha ihb =>
    simp only [walk, Expr.uses, List.forall_mem_append] at huses
    exact .seq (iha hplain.1 scope r hshadow.1 huses.1) (ihb hplain.2 scope _ hshadow.2 huses.2)
  | binary i op a b iha ihb =>
    simp only [walk, Expr.uses, List.forall_mem_append] at huses
    exact .binary (iha hplain.1 scope r hshadow.1 huses.1) (ihb hplain.2 scope _ hshadow.2 huses.2)
  | var i x =>
    obtain ⟨x, rfl⟩ := Name.eq_plain hplain
    simp only [walk, Expr.uses, List.forall_mem_singleton] at huses
    exact .var (hits_of_use _ (use_id_of_nearest scope (.plain x)) huses.1 huses.2)
  | num => exact .num
  | bool => exact .bool

end Renaming

namespace Expr

open Renaming

/-- Renaming a plain tree in which each use has a binder of its kind changes its evaluation at most
where a use goes astray. -/
theorem eval_resolve_follows {stray : EvalError → Prop} {e : Expr} (hplain : e.Plain)
    (huses : ∀ u ∈ e.resolve.uses [], u.Owned ∧ (u.Astray → stray u.notFound)) (depth : Nat) :
    Eval.Follows stray (e.eval [] depth []) (e.resolve.eval [] depth []) :=
  eval_renames stray [] depth [] [] [] _ _ .nil
    (walk_renames hplain [] _ e.resolve_noShadow huses)

/-- Every variable and every function that is called has an enclosing binder of its spelling;
`scope` has the spellings bound outside the tree. A function of a lifted program has no binder. -/
def Bound (scope : List String) : Expr → Prop
  | letIn _ x value body => value.Bound scope ∧ body.Bound (x.display :: scope)
  | letFun _ f x _ _ body rest =>
    body.Bound (x.display :: f.display :: scope) ∧ rest.Bound (f.display :: scope)
  | apply _ f arg => f.display ∈ scope ∧ arg.Bound scope
  | call .. => False
  | seq _ a b | binary _ _ a b => a.Bound scope ∧ b.Bound scope
  | var _ x => x.display ∈ scope
  | num .. | bool .. => True

instance decidableBound (scope : List String) : (e : Expr) → Decidable (e.Bound scope)
  | letIn _ x value body =>
    have := decidableBound scope value
    have := decidableBound (x.display :: scope) body
    inferInstanceAs (Decidable (value.Bound scope ∧ body.Bound (x.display :: scope)))
  | letFun _ f x _ _ body rest =>
    have := decidableBound (x.display :: f.display :: scope) body
    have := decidableBound (f.display :: scope) rest
    inferInstanceAs (Decidable (body.Bound (x.display :: f.display :: scope) ∧
      rest.Bound (f.display :: scope)))
  | apply _ f arg =>
    have := decidableBound scope arg
    inferInstanceAs (Decidable (f.display ∈ scope ∧ arg.Bound scope))
  | call .. => .isFalse id
  | seq _ a b | binary _ _ a b =>
    have := decidableBound scope a
    have := decidableBound scope b
    inferInstanceAs (Decidable (a.Bound scope ∧ b.Bound scope))
  | var _ x => inferInstanceAs (Decidable (x.display ∈ scope))
  | num .. | bool .. => .isTrue trivial

theorem Bound.not_unbound {e : Expr} {around : List Binder}
    (h : e.Bound (around.map Binder.display)) : ∀ u ∈ e.uses around, ¬u.Unbound := by
  have huse {x : Name} {around : List Binder} (kind : BinderKind) (span : Span)
      (hx : x.display ∈ around.map Binder.display) : ¬(⟨kind, x, span, around⟩ : Use).Unbound := by
    obtain ⟨b, hb, hdisplay⟩ := List.mem_map.mp hx
    exact fun hunbound => hunbound b hb hdisplay
  induction e generalizing around with
  | letIn i x value body ihv ihb =>
    simp only [uses, List.forall_mem_append]
    exact ⟨ihv h.1, ihb h.2⟩
  | letFun i f x paramTy resultTy body rest ihb ihr =>
    simp only [uses, List.forall_mem_append]
    exact ⟨ihb h.1, ihr h.2⟩
  | apply i f arg ih =>
    simp only [uses, List.forall_mem_cons]
    exact ⟨huse .function i.span h.1, ih h.2⟩
  | call => exact h.elim
  | seq i a b iha ihb | binary i op a b iha ihb =>
    simp only [uses, List.forall_mem_append]
    exact ⟨iha h.1, ihb h.2⟩
  | var i x =>
    simp only [uses, List.forall_mem_singleton]
    exact huse .value i.span h
  | num | bool => simp [uses]

/-- The check of types keeps the uses of a plain tree whose names are all bound from going astray.
-/
theorem owned_of_typecheck {e : Expr} {t : Ty} (hplain : e.Plain) (hbound : e.Bound [])
    (h : e.resolve.typecheck.outcome = .ok t) :
    ∀ u ∈ e.resolve.uses [], u.Owned ∧ ¬u.Astray := by
  intro u hu
  have hbound' : e.Bound (([] : List Binder).map Binder.display) := hbound
  have hunbound : ¬u.Unbound := by
    rw [← Use.asWritten_unbound]
    exact hbound'.not_unbound _ (hplain.asWritten_mem hu)
  cases hnearest : nearest u.around u.name.display with
  | none => exact absurd (nearest_eq_none_iff.mp hnearest) hunbound
  | some b =>
    -- the binder that is seen under the name is the nearest one of the spelling
    obtain ⟨b', hb', hkind, hid⟩ := uses_seen_of_typecheck h u hu
    have hshadow : e.resolve.NoShadow (ids []) := e.resolve_noShadow
    have hnodup : (ids u.around).Nodup := hshadow.nodup_around List.nodup_nil u hu
    have hsame : u.name.id = b.id := walk_uses e [] _ u hu b hnearest
    obtain rfl := List.inj_on_of_nodup_map hnodup hb' (mem_of_nearest hnearest) (hid.trans hsame)
    refine ⟨⟨b', hb', hkind, display_of_nearest hnearest⟩, ?_⟩
    rintro ⟨b, hb, hne⟩
    obtain rfl := Option.some.inj (hnearest.symm.trans hb)
    exact hne hkind

/-- Resolving and checking a plain tree whose names are all bound does not change what it evaluates
to. -/
theorem eval_resolve {e : Expr} {t : Ty} (hplain : e.Plain) (hbound : e.Bound [])
    (h : e.resolve.typecheck.outcome = .ok t) (depth : Nat) :
    e.eval [] depth [] = e.resolve.typecheck.item.eval [] depth [] := by
  obtain ⟨-, hunmark⟩ := typecheck_typed h
  have hfollows : Eval.Follows (fun _ => False) (e.eval [] depth []) (e.resolve.eval [] depth []) :=
    eval_resolve_follows hplain (owned_of_typecheck hplain hbound h) depth
  calc e.eval [] depth []
      = e.resolve.eval [] depth [] := by
        funext n
        rcases hfollows.same n with heq | ⟨_, _, _, hstray⟩
        · exact heq.symm
        · exact hstray.elim
    _ = e.resolve.unmark.eval [] depth [] := (eval_unmark [] depth [] _).symm
    _ = e.resolve.typecheck.item.eval [] depth [] := by
        rw [← hunmark]
        exact eval_unmark [] depth [] _

/-- Renaming preserves evaluation as far as names reach what they are of. In a text in which each
variable has a binder of its spelling that is a variable, and each function that is called one that
is a function, a tree and its renamed tree come to the same value or error at every depth of calls,
unless the renamed one stops at a use whose nearest binder is of the other kind. -/
theorem evaluate_resolve_eq_iff {source : String} {e : Expr} (h : parse source = .ok e)
    (howned : ∀ u ∈ e.uses [], u.Owned) (depth : Nat) :
    e.resolve.evaluate depth = e.evaluate depth ↔
      ∀ u ∈ e.uses [], u.Astray → e.resolve.evaluate depth ≠ .error (.failed u.notFound) := by
  have hplain := parse_plain h
  have huses : ∀ u ∈ e.resolve.uses [], u.Owned ∧
      (u.Astray → ∃ u' ∈ e.uses [], u'.Astray ∧ u'.notFound = u.notFound) := by
    intro u hu
    have hwritten := hplain.asWritten_mem hu
    refine ⟨u.asWritten_owned.mp (howned _ hwritten), fun hastray => ?_⟩
    exact ⟨u.asWritten, hwritten, u.asWritten_astray.mpr hastray, u.asWritten_notFound⟩
  have hfollows : Eval.Follows (fun error => ∃ u ∈ e.uses [], u.Astray ∧ u.notFound = error)
      (e.eval [] depth []) (e.resolve.eval [] depth []) := eval_resolve_follows hplain huses depth
  constructor
  · intro heq u hu _
    rw [heq]
    exact hfollows.run_ne u.notFound_notFound
  · intro hreached
    rcases hfollows.run 0 with heq | ⟨error, heq, u, hu, hastray, rfl⟩
    · exact heq
    · exact absurd heq (hreached u hu hastray)

def strayUncalled : String :=
  "let x = 1 in let f x: num -> num = (let x z: num -> num = z in x) in let x = x + 1 in x"

theorem evaluate_resolve_eq_iff_strayUncalled : ∃ e, parse strayUncalled = .ok e ∧
    (∀ u ∈ e.uses [], u.Owned) ∧ (∃ u ∈ e.uses [], u.Astray) ∧
      e.resolve.evaluate 0 = .ok (.num 2) ∧ e.resolve.evaluate 0 = e.evaluate 0 := by
  have hresults : (parse strayUncalled).toOption.map (fun e =>
      (decide (∀ u ∈ e.uses [], u.Owned), decide (∃ u ∈ e.uses [], u.Astray),
        e.resolve.evaluate 0)) = some (true, true, .ok (.num 2)) := by cbv
  obtain ⟨e, hparse, hresults⟩ := exists_of_parse hresults
  simp only [Prod.mk.injEq, decide_eq_true_eq] at hresults
  obtain ⟨howned, hastray, hvalue⟩ := hresults
  refine ⟨e, hparse, howned, hastray, hvalue, (evaluate_resolve_eq_iff hparse howned 0).mpr ?_⟩
  intro u _ _
  simp [hvalue]

def strayVariable : String := "let x = 1 in let x y: num -> num = y in x"

theorem evaluate_resolve_ne_strayVariable : ∃ e, parse strayVariable = .ok e ∧
    (∀ u ∈ e.uses [], u.Owned) ∧ e.evaluate 0 = .ok (.num 1) ∧
      ∃ span, e.resolve.evaluate 0 = .error (.failed (.unboundVariable "x" span)) := by
  have hresults : (parse strayVariable).toOption.map (fun e =>
      (decide (∀ u ∈ e.uses [], u.Owned), e.evaluate 0, e.resolve.evaluate 0)) =
        some (true, .ok (.num 1), .error (.failed (.unboundVariable "x" ⟨1, 41, 1⟩))) := by cbv
  obtain ⟨e, hparse, hresults⟩ := exists_of_parse hresults
  simp only [Prod.mk.injEq, decide_eq_true_eq] at hresults
  obtain ⟨howned, hvalue, herror⟩ := hresults
  exact ⟨e, hparse, howned, hvalue, _, herror⟩

end Expr

end LetStack
