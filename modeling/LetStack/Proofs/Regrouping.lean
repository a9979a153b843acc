import LetStack.Expr.Printer
import LetStack.Proofs.Marks
import LetStack.Proofs.Soundness

namespace LetStack

namespace Expr

def isSum : Expr → Bool
  | binary _ .add .. => true
  | _ => false

/-- Adds `a` on the left of a tree: at the left end of its chain of sums and differences. -/
def graft (i : Info) (a : Expr) : Expr → Expr
  | binary j .add left right => binary j .add (graft i a left) right
  | binary j .sub left right => binary j .sub (graft i a left) right
  | e => binary i .add a e

def join (i : Info) (op : BinOp) (left right : Expr) : Expr :=
  if op = .add ∧ right.isSum then graft i left right else binary i op left right

/-- The tree with every sum on the right of a `+` put into the chain on its left. -/
def splice : Expr → Expr := rebuild id join

mutual

def Regular : Expr → Prop
  | letIn _ _ a b | letFun _ _ _ _ _ a b | seq _ a b => a.Regular ∧ b.Regular
  | apply _ _ a => a.Regular
  | call _ _ args => RegularAll args
  | binary _ op a b => a.Regular ∧ b.Regular ∧ ¬(op = .add ∧ b.isSum = true)
  | var .. | num .. | bool .. => True

def RegularAll : List Expr → Prop
  | [] => True
  | e :: es => e.Regular ∧ RegularAll es

end

end Expr

namespace Expr

def type? (s : Scopes) (e : Expr) : Option Ty := (e.check s).2.toOption

section

variable {s : Scopes} {i : Info}

theorem type?_letIn {x : Name} {value body : Expr} :
    (letIn i x value body).type? s = (value.type? s).bind fun t => body.type? (s.var x.id t) := by
  simp only [type?, check]
  rcases value.check s with ⟨value, _ | t⟩
  · rfl
  · dsimp only [Except.toOption, Option.bind]
    rcases body.check (s.var x.id t) with ⟨body, _ | u⟩ <;> rfl

theorem type?_letFun {f x : Name} {paramTy resultTy : Ty} {body rest : Expr} :
    (letFun i f x paramTy resultTy body rest).type? s =
      (body.type? ((s.arrow f.id ⟨f.display, paramTy, resultTy⟩).var x.id paramTy)).bind fun t =>
        if t = resultTy then rest.type? (s.arrow f.id ⟨f.display, paramTy, resultTy⟩) else none := by
  simp only [type?, check]
  rcases body.check _ with ⟨body, _ | t⟩
  · rfl
  · dsimp only [Except.toOption, Option.bind]
    by_cases h : t = resultTy
    · simp only [h, if_true]
      rcases rest.check _ with ⟨rest, _ | u⟩ <;> rfl
    · simp only [h, if_false]

theorem type?_apply {f : Name} {arg : Expr} :
    (apply i f arg).type? s = (s.funs.lookup f.id).bind fun a =>
      (arg.type? s).bind fun t => if t = a.param then some a.result else none := by
  simp only [type?, check]
  rcases s.funs.lookup f.id with _ | a
  · rfl
  · rcases arg.check s with ⟨arg, _ | t⟩
    · rfl
    · dsimp only [Except.toOption, Option.bind]
      by_cases h : t = a.param
      · simp only [h, if_true]
      · simp only [h, if_false]

theorem type?_call {f : String} {args : List Expr} :
    (call i f args).type? s = (s.lifted.lookup f).bind fun sig =>
      if args.length = sig.params.length then
        (checkArgs s f args sig.params).2.toOption.map fun _ => sig.result
      else none := by
  simp only [type?, check]
  rcases s.lifted.lookup f with _ | sig
  · rfl
  · dsimp only [Option.bind]
    by_cases h : args.length = sig.params.length
    · simp only [h, if_true]
      rcases checkArgs s f args sig.params with ⟨args, _ | _⟩ <;> rfl
    · simp only [h, if_false]
      rfl

theorem checkArgs_cons {f : String} {arg : Expr} {args : List Expr} {t : Ty} {params : List Ty} :
    (checkArgs s f (arg :: args) (t :: params)).2.toOption =
      (arg.type? s).bind fun u =>
        if u = t then (checkArgs s f args params).2.toOption else none := by
  simp only [type?, checkArgs]
  rcases arg.check s with ⟨arg, _ | u⟩
  · rfl
  · dsimp only [Except.toOption, Option.bind]
    by_cases h : u = t
    · simp only [h, if_true]
    · simp only [h, if_false]

theorem type?_seq {first second : Expr} :
    (seq i first second).type? s = (first.type? s).bind fun _ => second.type? s := by
  simp only [type?, check]
  rcases first.check s with ⟨first, _ | t⟩
  · rfl
  · rcases second.check s with ⟨second, _ | u⟩ <;> rfl

theorem type?_binary {op : BinOp} {left right : Expr} :
    (binary i op left right).type? s =
      (left.type? s).bind fun t => (right.type? s).bind fun u => op.result? t u := by
  simp only [type?, check]
  rcases left.check s with ⟨left, _ | t⟩
  · rfl
  · rcases right.check s with ⟨right, _ | u⟩
    · rfl
    · dsimp only [Except.toOption, Option.bind]
      rcases op.result? t u with _ | v <;> rfl

theorem type?_var {x : Name} : (var i x).type? s = s.vars.lookup x.id := by
  simp only [type?, check]
  rcases s.vars.lookup x.id with _ | t <;> rfl

theorem typecheck_outcome {e : Expr} {t : Ty} :
    e.typecheck.outcome = .ok t ↔ e.type? {} = some t := by
  simp only [typecheck, Scopes.checkExpr, type?]
  rcases e.check {} with ⟨e, _ | u⟩ <;> simp [Checked.ofCheck, Except.toOption]

end

end Expr

namespace Eval

def SameUnlessFails {α : Type} (c c' : Eval α) : Prop :=
  ∀ n, c' n = c n ∨ ∃ error n', c' n = .error (.failed error) n'

namespace SameUnlessFails

variable {α β : Type} {c c' c'' : Eval α}

theorem refl (c : Eval α) : SameUnlessFails c c := fun _ => .inl rfl

theorem trans (h : SameUnlessFails c c') (h' : SameUnlessFails c' c'') : SameUnlessFails c c'' := by
  intro n
  rcases h' n with heq | hfail
  · rw [heq]
    exact h n
  · exact .inr hfail

theorem fail (c : Eval α) (error : EvalError) : SameUnlessFails c (Eval.fail error) :=
  fun n => .inr ⟨error, n, rfl⟩

theorem bind {k k' : α → Eval β} (hc : SameUnlessFails c c')
    (hk : ∀ a, SameUnlessFails (k a) (k' a)) :
    SameUnlessFails (c >>= k) (c' >>= k') := by
  intro n
  simp only [Bind.bind, EStateM.bind]
  rcases hc n with heq | ⟨error, n', heq⟩
  · rw [heq]
    rcases c n with ⟨a, n'⟩ | ⟨stop, n'⟩
    · exact hk a n'
    · exact .inl rfl
  · exact .inr ⟨error, n', by rw [heq]⟩

/-- A computation that does not fail has nothing left but to be the same. -/
theorem eq_of_safe {post : α → Prop} (h : SameUnlessFails c c') (hsafe : c'.Safe post) : c' = c := by
  funext n
  rcases h n with heq | ⟨error, n', heq⟩
  · exact heq
  · have := hsafe n
    rw [heq] at this
    exact this.elim

end SameUnlessFails

end Eval

namespace Expr

open Eval (SameUnlessFails)

/-- `a + (b - c)` comes to the same as `(a + b) - c`, in which the operands are met in the same
order. -/
theorem evalWith_regroup {op : BinOp} (hop : op = .add ∨ op = .sub) (i j : Info)
    (a left right : Expr) (enter : Env → Expr → Eval Value) (env : Env) :
    SameUnlessFails ((binary i .add a (binary j op left right)).evalWith [] enter env)
      ((binary j op (binary i .add a left) right).evalWith [] enter env) := by
  simp only [evalWith, bind_assoc]
  refine .bind (.refl _) fun va => .bind (.refl _) fun vl => ?_
  cases va with
  | bool b => exact fun n => .inr ⟨_, n, rfl⟩
  | num x =>
    cases vl with
    | bool b => exact fun n => .inr ⟨_, n, rfl⟩
    | num y =>
      simp only [pure_bind, BinOp.apply?]
      refine .bind (.refl _) fun vr => ?_
      cases vr with
      | bool b =>
        rcases hop with rfl | rfl
        all_goals exact fun n => .inr ⟨_, n, rfl⟩
      | num z =>
        rcases hop with rfl | rfl
        · exact fun n => .inl (by simp [Int32.add_assoc])
        · exact fun n => .inl (by simp [Int32.add_assoc, Int32.sub_eq_add_neg])

section

variable (mode : NameMode)

-- The cases of `render` by name: rewriting with `render` itself takes its interpolated texts apart.

theorem render_letIn (i : Info) (x : Name) (value body : Expr) :
    (letIn i x value body).render mode = s!"let {x.shown mode} = " ++
      value.wrap 1 (value.render mode) ++ " in " ++ body.wrap 1 (body.render mode) := rfl

theorem render_letFun (i : Info) (f x : Name) (paramTy resultTy : Ty) (body rest : Expr) :
    (letFun i f x paramTy resultTy body rest).render mode =
      s!"let {f.shown mode} {x.shown mode} : {paramTy} -> {resultTy} = " ++
        body.wrap 1 (body.render mode) ++ " in " ++ rest.wrap 1 (rest.render mode) := rfl

theorem render_apply (i : Info) (f : Name) (arg : Expr) :
    (apply i f arg).render mode = f.shown mode ++ " " ++ arg.wrap 5 (arg.render mode) := rfl

theorem render_call (i : Info) (f : String) (args : List Expr) :
    (call i f args).render mode = f ++ renderArgs mode args := rfl

theorem renderArgs_cons (arg : Expr) (args : List Expr) :
    renderArgs mode (arg :: args) =
      " " ++ arg.wrap 5 (arg.render mode) ++ renderArgs mode args := rfl

theorem render_seq (i : Info) (first second : Expr) :
    (seq i first second).render mode =
      first.wrap 1 (first.render mode) ++ ", " ++ second.wrap 0 (second.render mode) := rfl

theorem render_binary (i : Info) (op : BinOp) (left right : Expr) :
    (binary i op left right).render mode =
      left.wrap op.precedence (left.render mode) ++ s!" {op} " ++
        right.wrap (rightLevel op right) (right.render mode) := rfl

end

theorem rightLevel_eq (op : BinOp) (e : Expr) :
    rightLevel op e = if op = .add ∧ e.isSum = true then op.precedence else op.precedence + 1 := by
  cases e with
  | binary j op' left right => cases op' <;> simp [rightLevel, isSum]
  | _ => simp [rightLevel, isSum]

theorem wrap_of_le {e : Expr} {least : Nat} (h : least ≤ e.level) (text : String) :
    e.wrap least text = text :=
  if_neg (Nat.not_lt.mpr h)

section

variable {i : Info} {a e : Expr}

theorem evalWith_graft (enter : Env → Expr → Eval Value) (env : Env) :
    SameUnlessFails ((binary i .add a e).evalWith [] enter env)
      ((graft i a e).evalWith [] enter env) := by
  fun_induction graft i a e with
  | case1 j left right ih =>
    exact (evalWith_regroup (.inl rfl) i j a left right enter env).trans (.bind ih fun _ => .refl _)
  | case2 j left right ih =>
    exact (evalWith_regroup (.inr rfl) i j a left right enter env).trans (.bind ih fun _ => .refl _)
  | case3 => exact .refl _

theorem type?_regroup {op : BinOp} (hop : op = .add ∨ op = .sub) {j : Info} {left right : Expr}
    (s : Scopes) :
    (binary j op (binary i .add a left) right).type? s =
      (binary i .add a (binary j op left right)).type? s := by
  simp only [type?_binary]
  rcases hop with rfl | rfl
  all_goals
    rcases a.type? s with _ | _ | _ <;> rcases left.type? s with _ | _ | _ <;>
      rcases right.type? s with _ | _ | _ <;> rfl

theorem type?_graft (s : Scopes) : (graft i a e).type? s = (binary i .add a e).type? s := by
  fun_induction graft i a e with
  | case1 j left right ih =>
    rw [← type?_regroup (.inl rfl) s, type?_binary, ih]
    exact type?_binary.symm
  | case2 j left right ih =>
    rw [← type?_regroup (.inr rfl) s, type?_binary, ih]
    exact type?_binary.symm
  | case3 => rfl

theorem level_graft : (graft i a e).level = 3 := by
  fun_induction graft i a e <;> rfl

theorem isSum_graft (h : e.isSum = true) : (graft i a e).isSum = true := by
  fun_induction graft i a e with
  | case1 | case3 => rfl
  | case2 => cases h

/-- What is neither a sum nor a difference has another level than they have. -/
theorem level_ne_three (hadd : ∀ j left right, e ≠ binary j .add left right)
    (hsub : ∀ j left right, e ≠ binary j .sub left right) : e.level ≠ 3 ∧ e.isSum = false := by
  cases e with
  | binary j op left right =>
    cases op with
    | add => exact absurd rfl (hadd j left right)
    | sub => exact absurd rfl (hsub j left right)
    | eq | lt => simp [level, BinOp.precedence, isSum]
  | _ => simp [level, isSum]

/-- Grafting prints the added tree in front, with no parentheses around the chain. -/
theorem render_graft (mode : NameMode) :
    (graft i a e).render mode = a.wrap 3 (a.render mode) ++ " + " ++ e.wrap 3 (e.render mode) := by
  fun_induction graft i a e with
  | case1 j left right ih | case2 j left right ih =>
    rw [wrap_of_le (e := binary j _ left right) (Nat.le_refl 3), render_binary, render_binary]
    simp only [BinOp.precedence]
    rw [wrap_of_le (Nat.le_of_eq level_graft.symm), ih]
    simp only [String.append_assoc]
  | case3 e hadd hsub =>
    obtain ⟨hlevel, hsum⟩ := level_ne_three hadd hsub
    have hwrap : e.wrap 4 (e.render mode) = e.wrap 3 (e.render mode) := by
      have : e.level < 4 ↔ e.level < 3 := by omega
      simp only [wrap, this]
    rw [render_binary, rightLevel_eq, if_neg (by simp [hsum])]
    simp only [BinOp.precedence, hwrap]
    rfl

end

/-- A way to join two trees by an operator that comes to the same as the plain one: by type, by
value and in print. -/
structure Neutral (join : Info → BinOp → Expr → Expr → Expr) : Prop where
  type? : ∀ s i op a b, (join i op a b).type? s = (binary i op a b).type? s
  evalWith : ∀ enter env i op a b, SameUnlessFails ((binary i op a b).evalWith [] enter env)
    ((join i op a b).evalWith [] enter env)
  level : ∀ i op a b, (join i op a b).level = op.precedence
  isSum : ∀ i op a b, (join i op a b).isSum = (binary i op a b).isSum
  render : ∀ mode i op a b, (join i op a b).render mode = (binary i op a b).render mode

theorem neutral_binary : Neutral binary where
  type? _ _ _ _ _ := rfl
  evalWith _ _ _ _ _ _ := .refl _
  level _ _ _ _ := rfl
  isSum _ _ _ _ := rfl
  render _ _ _ _ _ := rfl

theorem join_cases (i : Info) (op : BinOp) (a b : Expr) :
    (op = .add ∧ b.isSum = true) ∧ join i op a b = graft i a b ∨
      ¬(op = .add ∧ b.isSum = true) ∧ join i op a b = binary i op a b := by
  unfold join
  split
  next h => exact .inl ⟨h, rfl⟩
  next h => exact .inr ⟨h, rfl⟩

theorem neutral_join : Neutral join where
  type? s i op a b := by
    rcases join_cases i op a b with ⟨⟨rfl, -⟩, heq⟩ | ⟨-, heq⟩
    · rw [heq, type?_graft]
    · rw [heq]
  evalWith enter env i op a b := by
    rcases join_cases i op a b with ⟨⟨rfl, -⟩, heq⟩ | ⟨-, heq⟩
    · rw [heq]
      exact evalWith_graft enter env
    · rw [heq]
      exact .refl _
  level i op a b := by
    rcases join_cases i op a b with ⟨⟨rfl, -⟩, heq⟩ | ⟨-, heq⟩
    · rw [heq, level_graft, BinOp.precedence]
    · rw [heq, Expr.level]
  isSum i op a b := by
    rcases join_cases i op a b with ⟨⟨rfl, hb⟩, heq⟩ | ⟨-, heq⟩
    · rw [heq, isSum_graft hb]
      rfl
    · rw [heq]
  render mode i op a b := by
    rcases join_cases i op a b with ⟨⟨rfl, hb⟩, heq⟩ | ⟨-, heq⟩
    · rw [heq, render_graft, render_binary, rightLevel_eq, if_pos ⟨rfl, hb⟩]
      rfl
    · rw [heq]

section

variable {mark : Info → Info} {join : Info → BinOp → Expr → Expr → Expr} (hjoin : Neutral join)

theorem length_rebuildAll (args : List Expr) : (rebuildAll mark join args).length = args.length := by
  induction args with
  | nil => rfl
  | cons a args ih => simp [rebuildAll, ih]

theorem checkArgs_rebuildAll {args : List Expr} {s : Scopes} {f : String} {params : List Ty}
    (h : ∀ a ∈ args, (a.rebuild mark join).type? s = a.type? s) :
    (checkArgs s f (rebuildAll mark join args) params).2.toOption =
      (checkArgs s f args params).2.toOption := by
  induction args generalizing params with
  | nil => cases params <;> rfl
  | cons a args ih =>
    cases params with
    | nil => rfl
    | cons t params =>
      simp only [rebuildAll, checkArgs_cons, h a (by simp), ih fun b hb => h b (by simp [hb])]

include hjoin

theorem type?_rebuild (s : Scopes) (e : Expr) : (e.rebuild mark join).type? s = e.type? s := by
  induction e generalizing s with
  | letIn i x value body ihv ihb => simp only [rebuild, type?_letIn, ihv, ihb]
  | letFun i f x paramTy resultTy body rest ihb ihr => simp only [rebuild, type?_letFun, ihb, ihr]
  | apply i f arg ih => simp only [rebuild, type?_apply, ih]
  | call i f args ih =>
    simp only [rebuild, type?_call, length_rebuildAll, checkArgs_rebuildAll fun a ha => ih a ha s]
  | seq i first second ihf ihs => simp only [rebuild, type?_seq, ihf, ihs]
  | binary i op left right ihl ihr => rw [rebuild, hjoin.type?, type?_binary, type?_binary, ihl, ihr]
  | var i x => simp only [rebuild, type?_var]
  | num | bool => rfl

theorem evalWith_rebuild {enter enter' : Env → Expr → Eval Value}
    (henter : ∀ env e, SameUnlessFails (enter env e)
      (enter' (Env.mapBodies (rebuild mark join) env) (e.rebuild mark join)))
    (env : Env) (e : Expr) :
    SameUnlessFails (e.evalWith [] enter env)
      ((e.rebuild mark join).evalWith [] enter' (env.mapBodies (rebuild mark join))) := by
  induction e generalizing env with
  | letIn i x value body ihv ihb => exact .bind (ihv env) fun v => ihb (.var x.id v :: env)
  | letFun i f x paramTy resultTy body rest ihb ihr => exact ihr (.fn f.id x.id body :: env)
  | apply i f arg ih =>
    simp only [rebuild, evalWith, Env.closure?_mapBodies]
    rcases env.closure? f.id with _ | ⟨x, body, inner⟩
    · exact .fail _ _
    · exact .bind (ih env) fun v => .bind (.refl _) fun _ => henter (.var x v :: inner) body
  | call i f args ih => exact .fail _ _
  | seq i first second ihf ihs => exact .bind (ihf env) fun _ => ihs env
  | binary i op left right ihl ihr =>
    -- First both operands are rebuilt below the operator, then the operator itself is joined.
    refine .trans ?_ (hjoin.evalWith _ _ _ _ _ _)
    refine .bind (ihl env) fun a => .bind (ihr env) fun b => ?_
    cases op.apply? a b with
    | some v => exact .refl _
    | none => exact .fail _ _
  | var i x =>
    simp only [rebuild, evalWith, Env.value?_mapBodies]
    cases env.value? x.id with
    | some v => exact .refl _
    | none => exact .fail _ _
  | num | bool => exact .refl _

theorem eval_rebuild (depth : Nat) (env : Env) (e : Expr) :
    SameUnlessFails (e.eval [] depth env)
      ((e.rebuild mark join).eval [] depth (env.mapBodies (rebuild mark join))) := by
  induction depth generalizing env e with
  | zero => exact evalWith_rebuild hjoin (fun _ _ => .refl _) env e
  | succ depth ih => exact evalWith_rebuild hjoin ih env e

theorem level_rebuild (e : Expr) : (e.rebuild mark join).level = e.level := by
  cases e with
  | binary i op left right => exact hjoin.level ..
  | _ => rfl

theorem isSum_rebuild (e : Expr) : (e.rebuild mark join).isSum = e.isSum := by
  cases e with
  | binary i op left right => cases op <;> exact hjoin.isSum ..
  | _ => rfl

theorem wrap_rebuild (least : Nat) (e : Expr) (text : String) :
    (e.rebuild mark join).wrap least text = e.wrap least text := by
  rw [wrap, wrap, level_rebuild hjoin]

theorem rightLevel_rebuild (op : BinOp) (e : Expr) :
    rightLevel op (e.rebuild mark join) = rightLevel op e := by
  rw [rightLevel_eq, rightLevel_eq, isSum_rebuild hjoin]

theorem renderArgs_rebuildAll {mode : NameMode} {args : List Expr}
    (h : ∀ a ∈ args, (a.rebuild mark join).render mode = a.render mode) :
    renderArgs mode (rebuildAll mark join args) = renderArgs mode args := by
  induction args with
  | nil => rfl
  | cons a args ih =>
    simp only [rebuildAll, renderArgs_cons, wrap_rebuild hjoin, h a (by simp),
      ih fun b hb => h b (by simp [hb])]

theorem render_rebuild (mode : NameMode) (e : Expr) :
    (e.rebuild mark join).render mode = e.render mode := by
  induction e with
  | letIn i x value body ihv ihb => simp only [rebuild, render_letIn, wrap_rebuild hjoin, ihv, ihb]
  | letFun i f x paramTy resultTy body rest ihb ihr =>
    simp only [rebuild, render_letFun, wrap_rebuild hjoin, ihb, ihr]
  | apply i f arg ih => simp only [rebuild, render_apply, wrap_rebuild hjoin, ih]
  | call i f args ih => simp only [rebuild, render_call, renderArgs_rebuildAll hjoin ih]
  | seq i first second ihf ihs => simp only [rebuild, render_seq, wrap_rebuild hjoin, ihf, ihs]
  | binary i op left right ihl ihr =>
    rw [rebuild, hjoin.render]
    simp only [render_binary, wrap_rebuild hjoin, rightLevel_rebuild hjoin, ihl, ihr]
  | var | num | bool => rfl

end

theorem graft_regular {i : Info} {a e : Expr} (ha : a.Regular) (he : e.Regular) :
    (graft i a e).Regular := by
  fun_induction graft i a e with
  | case1 j left right ih | case2 j left right ih => exact ⟨ih he.1, he.2⟩
  | case3 e hadd hsub => exact ⟨ha, he, by simp [(level_ne_three hadd hsub).2]⟩

theorem join_regular {i : Info} {op : BinOp} {a b : Expr} (ha : a.Regular) (hb : b.Regular) :
    (join i op a b).Regular := by
  rcases join_cases i op a b with ⟨-, heq⟩ | ⟨h, heq⟩
  · rw [heq]
    exact graft_regular ha hb
  · rw [heq]
    exact ⟨ha, hb, h⟩

theorem regularAll_rebuildAll {args : List Expr} (h : ∀ a ∈ args, (a.rebuild id join).Regular) :
    RegularAll (rebuildAll id join args) := by
  induction args with
  | nil => trivial
  | cons a args ih => exact ⟨h a (by simp), ih fun b hb => h b (by simp [hb])⟩

theorem splice_regular (e : Expr) : e.splice.Regular := by
  unfold splice
  induction e with
  | letIn i x a b iha ihb | seq i a b iha ihb => exact ⟨iha, ihb⟩
  | letFun i f x paramTy resultTy a b iha ihb => exact ⟨iha, ihb⟩
  | apply i f arg ih => exact ih
  | call i f args ih => exact regularAll_rebuildAll ih
  | binary i op a b iha ihb => exact join_regular iha ihb
  | var | num | bool => trivial

theorem rebuildAll_of_regular {args : List Expr} (h : ∀ a ∈ args, a.Regular → a.rebuild id join = a)
    (hargs : RegularAll args) : rebuildAll id join args = args := by
  induction args with
  | nil => rfl
  | cons a args ih =>
    rw [rebuildAll, h a (by simp) hargs.1, ih (fun b hb => h b (by simp [hb])) hargs.2]

/-- Splicing changes nothing where there is nothing to splice. -/
theorem splice_of_regular {e : Expr} (h : e.Regular) : e.splice = e := by
  unfold splice
  induction e with
  | letIn i x a b iha ihb | seq i a b iha ihb => rw [rebuild, iha h.1, ihb h.2, id]
  | letFun i f x paramTy resultTy a b iha ihb => rw [rebuild, iha h.1, ihb h.2, id]
  | apply i f arg ih => rw [rebuild, ih h, id]
  | call i f args ih => rw [rebuild, rebuildAll_of_regular ih h, id]
  | binary i op a b iha ihb => rw [rebuild, iha h.1, ihb h.2.1, join, if_neg h.2.2, id]
  | var | num | bool => rfl

end Expr

end LetStack
