import LetStack.Proofs.Trees
import LetStack.Table
import LetStack.Typing.Check

namespace LetStack

namespace Scopes

@[simp] theorem var_vars (s : Scopes) (x : String) (t : Ty) : (s.var x t).vars = (x, t) :: s.vars :=
  rfl

@[simp] theorem var_funs (s : Scopes) (x : String) (t : Ty) : (s.var x t).funs = s.funs := rfl

@[simp] theorem var_lifted (s : Scopes) (x : String) (t : Ty) : (s.var x t).lifted = s.lifted := rfl

@[simp] theorem arrow_vars (s : Scopes) (f : String) (a : Arrow) : (s.arrow f a).vars = s.vars := rfl

@[simp] theorem arrow_funs (s : Scopes) (f : String) (a : Arrow) :
    (s.arrow f a).funs = (f, a) :: s.funs := rfl

@[simp] theorem arrow_lifted (s : Scopes) (f : String) (a : Arrow) :
    (s.arrow f a).lifted = s.lifted := rfl

@[simp] theorem params_lifted (s : Scopes) (ps : List Param) : (s.params ps).lifted = s.lifted := by
  unfold params
  induction ps generalizing s with
  | nil => rfl
  | cons p ps ih => exact ih (s.var p.name p.ty)

end Scopes

namespace Expr

mutual

/-- `Typed s e t`: in the scopes `s` the tree `e` has type `t`, and each of its nodes is marked with
the type that the rules give to it. -/
inductive Typed : Scopes → Expr → Ty → Prop
  | letIn {s : Scopes} {i : Info} {x : Name} {value body : Expr} {u t : Ty} (hi : i.ty = some t)
      (hvalue : Typed s value u) (hbody : Typed (s.var x.id u) body t) :
      Typed s (.letIn i x value body) t
  | letFun {s : Scopes} {i : Info} {f x : Name} {paramTy resultTy t : Ty} {body rest : Expr}
      (hi : i.ty = some t)
      (hbody : Typed ((s.arrow f.id ⟨f.display, paramTy, resultTy⟩).var x.id paramTy) body resultTy)
      (hrest : Typed (s.arrow f.id ⟨f.display, paramTy, resultTy⟩) rest t) :
      Typed s (.letFun i f x paramTy resultTy body rest) t
  | apply {s : Scopes} {i : Info} {f : Name} {arg : Expr} {a : Arrow} (hi : i.ty = some a.result)
      (hf : s.funs.lookup f.id = some a) (harg : Typed s arg a.param) :
      Typed s (.apply i f arg) a.result
  | call {s : Scopes} {i : Info} {f : String} {args : List Expr} {sig : Signature}
      (hi : i.ty = some sig.result) (hf : s.lifted.lookup f = some sig)
      (hargs : ArgsTyped s args sig.params) : Typed s (.call i f args) sig.result
  | seq {s : Scopes} {i : Info} {first second : Expr} {u t : Ty} (hi : i.ty = some t)
      (hfirst : Typed s first u) (hsecond : Typed s second t) : Typed s (.seq i first second) t
  | binary {s : Scopes} {i : Info} {op : BinOp} {left right : Expr} {u v t : Ty}
      (hi : i.ty = some t) (hleft : Typed s left u) (hright : Typed s right v)
      (hop : op.result? u v = some t) : Typed s (.binary i op left right) t
  | var {s : Scopes} {i : Info} {x : Name} {t : Ty} (hi : i.ty = some t)
      (hx : s.vars.lookup x.id = some t) : Typed s (.var i x) t
  | num {s : Scopes} {i : Info} {n : Word} (hi : i.ty = some .num) : Typed s (.num i n) .num
  | bool {s : Scopes} {i : Info} {b : Bool} (hi : i.ty = some .bool) : Typed s (.bool i b) .bool

inductive ArgsTyped : Scopes → List Expr → List Ty → Prop
  | nil {s : Scopes} : ArgsTyped s [] []
  | cons {s : Scopes} {arg : Expr} {args : List Expr} {t : Ty} {ts : List Ty}
      (harg : Typed s arg t) (hargs : ArgsTyped s args ts) : ArgsTyped s (arg :: args) (t :: ts)

end

theorem Typed.ty_eq {s : Scopes} {e : Expr} {t : Ty} (h : Typed s e t) : e.ty = some t := by
  cases h <;> assumption

theorem ArgsTyped.length_eq {s : Scopes} {args : List Expr} {ts : List Ty}
    (h : ArgsTyped s args ts) : args.length = ts.length := by
  induction args generalizing ts with
  | nil => cases h; rfl
  | cons arg args ih =>
    cases h with
    | cons _ hargs => simp [ih hargs]

theorem ArgsTyped.exists_of_mem {s : Scopes} {args : List Expr} {ts : List Ty} {a : Expr}
    (h : ArgsTyped s args ts) (ha : a ∈ args) : ∃ t, Typed s a t := by
  induction args generalizing ts with
  | nil => cases ha
  | cons arg args ih =>
    cases h with
    | @cons _ _ _ t _ harg hargs =>
      rcases List.mem_cons.mp ha with rfl | ha
      · exact ⟨t, harg⟩
      · exact ih hargs ha

section

variable {s : Scopes} {i : Info} {e' : Expr} {t : Ty}

attribute [local simp] check

theorem check_letIn {x : Name} {value body : Expr} :
    (letIn i x value body).check s = (e', .ok t) ↔
      ∃ value' u body', value.check s = (value', .ok u) ∧
      body.check (s.var x.id u) = (body', .ok t) ∧ e' = letIn (i.typed t) x value' body' := by
  constructor
  · intro h
    rcases hv : value.check s with ⟨value', stuck | u⟩
    · simp [hv] at h
    · rcases hb : body.check (s.var x.id u) with ⟨body', stuck | t'⟩
      · simp [hv, hb] at h
      · simp only [check, hv, hb, Prod.mk.injEq, Except.ok.injEq] at h
        obtain ⟨rfl, rfl⟩ := h
        exact ⟨value', u, body', rfl, hb, rfl⟩
  · rintro ⟨value', u, body', hv, hb, rfl⟩
    simp only [check, hv, hb]

theorem check_letFun {f x : Name} {paramTy resultTy : Ty} {body rest : Expr} :
    (letFun i f x paramTy resultTy body rest).check s = (e', .ok t) ↔ ∃ body' rest',
      body.check ((s.arrow f.id ⟨f.display, paramTy, resultTy⟩).var x.id paramTy) =
        (body', .ok resultTy) ∧
      rest.check (s.arrow f.id ⟨f.display, paramTy, resultTy⟩) = (rest', .ok t) ∧
      e' = letFun (i.typed t) f x paramTy resultTy body' rest' := by
  constructor
  · intro h
    rcases hb : body.check ((s.arrow f.id ⟨f.display, paramTy, resultTy⟩).var x.id paramTy)
      with ⟨body', stuck | u⟩
    · simp [hb] at h
    · by_cases hu : u = resultTy
      · subst hu
        rcases hr : rest.check (s.arrow f.id ⟨f.display, paramTy, u⟩) with ⟨rest', stuck | t'⟩
        · simp [hb, hr] at h
        · simp only [check, hb, hr, if_true, Prod.mk.injEq, Except.ok.injEq] at h
          obtain ⟨rfl, rfl⟩ := h
          exact ⟨body', rest', rfl, rfl, rfl⟩
      · simp [hb, hu] at h
  · rintro ⟨body', rest', hb, hr, rfl⟩
    simp only [check, hb, hr, if_true]

theorem check_apply {f : Name} {arg : Expr} :
    (apply i f arg).check s = (e', .ok t) ↔ ∃ a arg', s.funs.lookup f.id = some a ∧
      arg.check s = (arg', .ok a.param) ∧ t = a.result ∧ e' = apply (i.typed t) f arg' := by
  constructor
  · intro h
    rcases hf : s.funs.lookup f.id with _ | a
    · simp [hf] at h
    · rcases ha : arg.check s with ⟨arg', stuck | u⟩
      · simp [hf, ha] at h
      · by_cases hu : u = a.param
        · subst hu
          simp only [check, hf, ha, if_true, Prod.mk.injEq, Except.ok.injEq] at h
          obtain ⟨rfl, rfl⟩ := h
          exact ⟨a, arg', rfl, rfl, rfl, rfl⟩
        · simp [hf, ha, hu] at h
  · rintro ⟨a, arg', hf, ha, rfl, rfl⟩
    simp only [check, hf, ha, if_true]

theorem check_call {f : String} {args : List Expr} :
    (call i f args).check s = (e', .ok t) ↔ ∃ sig args', s.lifted.lookup f = some sig ∧
      args.length = sig.params.length ∧ checkArgs s f args sig.params = (args', .ok ()) ∧
      t = sig.result ∧ e' = call (i.typed t) f args' := by
  constructor
  · intro h
    rcases hf : s.lifted.lookup f with _ | sig
    · simp [hf] at h
    · by_cases hlen : args.length = sig.params.length
      · rcases hargs : checkArgs s f args sig.params with ⟨args', stuck | _⟩
        · simp [hf, hlen, hargs] at h
        · simp only [check, hf, hlen, hargs, if_true, Prod.mk.injEq, Except.ok.injEq] at h
          obtain ⟨rfl, rfl⟩ := h
          exact ⟨sig, args', rfl, hlen, hargs, rfl, rfl⟩
      · simp [hf, hlen] at h
  · rintro ⟨sig, args', hf, hlen, hargs, rfl, rfl⟩
    simp only [check, hf, hlen, hargs, if_true]

theorem check_seq {first second : Expr} :
    (seq i first second).check s = (e', .ok t) ↔
      ∃ first' u second', first.check s = (first', .ok u) ∧
      second.check s = (second', .ok t) ∧ e' = seq (i.typed t) first' second' := by
  constructor
  · intro h
    rcases hf : first.check s with ⟨first', stuck | u⟩
    · simp [hf] at h
    · rcases hs : second.check s with ⟨second', stuck | t'⟩
      · simp [hf, hs] at h
      · simp only [check, hf, hs, Prod.mk.injEq, Except.ok.injEq] at h
        obtain ⟨rfl, rfl⟩ := h
        exact ⟨first', u, second', rfl, rfl, rfl⟩
  · rintro ⟨first', u, second', hf, hs, rfl⟩
    simp only [check, hf, hs]

theorem check_binary {op : BinOp} {left right : Expr} :
    (binary i op left right).check s = (e', .ok t) ↔ ∃ left' u right' v,
      left.check s = (left', .ok u) ∧ right.check s = (right', .ok v) ∧ op.result? u v = some t ∧
      e' = binary (i.typed t) op left' right' := by
  constructor
  · intro h
    rcases hl : left.check s with ⟨left', stuck | u⟩
    · simp [hl] at h
    · rcases hr : right.check s with ⟨right', stuck | v⟩
      · simp [hl, hr] at h
      · rcases hop : op.result? u v with _ | t'
        · simp [hl, hr, hop] at h
        · simp only [check, hl, hr, hop, Prod.mk.injEq, Except.ok.injEq] at h
          obtain ⟨rfl, rfl⟩ := h
          exact ⟨left', u, right', v, rfl, rfl, hop, rfl⟩
  · rintro ⟨left', u, right', v, hl, hr, hop, rfl⟩
    simp only [check, hl, hr, hop]

theorem check_var {x : Name} :
    (var i x).check s = (e', .ok t) ↔ s.vars.lookup x.id = some t ∧ e' = var (i.typed t) x := by
  constructor
  · intro h
    rcases hx : s.vars.lookup x.id with _ | t'
    · simp [hx] at h
    · simp only [check, hx, Prod.mk.injEq, Except.ok.injEq] at h
      obtain ⟨rfl, rfl⟩ := h
      exact ⟨rfl, rfl⟩
  · rintro ⟨hx, rfl⟩
    simp only [check, hx]

theorem check_num {n : Word} :
    (num i n).check s = (e', .ok t) ↔ t = .num ∧ e' = num (i.typed t) n := by
  simp only [check, Prod.mk.injEq, Except.ok.injEq]
  constructor
  · rintro ⟨rfl, rfl⟩
    exact ⟨rfl, rfl⟩
  · rintro ⟨rfl, rfl⟩
    exact ⟨rfl, rfl⟩

theorem check_bool {b : Bool} :
    (bool i b).check s = (e', .ok t) ↔ t = .bool ∧ e' = bool (i.typed t) b := by
  simp only [check, Prod.mk.injEq, Except.ok.injEq]
  constructor
  · rintro ⟨rfl, rfl⟩
    exact ⟨rfl, rfl⟩
  · rintro ⟨rfl, rfl⟩
    exact ⟨rfl, rfl⟩

end

theorem checkArgs_typed {s : Scopes} {callee : String} {args args' : List Expr} {ts : List Ty}
    (hcheck : ∀ a ∈ args, ∀ s a' t, a.check s = (a', .ok t) →
      Typed s a' t ∧ a'.unmark = a.unmark)
    (hlen : args.length = ts.length) (h : checkArgs s callee args ts = (args', .ok ())) :
    ArgsTyped s args' ts ∧ unmarkAll args' = unmarkAll args := by
  induction args generalizing ts args' with
  | nil =>
    cases ts with
    | nil => cases h; exact ⟨.nil, rfl⟩
    | cons t ts => simp at hlen
  | cons arg args ih =>
    cases ts with
    | nil => simp at hlen
    | cons t ts =>
      rcases harg : arg.check s with ⟨arg', stuck | u⟩
      · simp [checkArgs, harg] at h
      · rcases hargs : checkArgs s callee args ts with ⟨rest, outcome⟩
        simp only [checkArgs, harg, hargs] at h
        split at h
        next hu =>
          simp only [Prod.mk.injEq] at h
          obtain ⟨rfl, rfl⟩ := h
          obtain ⟨ht, he⟩ := hcheck arg (by simp) s arg' u harg
          obtain ⟨hts, hes⟩ := ih (fun a ha => hcheck a (by simp [ha])) (by simpa using hlen) hargs
          exact ⟨.cons (hu ▸ ht) hts, by simp [unmarkAll, he, hes]⟩
        next => simp at h

/-- A successful check follows the rules and only marks. -/
theorem check_typed {s : Scopes} {e e' : Expr} {t : Ty} (h : e.check s = (e', .ok t)) :
    Typed s e' t ∧ e'.unmark = e.unmark := by
  induction e generalizing s e' t with
  | letIn i x value body ihv ihb =>
    obtain ⟨value', u, body', hv, hb, rfl⟩ := check_letIn.mp h
    obtain ⟨hv, hv'⟩ := ihv hv
    obtain ⟨hb, hb'⟩ := ihb hb
    exact ⟨.letIn rfl hv hb, by simp [unmark, hv', hb', Info.typed]⟩
  | letFun i f x paramTy resultTy body rest ihb ihr =>
    obtain ⟨body', rest', hb, hr, rfl⟩ := check_letFun.mp h
    obtain ⟨hb, hb'⟩ := ihb hb
    obtain ⟨hr, hr'⟩ := ihr hr
    exact ⟨.letFun rfl hb hr, by simp [unmark, hb', hr', Info.typed]⟩
  | apply i f arg ih =>
    obtain ⟨a, arg', hf, ha, rfl, rfl⟩ := check_apply.mp h
    obtain ⟨ha, ha'⟩ := ih ha
    exact ⟨.apply rfl hf ha, by simp [unmark, ha', Info.typed]⟩
  | call i f args ih =>
    obtain ⟨sig, args', hf, hlen, hargs, rfl, rfl⟩ := check_call.mp h
    obtain ⟨hts, hes⟩ := checkArgs_typed (fun a ha _ _ _ h => ih a ha h) hlen hargs
    exact ⟨.call rfl hf hts, by simp [unmark, hes, Info.typed]⟩
  | seq i first second ihf ihs =>
    obtain ⟨first', u, second', hf, hs, rfl⟩ := check_seq.mp h
    obtain ⟨hf, hf'⟩ := ihf hf
    obtain ⟨hs, hs'⟩ := ihs hs
    exact ⟨.seq rfl hf hs, by simp [unmark, hf', hs', Info.typed]⟩
  | binary i op left right ihl ihr =>
    obtain ⟨left', u, right', v, hl, hr, hop, rfl⟩ := check_binary.mp h
    obtain ⟨hl, hl'⟩ := ihl hl
    obtain ⟨hr, hr'⟩ := ihr hr
    exact ⟨.binary rfl hl hr hop, by simp [unmark, hl', hr', Info.typed]⟩
  | var i x =>
    obtain ⟨hx, rfl⟩ := check_var.mp h
    exact ⟨.var rfl hx, rfl⟩
  | num i n =>
    obtain ⟨rfl, rfl⟩ := check_num.mp h
    exact ⟨.num rfl, rfl⟩
  | bool i b =>
    obtain ⟨rfl, rfl⟩ := check_bool.mp h
    exact ⟨.bool rfl, rfl⟩

theorem typecheck_of_check {e e' : Expr} {t : Ty} (h : e.check {} = (e', .ok t)) :
    e.typecheck.outcome = .ok t ∧ e.typecheck.item = e' := by
  simp only [typecheck, Scopes.checkExpr, h, Checked.ofCheck, and_self]

theorem check_of_typecheck {e : Expr} {t : Ty} (h : e.typecheck.outcome = .ok t) :
    e.check {} = (e.typecheck.item, .ok t) := by
  rcases hc : e.check {} with ⟨e', stuck | u⟩
  · simp [typecheck, Scopes.checkExpr, Checked.ofCheck, hc] at h
  · simpa [typecheck, Scopes.checkExpr, Checked.ofCheck, hc] using h

theorem typecheck_typed {e : Expr} {t : Ty} (h : e.typecheck.outcome = .ok t) :
    Typed {} e.typecheck.item t ∧ e.typecheck.item.unmark = e.unmark :=
  check_typed (check_of_typecheck h)

end Expr

end LetStack
