import LetStack.Proofs.Typing
import LetStack.Typing.Checker

namespace LetStack

namespace TableStack

variable {α : Type}

theorem find?_push (stack : TableStack α) (y : String) : find? ([] :: stack) y = stack.find? y := rfl

theorem find?_bind {stack : TableStack α} (h : stack ≠ []) (x y : String) (a : α) :
    (stack.bind x a).find? y = if y = x then some a else stack.find? y := by
  cases stack with
  | nil => exact absurd rfl h
  | cons scope outer =>
    simp only [find?, bind, List.findSome?_cons, Table.lookup_put]
    by_cases hy : y = x <;> simp [hy]

theorem bind_ne_nil {stack : TableStack α} (h : stack ≠ []) (x : String) (a : α) :
    stack.bind x a ≠ [] := by
  cases stack with
  | nil => exact absurd rfl h
  | cons scope outer => exact List.cons_ne_nil _ _

theorem tail_bind (stack : TableStack α) (x : String) (a : α) :
    (stack.bind x a).tail = stack.tail := by
  cases stack <;> rfl

end TableStack

namespace Checker

structure Shows (c : Checker) (s : Scopes) : Prop where
  vars : ∀ x, c.vars.find? x = s.vars.lookup x
  funs : ∀ f, c.funs.find? f = s.funs.lookup f
  lifted : ∀ f, c.lifted.lookup f = s.lifted.lookup f

namespace Shows

variable {c : Checker} {s : Scopes}

theorem pushScope (h : c.Shows s) : c.pushScope.Shows s :=
  ⟨fun x => (TableStack.find?_push c.vars x).trans (h.vars x),
    fun f => (TableStack.find?_push c.funs f).trans (h.funs f), h.lifted⟩

theorem bindVar (h : c.Shows s) (hne : c.vars ≠ []) (x : String) (t : Ty) :
    (c.bindVar x t).Shows (s.var x t) := by
  refine ⟨fun y => (TableStack.find?_bind hne x y t).trans ?_, h.funs, h.lifted⟩
  by_cases hy : y = x
  · simp [hy, Scopes.var]
  · rw [if_neg hy, h.vars]
    exact (lookup_cons_of_ne hy).symm

theorem bindFun (h : c.Shows s) (hne : c.funs ≠ []) (f : String) (a : Arrow) :
    (c.bindFun f a).Shows (s.arrow f a) := by
  refine ⟨h.vars, fun g => (TableStack.find?_bind hne f g a).trans ?_, h.lifted⟩
  by_cases hg : g = f
  · simp [hg, Scopes.arrow]
  · rw [if_neg hg, h.funs]
    exact (lookup_cons_of_ne hg).symm

theorem bindParams (h : c.Shows s) (hne : c.vars ≠ []) (ps : List Param) :
    (c.bindParams ps).Shows (s.params ps) := by
  unfold Checker.bindParams Scopes.params
  induction ps generalizing c s with
  | nil => exact h
  | cons p ps ih => exact ih (h.bindVar hne p.name p.ty) (TableStack.bind_ne_nil hne p.name p.ty)

theorem declare (h : c.Shows s) (fs : List Function) : (c.declare fs).Shows (s.declare fs) := by
  refine ⟨h.vars, h.funs, ?_⟩
  unfold Checker.declare Scopes.declare
  -- one table is overwritten where the other list only grows
  have hfold (t : Table Signature) (l : List (String × Signature))
      (h : ∀ f, t.lookup f = l.lookup f) :
      ∀ f, (fs.foldl (fun t f => t.put f.name f.signature) t).lookup f =
        (fs.foldl (fun l f => (f.name, f.signature) :: l) l).lookup f := by
    induction fs generalizing t l with
    | nil => exact h
    | cons g fs ih =>
      refine ih _ _ fun f => ?_
      rw [Table.lookup_put]
      by_cases hf : f = g.name
      · simp [hf]
      · rw [if_neg hf, h, lookup_cons_of_ne hf]
  exact hfold c.lifted s.lifted h.lifted

end Shows

theorem popScope_bindParams (c : Checker) (ps : List Param) :
    (c.pushScope.bindParams ps).popScope = c := by
  have hfold (c' : Checker) : (c'.bindParams ps).popScope = c'.popScope := by
    unfold bindParams
    induction ps generalizing c' with
    | nil => rfl
    | cons p ps ih =>
      refine (ih _).trans ?_
      simp only [popScope, bindVar, TableStack.tail_bind]
  exact hfold c.pushScope

/-- How a visit compares with a check: the same marks and the same outcome. After a success the
state is the one from before, after an error it shows the scopes that stayed open. -/
inductive Agrees (c : Checker) {α β : Type} : Visit α β → α × Except Stuck β → Prop
  | ok {item : α} {b : β} : Agrees c ⟨item, .ok b, c⟩ (item, .ok b)
  | error {item : α} {error : TypeError} {c' : Checker} {s : Scopes} : c'.Shows s →
      Agrees c ⟨item, .error error, c'⟩ (item, .error ⟨error, s⟩)

variable {c : Checker} {s : Scopes}

theorem arguments_agrees (callee : String) {args : List Expr} (params : List Ty)
    (hexpr : ∀ a ∈ args, Agrees c (expr a c) (a.check s)) (h : c.Shows s) :
    Agrees c (arguments callee args params c) (Expr.checkArgs s callee args params) := by
  induction args generalizing params with
  | nil => exact .ok
  | cons arg args ih =>
    cases params with
    | nil => exact .ok
    | cons expected params =>
      have harg := hexpr arg (by simp)
      have hargs := ih params fun a ha => hexpr a (by simp [ha])
      simp only [arguments, Expr.checkArgs]
      generalize expr arg c = v, arg.check s = r at harg
      cases harg with
      | error hopen => exact .error hopen
      | ok =>
        simp only
        split
        · generalize arguments callee args params c = v,
            Expr.checkArgs s callee args params = r at hargs
          cases hargs with
          | error hopen => exact .error hopen
          | ok => exact .ok
        · exact .error h

/-- A visit goes as the check does and gives its scopes back, one for one, unless there is an error.
-/
theorem expr_agrees {e : Expr} (h : c.Shows s) : Agrees c (expr e c) (e.check s) := by
  induction e generalizing c s with
  | letIn i x value body ihv ihb =>
    have hvalue := ihv h
    simp only [expr, Expr.check]
    generalize expr value c = v, value.check s = r at hvalue
    cases hvalue with
    -- A failing part leaves its scopes open, and so does the whole expression.
    | error hopen => exact .error hopen
    | @ok value' t =>
      have hbody := ihb (h.pushScope.bindVar (List.cons_ne_nil _ _) x.id t)
      simp only
      generalize expr body _ = v, body.check _ = r at hbody
      cases hbody with
      | error hopen => exact .error hopen
      | ok => exact .ok
  | letFun i f x paramTy resultTy body rest ihb ihr =>
    have houter := h.pushScope.bindFun (List.cons_ne_nil _ _) f.id ⟨f.display, paramTy, resultTy⟩
    have hinner := houter.pushScope.bindVar (List.cons_ne_nil _ _) x.id paramTy
    have hbody := ihb hinner
    simp only [expr, Expr.check]
    generalize expr body _ = v, body.check _ = r at hbody
    cases hbody with
    | error hopen => exact .error hopen
    | @ok body' t =>
      simp only
      split
      · have hrest := ihr houter
        -- The scope of the parameter is popped before `rest`, that of the function behind it.
        have hpop (c : Checker) (y : String) : (c.pushScope.bindVar y paramTy).popScope = c := rfl
        rw [hpop]
        generalize expr rest _ = v, rest.check _ = r at hrest
        cases hrest with
        | error hopen => exact .error hopen
        | ok => exact .ok
      · exact .error hinner
  | apply i f arg ih =>
    have harg := ih h
    simp only [expr, Expr.check, h.funs]
    cases s.funs.lookup f.id with
    | none => exact .error h
    | some a =>
      simp only
      generalize expr arg c = v, arg.check s = r at harg
      cases harg with
      | error hopen => exact .error hopen
      | ok =>
        simp only
        split
        · exact .ok
        · exact .error h
  | call i f args ih =>
    simp only [expr, Expr.check, h.lifted]
    cases s.lifted.lookup f with
    | none => exact .error h
    | some sig =>
      simp only
      split
      · have hargs := arguments_agrees f sig.params (fun a ha => ih a ha h) h
        generalize arguments f args sig.params c = v, Expr.checkArgs s f args sig.params = r at hargs
        cases hargs with
        | error hopen => exact .error hopen
        | ok => exact .ok
      · exact .error h
  | seq i first second ihf ihs =>
    have hfirst := ihf h
    simp only [expr, Expr.check]
    generalize expr first c = v, first.check s = r at hfirst
    cases hfirst with
    | error hopen => exact .error hopen
    | ok =>
      have hsecond := ihs h
      simp only
      generalize expr second c = v, second.check s = r at hsecond
      cases hsecond with
      | error hopen => exact .error hopen
      | ok => exact .ok
  | binary i op left right ihl ihr =>
    have hleft := ihl h
    simp only [expr, Expr.check]
    generalize expr left c = v, left.check s = r at hleft
    cases hleft with
    | error hopen => exact .error hopen
    | @ok left' t =>
      have hright := ihr h
      simp only
      generalize expr right c = v, right.check s = r at hright
      cases hright with
      | error hopen => exact .error hopen
      | @ok right' u =>
        simp only
        cases op.result? t u with
        | none => exact .error h
        | some v => exact .ok
  | var i x =>
    simp only [expr, Expr.check, h.vars]
    cases s.vars.lookup x.id with
    | none => exact .error h
    | some t => exact .ok
  | num | bool => exact .ok

theorem function_agrees {f : Function} (h : c.Shows s) : Agrees c (function f c) (f.check s) := by
  have hinner := h.pushScope.bindParams (List.cons_ne_nil _ _) f.params
  have hbody := expr_agrees (e := f.body) hinner
  simp only [function, Function.check]
  generalize expr f.body _ = v, f.body.check _ = r at hbody
  cases hbody with
  | error hopen => exact .error hopen
  | ok =>
    simp only
    split
    · rw [popScope_bindParams]
      exact .ok
    · exact .error hinner

theorem functions_agrees (fs : List Function) (h : c.Shows s) :
    Agrees c (functions fs c) (Program.checkFunctions s fs) := by
  induction fs with
  | nil => exact .ok
  | cons f fs ih =>
    have hf := function_agrees (f := f) h
    simp only [functions, Program.checkFunctions]
    generalize function f c = v, f.check s = r at hf
    cases hf with
    | error hopen => exact .error hopen
    | ok =>
      simp only
      generalize functions fs c = v, Program.checkFunctions s fs = r at ih
      cases ih with
      | error hopen => exact .error hopen
      | ok => exact .ok

theorem program_agrees {p : Program} (h : c.Shows s) :
    Agrees (c.declare p.functions) (program p c) (p.check (s.declare p.functions)) := by
  have hdeclared := h.declare p.functions
  have hfunctions := functions_agrees p.functions hdeclared
  have hmain := expr_agrees (e := p.main) hdeclared
  simp only [program, Program.check]
  generalize functions p.functions _ = v, Program.checkFunctions _ p.functions = r at hfunctions
  cases hfunctions with
  | error hopen => exact .error hopen
  | ok =>
    simp only
    generalize expr p.main _ = v, p.main.check _ = r at hmain
    cases hmain with
    | error hopen => exact .error hopen
    | ok => exact .ok

theorem Agrees.ofCheck {α : Type} {v : Visit α Ty} {r : α × Except Stuck Ty} (h : Agrees c v r)
    (hs : c.Shows s) :
    v.item = (Checked.ofCheck s r).item ∧ v.outcome = (Checked.ofCheck s r).outcome ∧
      v.checker.Shows (Checked.ofCheck s r).scopes := by
  cases h with
  | ok => exact ⟨rfl, rfl, hs⟩
  | error hopen => exact ⟨rfl, rfl, hopen⟩

inductive Input where
  | tree (e : Expr)
  | program (p : Program)

namespace Input

def visit (c : Checker) : Input → Checker
  | tree e => (expr e c).checker
  | program p => (Checker.program p c).checker

def check (s : Scopes) : Input → Scopes
  | tree e => (s.checkExpr e).scopes
  | program p => (s.checkProgram p).scopes

theorem visit_shows (h : c.Shows s) (input : Input) : (input.visit c).Shows (input.check s) := by
  cases input with
  | tree e => exact (expr_agrees h).ofCheck h |>.2.2
  | program p => exact (program_agrees h).ofCheck (h.declare p.functions) |>.2.2

end Input

/-- After any checks, failed ones among them, the two stacks show the scopes that the checks leave
open, and the next tree or program is given the same marks and the same outcome with either. -/
theorem checks_agree (history : List Input) :
    let c := history.foldl Input.visit {}
    let s := history.foldl Input.check {}
    c.Shows s ∧
      (∀ e, (expr e c).item = (s.checkExpr e).item ∧ (expr e c).outcome = (s.checkExpr e).outcome) ∧
      ∀ p, (program p c).item = (s.checkProgram p).item ∧
        (program p c).outcome = (s.checkProgram p).outcome := by
  intro c s
  have hfold (c : Checker) (s : Scopes) (h : c.Shows s) :
      (history.foldl Input.visit c).Shows (history.foldl Input.check s) := by
    induction history generalizing c s with
    | nil => exact h
    | cons input history ih => exact ih _ _ (Input.visit_shows h input)
  have h : c.Shows s := hfold {} {} ⟨fun _ => rfl, fun _ => rfl, fun _ => rfl⟩
  refine ⟨h, fun e => ?_, fun p => ?_⟩
  · obtain ⟨hitem, houtcome, -⟩ := (expr_agrees (e := e) h).ofCheck h
    exact ⟨hitem, houtcome⟩
  · obtain ⟨hitem, houtcome, -⟩ := (program_agrees h).ofCheck (h.declare p.functions)
    exact ⟨hitem, houtcome⟩

end Checker

end LetStack
