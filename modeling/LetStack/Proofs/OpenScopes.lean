import Mathlib
import LetStack.Proofs.Scoping

namespace LetStack

open Renaming

def TypeError.undeclared? : TypeError → Option BinderKind
  | undeclaredVariable .. => some .value
  | undeclaredFunction .. => some .function
  | _ => none

namespace Scopes

def inside (s t : Scopes) : Scopes := { s with vars := s.vars ++ t.vars, funs := s.funs ++ t.funs }

theorem inside_var (s t : Scopes) (x : String) (u : Ty) :
    (s.var x u).inside t = (s.inside t).var x u := rfl

theorem inside_arrow (s t : Scopes) (f : String) (a : Arrow) :
    (s.arrow f a).inside t = (s.inside t).arrow f a := rfl

def names (s : Scopes) : List (BinderKind × String) :=
  s.vars.map (fun p => (.value, p.1)) ++ s.funs.map fun p => (.function, p.1)

@[simp] theorem value_mem_names {s : Scopes} {x : String} :
    (.value, x) ∈ s.names ↔ x ∈ s.vars.map Prod.fst := by
  simp [names]

@[simp] theorem function_mem_names {s : Scopes} {f : String} :
    (.function, f) ∈ s.names ↔ f ∈ s.funs.map Prod.fst := by
  simp [names]

theorem mem_names_var {s : Scopes} {x : String} {t : Ty} {b : BinderKind × String}
    (h : b ∈ s.names) :
    b ∈ (s.var x t).names :=
  List.mem_cons_of_mem _ h

theorem mem_names_arrow {s : Scopes} {f : String} {a : Arrow} {b : BinderKind × String}
    (h : b ∈ s.names) : b ∈ (s.arrow f a).names := by
  rcases List.mem_append.mp h with h | h
  · exact List.mem_append_left _ h
  · exact List.mem_append_right _ (List.mem_cons_of_mem _ h)

/-- The scopes `s'` are `s` with some of these names bound inside. -/
structure Extends (s : Scopes) (ids : List String) (s' : Scopes) : Prop where
  lifted : s'.lifted = s.lifted
  names : ∀ b ∈ s'.names, b ∈ s.names ∨ b.2 ∈ ids

namespace Extends

variable {s s' : Scopes} {ids ids' : List String}

theorem refl (s : Scopes) (ids : List String) : s.Extends ids s := ⟨rfl, fun _ hb => .inl hb⟩

theorem mono (h : s.Extends ids s') (hids : ∀ id ∈ ids, id ∈ ids') : s.Extends ids' s' :=
  ⟨h.lifted, fun b hb => (h.names b hb).imp_right (hids b.2)⟩

theorem ofVar {x : String} {t : Ty} (h : (s.var x t).Extends ids s') : s.Extends (x :: ids) s' := by
  refine ⟨h.lifted, fun b hb => ?_⟩
  rcases h.names b hb with hb | hb
  · rcases List.mem_cons.mp hb with rfl | hb
    · exact .inr List.mem_cons_self
    · exact .inl hb
  · exact .inr (List.mem_cons_of_mem _ hb)

theorem ofArrow {f : String} {a : Arrow} (h : (s.arrow f a).Extends ids s') :
    s.Extends (f :: ids) s' := by
  refine ⟨h.lifted, fun b hb => ?_⟩
  rcases h.names b hb with hb | hb
  · rcases List.mem_append.mp hb with hb | hb
    · exact .inl (List.mem_append_left _ hb)
    · rcases List.mem_cons.mp hb with rfl | hb
      · exact .inr List.mem_cons_self
      · exact .inl (List.mem_append_right _ hb)
  · exact .inr (List.mem_cons_of_mem _ hb)

end Extends

def after (history : List Expr) : Scopes := history.foldl (fun s e => (s.checkExpr e).scopes) {}

end Scopes

def Stuck.inside (t : Scopes) (stuck : Stuck) : Stuck := ⟨stuck.error, stuck.scopes.inside t⟩

namespace Expr

/-- The name that the check of a tree without lifted calls stops at for want of a binder, if it
does. -/
def missing? (s : Scopes) : Expr → Option (BinderKind × String)
  | letIn _ x value body =>
    match (value.check s).2 with
    | .error _ => value.missing? s
    | .ok t => body.missing? (s.var x.id t)
  | letFun _ f x paramTy resultTy body rest =>
    let outer := s.arrow f.id ⟨f.display, paramTy, resultTy⟩
    match (body.check (outer.var x.id paramTy)).2 with
    | .error _ => body.missing? (outer.var x.id paramTy)
    | .ok t => if t = resultTy then rest.missing? outer else none
  | apply _ f arg => if s.funs.lookup f.id = none then some (.function, f.id) else arg.missing? s
  | seq _ a b | binary _ _ a b =>
    match (a.check s).2 with
    | .error _ => a.missing? s
    | .ok _ => b.missing? s
  | var _ x => if s.vars.lookup x.id = none then some (.value, x.id) else none
  | call .. | num .. | bool .. => none

theorem lookup_eq_none_iff {α : Type} {l : List (String × α)} {x : String} :
    l.lookup x = none ↔ x ∉ l.map Prod.fst := by
  rw [List.lookup_eq_none_iff]
  constructor
  · intro h hx
    obtain ⟨p, hp, rfl⟩ := List.mem_map.mp hx
    simpa using h p hp
  · intro h p hp
    have hne : x ≠ p.1 := fun heq => h (heq ▸ List.mem_map_of_mem hp)
    simpa using hne

section

variable {s t : Scopes}

/-- A check that misses a name fails for that reason. -/
theorem check_of_missing {e : Expr} {b : BinderKind × String} (h : e.missing? s = some b) :
    ∃ stuck, (e.check s).2 = .error stuck ∧ stuck.error.undeclared? = some b.1 := by
  induction e generalizing s with
  | letIn i x value body ihv ihb =>
    rcases hv : value.check s with ⟨value', stuck | u⟩ <;> simp only [missing?, hv] at h
    · simpa [check, hv] using ihv h
    · rcases hb : body.check (s.var x.id u) with ⟨body', stuck | u'⟩ <;>
        simpa [check, hv, hb] using ihb h
  | letFun i f x paramTy resultTy body rest ihb ihr =>
    rcases hb : body.check ((s.arrow f.id ⟨f.display, paramTy, resultTy⟩).var x.id paramTy)
      with ⟨body', stuck | u⟩ <;> simp only [missing?, hb] at h
    · simpa [check, hb] using ihb h
    · split at h
      next hu =>
        rcases hr : rest.check (s.arrow f.id ⟨f.display, paramTy, resultTy⟩)
          with ⟨rest', stuck | u'⟩ <;> simpa [check, hb, hu, hr] using ihr h
      next => cases h
  | apply i f arg ih =>
    rcases hf : s.funs.lookup f.id with _ | a <;>
      simp only [missing?, hf, reduceCtorEq, if_true, if_false] at h
    · cases h
      simp [check, hf, TypeError.undeclared?]
    · rcases ha : arg.check s with ⟨arg', stuck | u⟩ <;> simpa [check, hf, ha] using ih h
  | seq i a c iha ihc | binary i op a c iha ihc =>
    rcases ha : a.check s with ⟨a', stuck | u⟩ <;> simp only [missing?, ha] at h
    · simpa [check, ha] using iha h
    · rcases hc : c.check s with ⟨c', stuck | u'⟩ <;> simpa [check, ha, hc] using ihc h
  | var i x =>
    rcases hx : s.vars.lookup x.id with _ | u <;>
      simp only [missing?, hx, reduceCtorEq, if_true, if_false] at h
    cases h
    simp [check, hx, TypeError.undeclared?]
  | call | num | bool => cases h

theorem missing_of_ok {e e' : Expr} {u : Ty} (h : e.check s = (e', .ok u)) :
    e.missing? s = none := by
  cases hb : e.missing? s with
  | none => rfl
  | some b =>
    obtain ⟨stuck, hcheck, -⟩ := check_of_missing hb
    rw [h] at hcheck
    cases hcheck

/-- No check misses a name that is in sight. -/
theorem missing_notMem {e : Expr} {b : BinderKind × String} (h : e.missing? s = some b) :
    b ∉ s.names := by
  induction e generalizing s with
  | letIn i x value body ihv ihb =>
    rcases hv : value.check s with ⟨value', stuck | u⟩ <;> simp only [missing?, hv] at h
    · exact ihv h
    · exact fun hb => ihb h (Scopes.mem_names_var hb)
  | letFun i f x paramTy resultTy body rest ihb ihr =>
    rcases hv : body.check ((s.arrow f.id ⟨f.display, paramTy, resultTy⟩).var x.id paramTy)
      with ⟨body', stuck | u⟩ <;> simp only [missing?, hv] at h
    · exact fun hb => ihb h (Scopes.mem_names_var (Scopes.mem_names_arrow hb))
    · split at h
      next => exact fun hb => ihr h (Scopes.mem_names_arrow hb)
      next => cases h
  | apply i f arg ih =>
    rcases hf : s.funs.lookup f.id with _ | a <;> simp only [missing?, hf] at h
    · cases h
      exact fun hb => lookup_eq_none_iff.mp hf (Scopes.function_mem_names.mp hb)
    · exact ih h
  | seq i a c iha ihc | binary i op a c iha ihc =>
    rcases ha : a.check s with ⟨a', stuck | u⟩ <;> simp only [missing?, ha] at h
    · exact iha h
    · exact ihc h
  | var i x =>
    rcases hx : s.vars.lookup x.id with _ | u <;> simp only [missing?, hx] at h
    · cases h
      exact fun hb => lookup_eq_none_iff.mp hx (Scopes.value_mem_names.mp hb)
    · cases h
  | call | num | bool => cases h

/-- A check that misses no name of the scopes around it goes as if these were not there. -/
theorem check_inside {e : Expr} (hs : s.lifted = []) (h : ∀ b ∈ e.missing? s, b ∉ t.names) :
    e.check (s.inside t) = ((e.check s).1, (e.check s).2.mapError (Stuck.inside t)) := by
  induction e generalizing s with
  | letIn i x value body ihv ihb =>
    -- `missing?` follows the checker: behind a part that checks it goes on with the next one.
    rcases hv : value.check s with ⟨value', stuck | u⟩ <;> simp only [missing?, hv] at h
    · have hvalue := ihv hs h
      simp only [check, hvalue, hv, Except.mapError]
    · have hvalue := ihv hs (by simp [missing_of_ok hv])
      have hbody := ihb (s := s.var x.id u) hs h
      rcases hb : body.check (s.var x.id u) with ⟨body', stuck | u'⟩ <;>
        simp only [Scopes.inside_var, hv, hb, Except.mapError] at hvalue hbody <;>
        simp only [check, hv, hb, hvalue, hbody, Except.mapError]
  | letFun i f x paramTy resultTy body rest ihb ihr =>
    rcases hb : body.check ((s.arrow f.id ⟨f.display, paramTy, resultTy⟩).var x.id paramTy)
      with ⟨body', stuck | u⟩ <;> simp only [missing?, hb] at h
    · have hbody := ihb (s := (s.arrow f.id _).var x.id _) hs h
      simp only [Scopes.inside_var, Scopes.inside_arrow, hb, Except.mapError] at hbody
      simp only [check, hbody, hb, Except.mapError]
    · have hbody := ihb (s := (s.arrow f.id ⟨f.display, paramTy, resultTy⟩).var x.id paramTy) hs
        (by simp [missing_of_ok hb])
      simp only [Scopes.inside_var, Scopes.inside_arrow, hb, Except.mapError] at hbody
      split at h
      next hu =>
        have hrest := ihr (s := s.arrow f.id _) hs h
        rcases hr : rest.check (s.arrow f.id ⟨f.display, paramTy, resultTy⟩)
          with ⟨rest', stuck | u'⟩ <;>
          simp only [Scopes.inside_arrow, hr, Except.mapError] at hrest <;>
          simp only [check, hb, hbody, hr, hrest, if_pos hu, Except.mapError]
      next hu => simp only [check, hb, hbody, if_neg hu, Except.mapError]; rfl
  | apply i f arg ih =>
    rcases hf : s.funs.lookup f.id with _ | a <;>
      simp only [missing?, hf, reduceCtorEq, if_true, if_false] at h
    -- The name is missing in `s`; only a binder of `t` could have changed the answer.
    · have hft : t.funs.lookup f.id = none := by
        rw [lookup_eq_none_iff, ← Scopes.function_mem_names]
        exact h _ rfl
      have hlookup : (s.inside t).funs.lookup f.id = none := by
        simp [Scopes.inside, List.lookup_append, hf, hft]
      simp only [check, hf, hlookup, Except.mapError]
      rfl
    · have hlookup : (s.inside t).funs.lookup f.id = some a := by
        simp [Scopes.inside, List.lookup_append, hf]
      have harg := ih hs h
      rcases ha : arg.check s with ⟨arg', stuck | u⟩ <;>
        simp only [ha, Except.mapError] at harg <;>
        simp only [check, hf, hlookup, ha, harg, Except.mapError]
      split <;> rfl
  | call i f args ih =>
    have hlookup : (s.inside t).lifted.lookup f = none := by simp [Scopes.inside, hs]
    simp only [check, hlookup, hs, List.lookup_nil, Except.mapError]
    rfl
  | seq i a c iha ihc =>
    rcases ha : a.check s with ⟨a', stuck | u⟩ <;> simp only [missing?, ha] at h
    · have hfirst := iha hs h
      simp only [check, hfirst, ha, Except.mapError]
    · have hfirst := iha hs (by simp [missing_of_ok ha])
      have hsecond := ihc hs h
      rcases hc : c.check s with ⟨c', stuck | u'⟩ <;>
        simp only [ha, hc, Except.mapError] at hfirst hsecond <;>
        simp only [check, ha, hc, hfirst, hsecond, Except.mapError]
  | binary i op a c iha ihc =>
    rcases ha : a.check s with ⟨a', stuck | u⟩ <;> simp only [missing?, ha] at h
    · have hleft := iha hs h
      simp only [check, hleft, ha, Except.mapError]
    · have hleft := iha hs (by simp [missing_of_ok ha])
      have hright := ihc hs h
      rcases hc : c.check s with ⟨c', stuck | u'⟩ <;>
        simp only [ha, hc, Except.mapError] at hleft hright <;>
        simp only [check, ha, hc, hleft, hright, Except.mapError]
      cases op.result? u u' <;> rfl
  | var i x =>
    rcases hx : s.vars.lookup x.id with _ | u <;>
      simp only [missing?, hx, reduceCtorEq, if_true, if_false] at h
    · have hxt : t.vars.lookup x.id = none := by
        rw [lookup_eq_none_iff, ← Scopes.value_mem_names]
        exact h _ rfl
      have hlookup : (s.inside t).vars.lookup x.id = none := by
        simp [Scopes.inside, List.lookup_append, hx, hxt]
      simp only [check, hx, hlookup, Except.mapError]
      rfl
    · have hlookup : (s.inside t).vars.lookup x.id = some u := by
        simp [Scopes.inside, List.lookup_append, hx]
      simp only [check, hx, hlookup, Except.mapError]
  | num | bool => rfl

/-- A failed check leaves no names in sight but those from before and those that the tree binds. -/
theorem check_extends {e e' : Expr} {stuck : Stuck} (hs : s.lifted = [])
    (h : e.check s = (e', .error stuck)) : s.Extends e.binderIds stuck.scopes := by
  induction e generalizing s e' stuck with
  | letIn i x value body ihv ihb =>
    rcases hv : value.check s with ⟨value', stuck' | u⟩
    · cases (by simpa [check, hv] using h : _ ∧ stuck' = stuck).2
      exact (ihv hs hv).mono fun id hid => by simp [binderIds, hid]
    · rcases hb : body.check (s.var x.id u) with ⟨body', stuck' | u'⟩
      · cases (by simpa [check, hv, hb] using h : _ ∧ stuck' = stuck).2
        exact (ihb (s := s.var x.id u) hs hb).ofVar.mono fun id hid => by
          simp only [binderIds, List.mem_cons, List.mem_append] at hid ⊢
          tauto
      · simp [check, hv, hb] at h
  | letFun i f x paramTy resultTy body rest ihb ihr =>
    have hids (id : String) (h : id = f.id ∨ id = x.id ∨ id ∈ body.binderIds ∨ id ∈ rest.binderIds) :
        id ∈ (letFun i f x paramTy resultTy body rest).binderIds := by
      simpa [binderIds] using h
    rcases hb : body.check ((s.arrow f.id ⟨f.display, paramTy, resultTy⟩).var x.id paramTy)
      with ⟨body', stuck' | u⟩
    · cases (by simpa [check, hb] using h : _ ∧ stuck' = stuck).2
      have hinner := ihb (s := (s.arrow f.id ⟨f.display, paramTy, resultTy⟩).var x.id paramTy) hs hb
      exact hinner.ofVar.ofArrow.mono fun id hid => hids id <| by
        simp only [List.mem_cons] at hid
        tauto
    · by_cases hu : u = resultTy
      · rcases hr : rest.check (s.arrow f.id ⟨f.display, paramTy, resultTy⟩) with
          ⟨rest', stuck' | u'⟩
        · cases (by simpa [check, hb, hu, hr] using h : _ ∧ stuck' = stuck).2
          have houter := ihr (s := s.arrow f.id ⟨f.display, paramTy, resultTy⟩) hs hr
          exact houter.ofArrow.mono fun id hid => hids id <| by
            simp only [List.mem_cons] at hid
            tauto
        · simp [check, hb, hu, hr] at h
      -- a result of another type is noticed while the parameter is still in sight
      · cases (by simpa [check, hb, hu] using h : _ ∧ (⟨_, _⟩ : Stuck) = stuck).2
        exact ((Scopes.Extends.refl _ []).ofVar.ofArrow).mono fun id hid => hids id <| by
          simp only [List.mem_cons, List.not_mem_nil, or_false] at hid
          tauto
  | apply i f arg ih =>
    rcases hf : s.funs.lookup f.id with _ | a
    · cases (by simpa [check, hf] using h : _ ∧ (⟨_, _⟩ : Stuck) = stuck).2
      exact .refl s _
    · rcases ha : arg.check s with ⟨arg', stuck' | u⟩
      · cases (by simpa [check, hf, ha] using h : _ ∧ stuck' = stuck).2
        exact ih hs ha
      · by_cases hu : u = a.param
        · simp [check, hf, ha, hu] at h
        · cases (by simpa [check, hf, ha, hu] using h : _ ∧ (⟨_, _⟩ : Stuck) = stuck).2
          exact .refl s _
  | call i f args ih =>
    cases (by simpa [check, hs] using h : _ ∧ (⟨_, _⟩ : Stuck) = stuck).2
    exact .refl s _
  | seq i a c iha ihc =>
    rcases ha : a.check s with ⟨a', stuck' | u⟩
    · cases (by simpa [check, ha] using h : _ ∧ stuck' = stuck).2
      exact (iha hs ha).mono fun id => List.mem_append_left _
    · rcases hc : c.check s with ⟨c', stuck' | u'⟩
      · cases (by simpa [check, ha, hc] using h : _ ∧ stuck' = stuck).2
        exact (ihc hs hc).mono fun id => List.mem_append_right _
      · simp [check, ha, hc] at h
  | binary i op a c iha ihc =>
    rcases ha : a.check s with ⟨a', stuck' | u⟩
    · cases (by simpa [check, ha] using h : _ ∧ stuck' = stuck).2
      exact (iha hs ha).mono fun id => List.mem_append_left _
    · rcases hc : c.check s with ⟨c', stuck' | u'⟩
      · cases (by simpa [check, ha, hc] using h : _ ∧ stuck' = stuck).2
        exact (ihc hs hc).mono fun id => List.mem_append_right _
      · cases hop : op.result? u u' with
        | none =>
          cases (by simpa [check, ha, hc, hop] using h : _ ∧ (⟨_, _⟩ : Stuck) = stuck).2
          exact .refl s _
        | some v => simp [check, ha, hc, hop] at h
  | var i x =>
    cases hx : s.vars.lookup x.id with
    | none =>
      cases (by simpa [check, hx] using h : _ ∧ (⟨_, _⟩ : Stuck) = stuck).2
      exact .refl s _
    | some u => simp [check, hx] at h
  | num | bool => cases h

end

end Expr

namespace Scopes

variable {s : Scopes} {e : Expr}

theorem scopes_checkExpr_of_ok {u : Ty} (h : (s.checkExpr e).outcome = .ok u) :
    (s.checkExpr e).scopes = s := by
  rcases hcheck : e.check s with ⟨e', stuck | u'⟩ <;> simp_all [checkExpr, Checked.ofCheck]

theorem checkExpr_extends (hs : s.lifted = []) : s.Extends e.binderIds (s.checkExpr e).scopes := by
  rcases hcheck : e.check s with ⟨e', stuck | u⟩ <;> simp only [checkExpr, Checked.ofCheck, hcheck]
  · exact Expr.check_extends hs hcheck
  · exact .refl s _

theorem after_append_singleton (history : List Expr) (e : Expr) :
    after (history ++ [e]) = ((after history).checkExpr e).scopes := by
  simp [after]

theorem after_lifted (history : List Expr) : (after history).lifted = [] := by
  induction history using List.reverseRecOn with
  | nil => rfl
  | append_singleton history e ih => rw [after_append_singleton, (checkExpr_extends ih).lifted, ih]

/-- Only trees that failed their check leave names in sight, and only those that they bind. -/
theorem exists_failed_of_mem_names {history : List Expr} {b : BinderKind × String}
    (hb : b ∈ (after history).names) :
    ∃ before e rest, history = before ++ e :: rest ∧
      (∃ error, ((after before).checkExpr e).outcome = .error error) ∧ b.2 ∈ e.binderIds := by
  induction history using List.reverseRecOn with
  | nil => cases hb
  | append_singleton history e ih =>
    rw [after_append_singleton] at hb
    have hold (hb : b ∈ (after history).names) :
        ∃ before e' rest, history ++ [e] = before ++ e' :: rest ∧
        (∃ error, ((after before).checkExpr e').outcome = .error error) ∧ b.2 ∈ e'.binderIds := by
      obtain ⟨before, e', rest, rfl, hfailed⟩ := ih hb
      exact ⟨before, e', rest ++ [e], by simp, hfailed⟩
    cases hcheck : ((after history).checkExpr e).outcome with
    | ok u =>
      rw [scopes_checkExpr_of_ok hcheck] at hb
      exact hold hb
    | error error =>
      rcases (checkExpr_extends (after_lifted history)).names b hb with hb | hb
      · exact hold hb
      · exact ⟨history, e, [], rfl, ⟨error, hcheck⟩, hb⟩

theorem empty_inside (h : s.lifted = []) : inside {} s = s := by
  cases s
  simp_all [inside]

theorem checkExpr_of_missing {b : BinderKind × String} (h : e.missing? s = some b) :
    ∃ error, (s.checkExpr e).outcome = .error error ∧ error.undeclared? = some b.1 := by
  obtain ⟨stuck, hstuck, hundeclared⟩ := Expr.check_of_missing h
  rcases hcheck : e.check s with ⟨e', stuck' | u⟩ <;> rw [hcheck] at hstuck <;> cases hstuck
  exact ⟨stuck.error, by simp [checkExpr, Checked.ofCheck, hcheck], hundeclared⟩

theorem checkExpr_of_not_missing (hs : s.lifted = []) (h : ∀ b ∈ e.missing? {}, b ∉ s.names) :
    (s.checkExpr e).outcome = e.typecheck.outcome ∧ (s.checkExpr e).item = e.typecheck.item := by
  have hcheck := Expr.check_inside (s := {}) rfl h
  rw [empty_inside hs] at hcheck
  rcases hnew : e.check {} with ⟨e', stuck | u⟩ <;>
    simp [checkExpr, Expr.typecheck, Checked.ofCheck, hcheck, hnew, Except.mapError, Stuck.inside]

end Scopes

/-- What a checker does after other checks. The names that it has in sight are bound by earlier
trees that failed. If a new checker does not stop at one of them for want of a binder, both give the
same outcome and the same marks; otherwise the new checker reports it, and the other goes on. -/
theorem check_after_history (history : List Expr) (e : Expr) :
    let s := Scopes.after history
    (∀ b ∈ s.names, ∃ before e' rest, history = before ++ e' :: rest ∧
      (∃ error, ((Scopes.after before).checkExpr e').outcome = .error error) ∧ b.2 ∈ e'.binderIds) ∧
    ((∀ b ∈ e.missing? {}, b ∉ s.names) →
      (s.checkExpr e).outcome = e.typecheck.outcome ∧ (s.checkExpr e).item = e.typecheck.item) ∧
    ∀ b ∈ e.missing? {}, b ∈ s.names →
      (∃ error, e.typecheck.outcome = .error error ∧ error.undeclared? = some b.1) ∧
        e.missing? s ≠ some b := by
  intro s
  refine ⟨fun b hb => Scopes.exists_failed_of_mem_names hb, fun h => ?_, fun b hb hleft => ⟨?_, ?_⟩⟩
  · exact Scopes.checkExpr_of_not_missing (Scopes.after_lifted history) h
  · exact Scopes.checkExpr_of_missing hb
  · exact fun h => Expr.missing_notMem h hleft

def leftOpen : String := "let x = 1 in y"

theorem check_after_history_leftOpen : ∃ e e' : Expr,
    parse leftOpen = .ok e ∧ parse "x" = .ok e' ∧
      ((Scopes.after [e]).checkExpr e').outcome = .ok .num ∧
      e'.typecheck.outcome = .error (.undeclaredVariable "x" ⟨1, 1, 1⟩) := by
  have hresults : (parse leftOpen).toOption.map (fun e => (parse "x").toOption.map fun e' =>
      (((Scopes.after [e]).checkExpr e').outcome, e'.typecheck.outcome)) =
        some (some (.ok .num, .error (.undeclaredVariable "x" ⟨1, 1, 1⟩))) := by cbv
  obtain ⟨e, he, hresults⟩ := exists_of_parse hresults
  obtain ⟨e', he', hpair⟩ := exists_of_parse hresults
  obtain ⟨hused, hnew⟩ := Prod.mk.inj hpair
  exact ⟨e, e', he, he', hused, hnew⟩

end LetStack
