import LetStack.Expr.FreeVars
import LetStack.Proofs.Typing

namespace LetStack

namespace FreeVars

theorem has_iff {s : FreeVars} {name : String} : s.has name = true ↔ ∃ v ∈ s, v.name = name := by
  simp [has]

theorem mem_of_mem_add {s : FreeVars} {v w : FreeVar} (h : v ∈ s.add w) : v ∈ s ∨ v = w := by
  unfold add at h
  split at h
  · exact .inl h
  · simpa using h

theorem exists_mem_add {s : FreeVars} {w : FreeVar} {name : String} :
    (∃ v ∈ s.add w, v.name = name) ↔ (∃ v ∈ s, v.name = name) ∨ w.name = name := by
  unfold add
  split
  next h =>
    refine ⟨.inl, fun h' => h'.elim id fun hw => ?_⟩
    rw [← hw]
    exact has_iff.mp h
  next => simp [or_and_right, exists_or]

theorem mem_of_mem_foldl_add {l : List FreeVar} {s : FreeVars} {v : FreeVar}
    (h : v ∈ l.foldl add s) : v ∈ s ∨ v ∈ l := by
  induction l generalizing s with
  | nil => exact .inl h
  | cons w l ih =>
    rcases ih h with h | h
    · rcases mem_of_mem_add h with h | h
      · exact .inl h
      · exact .inr (by simp [h])
    · exact .inr (by simp [h])

theorem exists_mem_foldl_add {l : List FreeVar} {s : FreeVars} {name : String} :
    (∃ v ∈ l.foldl add s, v.name = name) ↔
      (∃ v ∈ s, v.name = name) ∨ ∃ v ∈ l, v.name = name := by
  induction l generalizing s with
  | nil => simp
  | cons w l ih => simp [ih, exists_mem_add, or_assoc]

theorem nodup_names_foldl_add {l : List FreeVar} {s : FreeVars} (h : s.names.Nodup) :
    (l.foldl add s).names.Nodup := by
  induction l generalizing s with
  | nil => exact h
  | cons v l ih =>
    refine ih ?_
    unfold add
    split
    next => exact h
    next hv =>
      have hnew : ∀ w ∈ s, w.name ≠ v.name := by simpa [has_iff] using hv
      simp only [names, List.map_append, List.nodup_append, List.mem_map,
        List.map_cons, List.map_nil]
      refine ⟨h, by simp, ?_⟩
      rintro _ ⟨w, hw, rfl⟩ _ hb
      rw [List.mem_singleton.mp hb]
      exact hnew w hw

/-- Skipping the bound ones while adding is adding those that are left. -/
theorem foldl_addUnbound (bound : List String) (l : List FreeVar) (s : FreeVars) :
    l.foldl (addUnbound bound) s = (l.filter fun v => v.name ∉ bound).foldl add s := by
  induction l generalizing s with
  | nil => rfl
  | cons w l ih =>
    by_cases h : w.name ∈ bound
    · simp [addUnbound, h, ih]
    · simp [addUnbound, h, ih]

theorem filter_filter_unbound (inner bound : List String) (l : List FreeVar) :
    (l.filter fun v => v.name ∉ inner).filter (fun v => v.name ∉ bound) =
      l.filter fun v => v.name ∉ inner ++ bound := by
  rw [List.filter_filter]
  congr 1
  funext v
  simp [Bool.and_comm]

end FreeVars

namespace Expr

mutual

/-- Every variable that the tree uses and does not bind, as often as it is used. A call uses what
`captures` says of its callee in front of its argument. -/
def occurrences (captures : String → List FreeVar) : Expr → List FreeVar
  | letIn _ x value body =>
    value.occurrences captures ++ (body.occurrences captures).filter fun v => v.name ∉ [x.id]
  | letFun _ f x _ _ body rest =>
    ((body.occurrences captures).filter fun v => v.name ∉ [x.id, f.id]) ++
      (rest.occurrences captures).filter fun v => v.name ∉ [f.id]
  | apply _ f arg => captures f.id ++ arg.occurrences captures
  | call _ _ args => occurrencesOf captures args
  | seq _ a b | binary _ _ a b => a.occurrences captures ++ b.occurrences captures
  | var i x => [⟨x.id, x.display, i.ty⟩]
  | num .. | bool .. => []

def occurrencesOf (captures : String → List FreeVar) : List Expr → List FreeVar
  | [] => []
  | e :: es => e.occurrences captures ++ occurrencesOf captures es

end

section

variable {captures : String → List FreeVar}

theorem mem_occurrencesOf {v : FreeVar} {es : List Expr} :
    v ∈ occurrencesOf captures es ↔ ∃ e ∈ es, v ∈ e.occurrences captures := by
  induction es with
  | nil => simp [occurrencesOf]
  | cons e es ih => simp [occurrencesOf, ih]

theorem collectFreeOf_eq {es : List Expr} {bound : List String}
    (h : ∀ e ∈ es, ∀ s, e.collectFree captures bound s =
      ((e.occurrences captures).filter fun v => v.name ∉ bound).foldl FreeVars.add s)
    (s : FreeVars) : collectFreeOf captures bound s es =
      ((occurrencesOf captures es).filter fun v => v.name ∉ bound).foldl FreeVars.add s := by
  induction es generalizing s with
  | nil => rfl
  | cons e es ih =>
    simp only [collectFreeOf, occurrencesOf, List.filter_append, List.foldl_append]
    rw [h e (by simp), ih fun a ha => h a (by simp [ha])]

/-- Collecting adds the occurrences that are not bound outside, one after the other. -/
theorem collectFree_eq (e : Expr) (bound : List String) (s : FreeVars) :
    e.collectFree captures bound s =
      ((e.occurrences captures).filter fun v => v.name ∉ bound).foldl FreeVars.add s := by
  induction e generalizing bound s with
  | letIn i x value body ihv ihb =>
    simp only [collectFree, occurrences, List.filter_append, List.foldl_append, ihv, ihb,
      FreeVars.filter_filter_unbound, List.cons_append, List.nil_append]
  | letFun i f x paramTy resultTy body rest ihb ihr =>
    simp only [collectFree, occurrences, List.filter_append, List.foldl_append, ihb, ihr,
      FreeVars.filter_filter_unbound, List.cons_append, List.nil_append]
  | apply i f arg ih =>
    simp only [collectFree, occurrences, List.filter_append, List.foldl_append, ih,
      FreeVars.foldl_addUnbound]
  | call i f args ih => exact collectFreeOf_eq (fun a ha => ih a ha bound) s
  | seq i a b iha ihb | binary i op a b iha ihb =>
    simp only [collectFree, occurrences, List.filter_append, List.foldl_append, iha, ihb]
  | var i x =>
    by_cases h : x.id ∈ bound <;> simp [collectFree, occurrences, FreeVars.addUnbound, h]
  | num | bool => rfl

theorem nodup_names_freeVars (e : Expr) (bound : List String) :
    (e.freeVars captures bound).names.Nodup := by
  rw [freeVars, collectFree_eq]
  exact FreeVars.nodup_names_foldl_add List.nodup_nil

theorem mem_occurrences_of_mem_freeVars {e : Expr} {bound : List String} {v : FreeVar}
    (h : v ∈ e.freeVars captures bound) : v ∈ e.occurrences captures ∧ v.name ∉ bound := by
  rw [freeVars, collectFree_eq] at h
  rcases FreeVars.mem_of_mem_foldl_add h with h | h
  · simp at h
  · simpa using h

/-- An occurrence that is not bound outside has a free variable of its name. -/
theorem exists_mem_freeVars {e : Expr} {bound : List String} {v : FreeVar}
    (h : v ∈ e.occurrences captures) (hv : v.name ∉ bound) :
    ∃ w ∈ e.freeVars captures bound, w.name = v.name := by
  rw [freeVars, collectFree_eq]
  exact FreeVars.exists_mem_foldl_add.mpr (.inr ⟨v, by simp [h, hv], rfl⟩)

/-- What a larger table of captures adds to the occurrences comes from the table. -/
theorem mem_occurrences_mono {captures' : String → List FreeVar} {extra : FreeVar → Prop}
    (hcap : ∀ f, ∀ v ∈ captures' f, v ∈ captures f ∨ extra v) {e : Expr} {v : FreeVar}
    (h : v ∈ e.occurrences captures') : v ∈ e.occurrences captures ∨ extra v := by
  induction e with
  | letIn i x value body ihv ihb =>
    simp only [occurrences, List.mem_append, List.mem_filter] at h ⊢
    rcases h with h | ⟨h, hx⟩
    · exact (ihv h).imp_left .inl
    · exact (ihb h).imp_left fun h => .inr ⟨h, hx⟩
  | letFun i f x paramTy resultTy body rest ihb ihr =>
    simp only [occurrences, List.mem_append, List.mem_filter] at h ⊢
    rcases h with ⟨h, hx⟩ | ⟨h, hx⟩
    · exact (ihb h).imp_left fun h => .inl ⟨h, hx⟩
    · exact (ihr h).imp_left fun h => .inr ⟨h, hx⟩
  | apply i f arg ih =>
    simp only [occurrences, List.mem_append] at h ⊢
    rcases h with h | h
    · exact (hcap f.id v h).imp_left .inl
    · exact (ih h).imp_left .inr
  | call i f args ih =>
    obtain ⟨a, ha, h⟩ := mem_occurrencesOf.mp h
    exact (ih a ha h).imp_left fun h => mem_occurrencesOf.mpr ⟨a, ha, h⟩
  | seq i a b iha ihb | binary i op a b iha ihb =>
    simp only [occurrences, List.mem_append] at h ⊢
    rcases h with h | h
    · exact (iha h).imp_left .inl
    · exact (ihb h).imp_left .inr
  | var | num | bool => exact .inl h

end

end Expr

def Scopes.Within (s : Scopes) (scope : List String) : Prop :=
  ∀ x t, s.vars.lookup x = some t → x ∈ scope

theorem Scopes.Within.var {s : Scopes} {scope : List String} (h : s.Within scope) (x : String)
    (t : Ty) : (s.var x t).Within (x :: scope) := by
  intro y u hy
  by_cases hyx : y = x
  · simp [hyx]
  · rw [var_vars, lookup_cons_of_ne hyx] at hy
    exact List.mem_cons_of_mem _ (h y u hy)

theorem Scopes.Within.arrow {s : Scopes} {scope : List String} (h : s.Within scope) (f : String)
    (a : Arrow) : (s.arrow f a).Within (f :: scope) :=
  fun y u hy => List.mem_cons_of_mem _ (h y u hy)

namespace FreeVar

def TypedIn (s : Scopes) (v : FreeVar) : Prop :=
  ∃ t, v.ty = some t ∧ s.vars.lookup v.name = some t

theorem typedIn_var {s : Scopes} {v : FreeVar} {x : String} {t : Ty} (hx : v.name ≠ x) :
    v.TypedIn (s.var x t) ↔ v.TypedIn s := by
  simp only [TypedIn, Scopes.var_vars, lookup_cons_of_ne hx]

/-- A new binder that hides nothing leaves the types of the variables in sight. -/
theorem TypedIn.weaken {s : Scopes} {scope : List String} {v : FreeVar} {x : String} {t : Ty}
    (hv : v.TypedIn s) (hs : s.Within scope) (hx : x ∉ scope) : v.TypedIn (s.var x t) := by
  have hne : v.name ≠ x := by
    intro h
    obtain ⟨u, -, hu⟩ := hv
    exact hx (h ▸ hs _ _ hu)
  exact (typedIn_var hne).mpr hv

end FreeVar

namespace Expr

/-- In a typed tree without shadowing every free occurrence is typed in the scopes outside. -/
theorem occurrences_typed {captures : String → List FreeVar} {s : Scopes} {scope : List String}
    {e : Expr} {t : Ty} (h : Typed s e t) (hshadow : e.NoShadow scope) (hs : s.Within scope)
    (hcap : ∀ f, ∀ v ∈ captures f, v.TypedIn s) : ∀ v ∈ e.occurrences captures, v.TypedIn s := by
  induction e generalizing s scope t with
  | letIn i x value body ihv ihb =>
    cases h with
    | @letIn _ _ _ _ _ u _ _ hvalue hbody =>
      obtain ⟨hnv, hx, hnb⟩ := hshadow
      intro v hv
      simp only [occurrences, List.mem_append, List.mem_filter, List.mem_singleton] at hv
      rcases hv with hv | ⟨hv, hvx⟩
      · exact ihv hvalue hnv hs hcap v hv
      · -- typed inside the binding, which is of another name
        have hb := ihb hbody hnb (hs.var _ _) (fun f w hw => (hcap f w hw).weaken hs hx) v hv
        exact (FreeVar.typedIn_var (by simpa using hvx)).mp hb
  | letFun i f x paramTy resultTy body rest ihb ihr =>
    cases h with
    | letFun _ hbody hrest =>
      obtain ⟨hf, hx, hnb, hnr⟩ := hshadow
      let s' := s.arrow f.id ⟨f.display, paramTy, resultTy⟩
      have hs' : s'.Within (f.id :: scope) := hs.arrow _ _
      intro v hv
      simp only [occurrences, List.mem_append, List.mem_filter, List.mem_cons, List.not_mem_nil,
        or_false, decide_eq_true_eq, not_or] at hv
      rcases hv with ⟨hv, hvx, -⟩ | ⟨hv, -⟩
      · have hcap' : ∀ g, ∀ w ∈ captures g, w.TypedIn s' := hcap
        have hb := ihb hbody hnb (hs'.var _ _) (fun g w hw => (hcap' g w hw).weaken hs' hx) v hv
        exact (FreeVar.typedIn_var hvx).mp hb
      · exact ihr hrest hnr hs' hcap v hv
  | apply i f arg ih =>
    cases h with
    | apply _ _ harg =>
      intro v hv
      simp only [occurrences, List.mem_append] at hv
      rcases hv with hv | hv
      · exact hcap f.id v hv
      · exact ih harg hshadow hs hcap v hv
  | call i f args ih =>
    cases h with
    | call _ _ hargs =>
      intro v hv
      obtain ⟨a, ha, hv⟩ := mem_occurrencesOf.mp hv
      obtain ⟨u, hu⟩ := hargs.exists_of_mem ha
      exact ih a ha hu (noShadowOf_iff.mp hshadow a ha) hs hcap v hv
  | seq i a b iha ihb =>
    cases h with
    | seq _ ha hb =>
      intro v hv
      rcases List.mem_append.mp hv with hv | hv
      · exact iha ha hshadow.1 hs hcap v hv
      · exact ihb hb hshadow.2 hs hcap v hv
  | binary i op a b iha ihb =>
    cases h with
    | binary _ ha hb _ =>
      intro v hv
      rcases List.mem_append.mp hv with hv | hv
      · exact iha ha hshadow.1 hs hcap v hv
      · exact ihb hb hshadow.2 hs hcap v hv
  | var i x =>
    cases h with
    | var hi hx =>
      intro v hv
      simp only [occurrences, List.mem_singleton] at hv
      subst hv
      exact ⟨_, hi, hx⟩
  | num | bool => intro v hv; cases hv

end Expr

end LetStack
