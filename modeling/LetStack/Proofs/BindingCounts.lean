import Mathlib
import LetStack.Expr.Analyzer
import LetStack.Proofs.FreeOccurrences

namespace LetStack

namespace Analyzer

/-- Each name in the list is counted as often as it stands there, and no other name is counted. -/
def Counts (a : Analyzer) (bound : List String) : Prop :=
  ∀ x, a.counts.lookup x = if x ∈ bound then some (bound.count x) else none

namespace Counts

variable {a : Analyzer} {bound : List String}

theorem nil : Counts {} [] := fun _ => rfl

theorem reverse (h : a.Counts bound) : a.Counts bound.reverse := by
  intro x
  simpa using h x

theorem binds_iff (h : a.Counts bound) (x : String) : a.binds x = true ↔ x ∈ bound := by
  rw [binds, h x]
  split <;> simp_all

theorem bind (h : a.Counts bound) (x : String) : (a.bind x).Counts (x :: bound) := by
  intro y
  rw [Analyzer.bind, Table.lookup_put, h x]
  by_cases hy : y = x
  · subst hy
    by_cases hmem : y ∈ bound
    · simp [hmem]
    · simp [hmem, List.count_eq_zero_of_not_mem hmem]
  · rw [if_neg hy, h y]
    simp only [List.mem_cons, hy, false_or, List.count_cons_of_ne (Ne.symm hy)]

theorem unbind {x : String} (h : a.Counts (x :: bound)) : (a.unbind x).Counts bound := by
  have hx : a.counts.lookup x = some (bound.count x + 1) := by simpa using h x
  intro y
  -- other names keep their counts, whether or not this one's goes away
  have hother (hy : y ≠ x) :
      a.counts.lookup y = if y ∈ bound then some (bound.count y) else none := by
    simpa [hy, List.count_cons_of_ne (Ne.symm hy)] using h y
  simp only [Analyzer.unbind, hx, Nat.add_sub_cancel]
  split
  next hzero =>
    have hmem : x ∉ bound := List.count_eq_zero.mp hzero
    rw [Table.lookup_remove]
    by_cases hy : y = x
    · simp [hy, hmem]
    · rw [if_neg hy, hother hy]
  next hpos =>
    have hmem : x ∈ bound := List.count_pos_iff.mp (Nat.pos_of_ne_zero hpos)
    rw [Table.lookup_put]
    by_cases hy : y = x
    · simp [hy, hmem]
    · rw [if_neg hy, hother hy]

theorem foldl_bind (h : a.Counts bound) (names : List String) :
    (names.foldl Analyzer.bind a).Counts (names.reverse ++ bound) := by
  induction names generalizing a bound with
  | nil => exact h
  | cons x names ih => simpa using ih (h.bind x)

theorem withBound (names : List String) : (withBound names).Counts names := by
  simpa [Analyzer.withBound] using (nil.foldl_bind names).reverse

end Counts

@[simp] theorem unbind_free (a : Analyzer) (x : String) : (a.unbind x).free = a.free := by
  unfold unbind
  split <;> rfl

theorem foldl_bind_free (names : List String) (a : Analyzer) :
    (names.foldl bind a).free = a.free := by
  induction names generalizing a with
  | nil => rfl
  | cons x names ih => exact ih (a.bind x)

structure Leaves (a : Analyzer) (bound : List String) (free : FreeVars) : Prop where
  counts : a.Counts bound
  free : a.free = free

variable {captures : String → List FreeVar}

theorem see_leaves {a : Analyzer} {bound : List String} (h : a.Counts bound) (v : FreeVar) :
    (a.see v).Leaves bound (a.free.addUnbound bound v) := by
  unfold see FreeVars.addUnbound
  by_cases hv : v.name ∈ bound
  · rw [if_pos ((h.binds_iff _).mpr hv), if_pos hv]
    exact ⟨h, rfl⟩
  · rw [if_neg (mt (h.binds_iff _).mp hv), if_neg hv]
    exact ⟨h, rfl⟩

theorem foldl_see_leaves {a : Analyzer} {bound : List String} (h : a.Counts bound)
    (vs : List FreeVar) :
    (vs.foldl see a).Leaves bound (vs.foldl (FreeVars.addUnbound bound) a.free) := by
  induction vs generalizing a with
  | nil => exact ⟨h, rfl⟩
  | cons v vs ih =>
    obtain ⟨hcounts, hfree⟩ := see_leaves h v
    rw [List.foldl_cons, List.foldl_cons, ← hfree]
    exact ih hcounts

theorem visitAll_leaves {es : List Expr} {a : Analyzer} {bound : List String} (h : a.Counts bound)
    (hvisit : ∀ e ∈ es, ∀ a : Analyzer, a.Counts bound →
      (visit captures e a).Leaves bound (e.collectFree captures bound a.free)) :
    (visitAll captures es a).Leaves bound (Expr.collectFreeOf captures bound a.free es) := by
  induction es generalizing a with
  | nil => exact ⟨h, rfl⟩
  | cons e es ih =>
    obtain ⟨hcounts, hfree⟩ := hvisit e (by simp) a h
    rw [visitAll, Expr.collectFreeOf, ← hfree]
    exact ih hcounts fun e he => hvisit e (by simp [he])

/-- A visit takes back every binder that it has entered, and between the two the counts say what the
binders around say. -/
theorem visit_leaves (e : Expr) {a : Analyzer} {bound : List String} (h : a.Counts bound) :
    (visit captures e a).Leaves bound (e.collectFree captures bound a.free) := by
  induction e generalizing a bound with
  | letIn i x value body ihv ihb =>
    obtain ⟨hvalue, hfree⟩ := ihv h
    obtain ⟨hbody, hfree'⟩ := ihb (hvalue.bind x.id)
    rw [visit, Expr.collectFree, ← hfree]
    exact ⟨hbody.unbind, (unbind_free _ _).trans hfree'⟩
  | letFun i f x paramTy resultTy body rest ihb ihr =>
    -- Behind the body only the count of `x` is lowered: `rest` is still in the scope of `f`.
    obtain ⟨hbody, hfree⟩ := ihb ((h.bind f.id).bind x.id)
    obtain ⟨hrest, hfree'⟩ := ihr hbody.unbind
    rw [unbind_free] at hfree'
    rw [visit, Expr.collectFree]
    refine ⟨hrest.unbind, (unbind_free _ _).trans (hfree'.trans ?_)⟩
    rw [hfree]
    rfl
  | apply i f arg ih =>
    obtain ⟨hcounts, hfree⟩ := foldl_see_leaves h (captures f.id)
    rw [visit, Expr.collectFree, ← hfree]
    exact ih hcounts
  | call i f args ih => exact visitAll_leaves h fun e he a ha => ih e he ha
  | seq i first second ihf ihs | binary i op first second ihf ihs =>
    obtain ⟨hfirst, hfree⟩ := ihf h
    rw [visit, Expr.collectFree, ← hfree]
    exact ihs hfirst
  | var i x => exact see_leaves h _
  | num | bool => exact ⟨h, rfl⟩

theorem analyze_eq_freeVars (captures : String → List FreeVar) (bound : List String) (e : Expr) :
    analyze captures bound e = e.freeVars captures bound := by
  refine (visit_leaves e (.withBound bound)).free.trans ?_
  have hfree : (withBound bound).free = [] := foldl_bind_free bound {}
  rw [hfree, Expr.freeVars]

/-- The analysis finds exactly the variables that the tree needs and that nothing binds where it
needs them: one for each name, as it occurs first, in the order of first occurrence. Afterwards
every name is bound as often as before. -/
theorem analyze_finds_first (captures : String → List FreeVar) (bound : List String) (e : Expr) :
    FreeVars.FirstOf (e.unboundVars captures bound) (analyze captures bound e) ∧
      analyze captures bound e = e.freeVars captures bound ∧
      ∀ x, (visit captures e (withBound bound)).counts.lookup x =
        (withBound bound).counts.lookup x := by
  refine ⟨?_, analyze_eq_freeVars captures bound e, fun x => ?_⟩
  · rw [analyze_eq_freeVars]
    exact Expr.freeVars_firstOf captures bound e
  · exact ((visit_leaves e (.withBound bound)).counts x).trans (Counts.withBound bound x).symm

end Analyzer

end LetStack
