import Mathlib
import LetStack.Proofs.FreeVars

namespace LetStack

structure Sighting where
  var : FreeVar
  around : List String
deriving DecidableEq, Repr

namespace Expr

mutual

/-- The places where a tree needs a variable: where it stands, and where a function is called that
`captures` it, in front of the argument. The value of a `let` is outside of its binding; a
function's name is bound in its body and behind it, a parameter in the body only. -/
def sightings (captures : String → List FreeVar) (around : List String) : Expr → List Sighting
  | letIn _ x value body =>
    value.sightings captures around ++ body.sightings captures (x.id :: around)
  | letFun _ f x _ _ body rest =>
    body.sightings captures (x.id :: f.id :: around) ++ rest.sightings captures (f.id :: around)
  | apply _ f arg =>
    (captures f.id).map (fun v => ⟨v, around⟩) ++ arg.sightings captures around
  | call _ _ args => sightingsOf captures around args
  | seq _ a b | binary _ _ a b => a.sightings captures around ++ b.sightings captures around
  | var i x => [⟨⟨x.id, x.display, i.ty⟩, around⟩]
  | num .. | bool .. => []

def sightingsOf (captures : String → List FreeVar) (around : List String) : List Expr → List Sighting
  | [] => []
  | e :: es => e.sightings captures around ++ sightingsOf captures around es

end

def unboundVars (captures : String → List FreeVar) (bound : List String) (e : Expr) : List FreeVar :=
  ((e.sightings captures []).filter fun o =>
    o.var.name ∉ bound ∧ o.var.name ∉ o.around).map Sighting.var

end Expr

namespace FreeVars

/-- The set has for each name in the list the first entry of that name, in the order of the list. -/
structure FirstOf (l : List FreeVar) (s : FreeVars) : Prop where
  nodup : s.names.Nodup
  mem_iff : ∀ v, v ∈ s ↔ l.find? (·.name == v.name) = some v
  ordered : s.Pairwise fun v w => l.findIdx (·.name == v.name) < l.findIdx (·.name == w.name)

namespace FirstOf

variable {l : List FreeVar} {s : FreeVars} {v w : FreeVar}

theorem findIdx_lt (h : FirstOf l s) (hv : v ∈ s) : l.findIdx (·.name == v.name) < l.length := by
  have hmem := List.mem_of_find?_eq_some ((h.mem_iff v).mp hv)
  exact List.findIdx_lt_length.mpr ⟨v, hmem, beq_self_eq_true _⟩

theorem findIdx_append (h : FirstOf l s) (hv : v ∈ s) (w : FreeVar) :
    (l ++ [w]).findIdx (·.name == v.name) = l.findIdx (·.name == v.name) := by
  rw [List.findIdx_append, if_pos (h.findIdx_lt hv)]

/-- A further entry of a name that the set has changes nothing. -/
theorem skip (h : FirstOf l s) (hw : ∃ v ∈ l, v.name = w.name) : FirstOf (l ++ [w]) s := by
  refine ⟨h.nodup, fun v => ?_, ?_⟩
  · rw [h.mem_iff, List.find?_append]
    cases hfind : l.find? (·.name == v.name) with
    | some u => simp
    | none =>
      -- the name of `w` is in the list, so `v` has another one
      have hne : w.name ≠ v.name := by
        intro heq
        obtain ⟨u, hu, hname⟩ := hw
        exact List.find?_eq_none.mp hfind u hu (by simp [hname, heq])
      simp [hne]
  · refine h.ordered.imp_of_mem fun {u v} hu hv hlt => ?_
    rwa [h.findIdx_append hu, h.findIdx_append hv]

/-- An entry of a new name comes last. -/
theorem snoc (h : FirstOf l s) (hnodup : (FreeVars.names (s ++ [w])).Nodup)
    (hw : ∀ v ∈ l, v.name ≠ w.name) : FirstOf (l ++ [w]) (s ++ [w]) := by
  have hnone : l.find? (·.name == w.name) = none := List.find?_eq_none.mpr (by simpa using hw)
  refine ⟨hnodup, fun v => ?_, ?_⟩
  · rw [List.mem_append, h.mem_iff, List.mem_singleton, List.find?_append]
    constructor
    · rintro (hv | rfl)
      · simp [hv]
      · simp [hnone]
    · intro hv
      cases hfind : l.find? (·.name == v.name) with
      | some u => exact .inl (by simpa [hfind] using hv)
      | none =>
        have hlast : [w].find? (·.name == v.name) = some v := by simpa [hfind] using hv
        exact .inr (List.mem_singleton.mp (List.mem_of_find?_eq_some hlast))
  · rw [List.pairwise_append]
    refine ⟨?_, List.pairwise_singleton _ _, fun v hv u hu => ?_⟩
    · refine h.ordered.imp_of_mem fun {u v} hu hv hlt => ?_
      rwa [h.findIdx_append hu, h.findIdx_append hv]
    · obtain rfl := List.mem_singleton.mp hu
      have hlast : l.findIdx (·.name == u.name) = l.length := by
        rw [List.findIdx_eq_length]
        simpa using hw
      rw [h.findIdx_append hv, List.findIdx_append, hlast, if_neg (Nat.lt_irrefl _)]
      exact Nat.lt_of_lt_of_le (h.findIdx_lt hv) (Nat.le_add_left _ _)

end FirstOf

/-- Adding entries one after the other keeps the first one of each name. -/
theorem foldl_add_firstOf (l : List FreeVar) : FirstOf l (l.foldl add []) := by
  induction l using List.reverseRecOn with
  | nil => exact ⟨List.nodup_nil, by simp, .nil⟩
  | append_singleton l w ih =>
    have hnodup := nodup_names_foldl_add (l := l ++ [w]) (s := []) List.nodup_nil
    have hhas : (∃ v ∈ l.foldl add [], v.name = w.name) ↔ ∃ v ∈ l, v.name = w.name := by
      simp [exists_mem_foldl_add]
    rw [List.foldl_append, List.foldl_cons, List.foldl_nil] at hnodup ⊢
    unfold add at hnodup ⊢
    split at hnodup
    next h =>
      rw [if_pos h]
      exact ih.skip (hhas.mp (has_iff.mp h))
    next h =>
      rw [if_neg h]
      exact ih.snoc hnodup fun v hv heq => h (has_iff.mpr (hhas.mpr ⟨v, hv, heq⟩))

end FreeVars

namespace Expr

variable {captures : String → List FreeVar}

theorem sightingsOf_unbound {es : List Expr} {around : List String}
    (h : ∀ e ∈ es, ((e.sightings captures around).filter fun o => o.var.name ∉ o.around).map
      Sighting.var = (e.occurrences captures).filter fun v => v.name ∉ around) :
    ((sightingsOf captures around es).filter fun o => o.var.name ∉ o.around).map Sighting.var =
      (occurrencesOf captures es).filter fun v => v.name ∉ around := by
  induction es with
  | nil => rfl
  | cons e es ih =>
    simp only [sightingsOf, occurrencesOf, List.filter_append, List.map_append, h e (by simp),
      ih fun a ha => h a (by simp [ha])]

/-- The places whose variable is not bound around them are the free occurrences of the tree. -/
theorem sightings_unbound (e : Expr) (around : List String) :
    ((e.sightings captures around).filter fun o => o.var.name ∉ o.around).map Sighting.var =
      (e.occurrences captures).filter fun v => v.name ∉ around := by
  induction e generalizing around with
  | letIn i x value body ihv ihb =>
    simp only [sightings, occurrences, List.filter_append, List.map_append, ihv, ihb,
      FreeVars.filter_filter_unbound, List.cons_append, List.nil_append]
  | letFun i f x paramTy resultTy body rest ihb ihr =>
    simp only [sightings, occurrences, List.filter_append, List.map_append, ihb, ihr,
      FreeVars.filter_filter_unbound, List.cons_append, List.nil_append]
  | apply i f arg ih =>
    simp only [sightings, occurrences, List.filter_append, List.map_append, ih, List.filter_map,
      List.map_map]
    simp [Function.comp_def]
  | call i f args ih => exact sightingsOf_unbound fun a ha => ih a ha around
  | seq i a b iha ihb | binary i op a b iha ihb =>
    simp only [sightings, occurrences, List.filter_append, List.map_append, iha, ihb]
  | var i x => by_cases h : x.id ∈ around <;> simp [sightings, occurrences, h]
  | num | bool => rfl

theorem unboundVars_eq (e : Expr) (bound : List String) :
    e.unboundVars captures bound = (e.occurrences captures).filter fun v => v.name ∉ bound := by
  have hfree : ((e.sightings captures []).filter fun o => o.var.name ∉ o.around).map Sighting.var =
      e.occurrences captures := by
    simpa using sightings_unbound e []
  rw [← hfree, List.filter_map, List.filter_filter, unboundVars]
  simp

/-- The free variables of a tree are exactly the variables that it needs and that are not bound
where it needs them: one for each name, as it occurs first, in the order of first occurrence. -/
theorem freeVars_firstOf (captures : String → List FreeVar) (bound : List String) (e : Expr) :
    FreeVars.FirstOf (e.unboundVars captures bound) (e.freeVars captures bound) := by
  rw [freeVars, collectFree_eq, unboundVars_eq]
  exact FreeVars.foldl_add_firstOf _

end Expr

end LetStack
