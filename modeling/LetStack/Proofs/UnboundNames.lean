import Mathlib
import LetStack.Proofs.Scoping

namespace LetStack

namespace Renaming

/-- How renaming names a binder: as it is written, or by a numbered spelling that is not reserved.
-/
def Binder.Given (reserved : List String) (b : Binder) : Prop :=
  b.id = b.display ∨ b.id ∉ reserved ∧ ∃ k, b.id = Text.numbered b.display (k + 1)

theorem bind_given (kind : BinderKind) (x : Name) (r : Renaming) :
    ((bind x r).1.binder kind).Given r.reserved := by
  simp only [Binder.Given, Name.binder, bind, fresh]
  split
  next => exact .inl rfl
  next k _ =>
    have hle := Text.le_nextFree r.reserved x.display (k + 1)
    obtain ⟨j, hj⟩ : ∃ j, Text.nextFree r.reserved x.display (k + 1) = j + 1 :=
      ⟨Text.nextFree r.reserved x.display (k + 1) - 1, by omega⟩
    exact .inr ⟨Text.numbered_nextFree_notMem _ _ _, j, congrArg (Text.numbered x.display) hj⟩

/-- Every binder around a use in a renamed tree was named by the renaming. -/
theorem walk_given {reserved : List String} {around : List Binder} {scope : Scope} {r : Renaming}
    (e : Expr) (hr : r.reserved = reserved) (h : ∀ b ∈ around, b.Given reserved) :
    ∀ u ∈ (walk scope e r).1.uses around, ∀ b ∈ u.around, b.Given reserved := by
  induction e generalizing scope around r with
  | letIn i x value body ihv ihb =>
    simp only [walk, Expr.uses, List.forall_mem_append]
    -- The reserved names were fixed before the walk, which never changes them.
    let r₁ := (walk scope value r).2
    have hr₁ : r₁.reserved = reserved := (walk_reserved value scope r).trans hr
    have hx := hr₁ ▸ bind_given .value x r₁
    exact ⟨ihv hr h, ihb ((bind_reserved x r₁).trans hr₁) (List.forall_mem_cons.mpr ⟨hx, h⟩)⟩
  | letFun i f x paramTy resultTy body rest ihb ihr =>
    simp only [walk, Expr.uses, List.forall_mem_append]
    let r₁ := (bind f r).2
    have hr₁ : r₁.reserved = reserved := (bind_reserved f r).trans hr
    have hr₂ : (bind x r₁).2.reserved = reserved := (bind_reserved x r₁).trans hr₁
    have hf := List.forall_mem_cons.mpr ⟨hr ▸ bind_given .function f r, h⟩
    have hx := List.forall_mem_cons.mpr ⟨hr₁ ▸ bind_given .value x r₁, hf⟩
    exact ⟨ihb hr₂ hx, ihr ((walk_reserved body _ _).trans hr₂) hf⟩
  | apply i f arg ih =>
    simp only [walk, Expr.uses, List.forall_mem_cons]
    exact ⟨h, ih hr h⟩
  | call i f args ih =>
    intro u hu
    obtain ⟨a', ha', hu⟩ := Expr.mem_usesOf.mp hu
    obtain ⟨a, ha, r', hr', rfl⟩ := mem_walkAll ha'
    exact ih a ha (hr'.trans hr) h u hu
  | seq i a b iha ihb | binary i op a b iha ihb =>
    simp only [walk, Expr.uses, List.forall_mem_append]
    exact ⟨iha hr h, ihb ((walk_reserved a scope r).trans hr) h⟩
  | var i x =>
    simp only [walk, Expr.uses, List.forall_mem_singleton]
    exact h
  | num | bool => simp [walk, Expr.uses]

namespace Use

def Caught (u : Use) : Prop := ∃ b ∈ u.around, b.id = u.name.id

instance (u : Use) : Decidable u.Caught := inferInstanceAs (Decidable (∃ b ∈ u.around, _))

/-- The use is written like a numbered spelling of a binder around, and no binder is. -/
def Exposed (binders : List String) (u : Use) : Prop :=
  u.name.display ∉ binders ∧ ∃ b ∈ u.around, ∃ k, u.name.display = Text.numbered b.display (k + 1)

@[simp] theorem asWritten_exposed (binders : List String) (u : Use) :
    u.asWritten.Exposed binders ↔ u.Exposed binders := by
  simp only [Exposed, asWritten, List.mem_map, Name.display_writtenIn]
  refine and_congr_right fun _ => ?_
  constructor
  · rintro ⟨_, ⟨b, hb, rfl⟩, hnumbered⟩
    exact ⟨b, hb, hnumbered⟩
  · rintro ⟨b, hb, hnumbered⟩
    exact ⟨b.asWritten, ⟨b, hb, rfl⟩, hnumbered⟩

end Use

end Renaming

open Renaming

namespace Expr

variable {e : Expr} {u : Use}

theorem Plain.uses_plain (h : e.Plain) (around : List Binder) :
    ∀ u ∈ e.uses around, u.name.id = u.name.display := by
  induction e generalizing around with
  | letIn i x value body ihv ihb =>
    simp only [uses, List.forall_mem_append]
    exact ⟨ihv h.2.1 _, ihb h.2.2 _⟩
  | letFun i f x paramTy resultTy body rest ihb ihr =>
    simp only [uses, List.forall_mem_append]
    exact ⟨ihb h.2.2.1 _, ihr h.2.2.2 _⟩
  | apply i f arg ih =>
    simp only [uses, List.forall_mem_cons]
    exact ⟨h.1, ih h.2 _⟩
  | call => exact h.elim
  | seq i a b iha ihb | binary i op a b iha ihb =>
    simp only [uses, List.forall_mem_append]
    exact ⟨iha h.1 _, ihb h.2 _⟩
  | var i x =>
    simp only [uses, List.forall_mem_singleton]
    exact h
  | num | bool => simp [uses]

/-- Renaming a plain tree leaves a use without a binder as it is written. -/
theorem Plain.id_of_unbound (h : e.Plain) (hu : u ∈ e.resolve.uses []) (hunbound : u.Unbound) :
    u.name.id = u.name.display := by
  have hname : u.asWritten.name = u.name := by
    refine if_neg fun hmem => ?_
    obtain ⟨b, hb, hdisplay⟩ := List.mem_map.mp hmem
    exact hunbound b hb hdisplay
  rw [← hname]
  exact h.uses_plain [] _ (h.asWritten_mem hu)

theorem Plain.exposed_of_caught (h : e.Plain) (hu : u ∈ e.resolve.uses []) (hunbound : u.Unbound)
    (hcaught : u.Caught) : u.Exposed e.binders := by
  obtain ⟨b, hb, hid⟩ := hcaught
  rw [h.id_of_unbound hu hunbound] at hid
  have hgiven : b.Given e.binders := walk_given e (by simp) (by simp) u hu b hb
  rcases hgiven with hsame | ⟨hfree, k, hk⟩
  · exact absurd (hsame.symm.trans hid) (hunbound b hb)
  · rw [hid] at hfree hk
    exact ⟨hfree, b, hb, k, hk⟩

/-- What is not caught by a name is not seen under it, so the check does not go through. -/
theorem typecheck_ne_ok_of_not_caught (hu : u ∈ e.uses []) (h : ¬u.Caught) (t : Ty) :
    e.typecheck.outcome ≠ .ok t := by
  intro hcheck
  obtain ⟨b, hb, -, hid⟩ := uses_seen_of_typecheck hcheck u hu
  exact h ⟨b, hb, hid⟩

end Expr

/-- A name without a binder of its spelling keeps its spelling in the renamed tree. If no binder
around is given that name too, the check of types fails; and a binder can be given it only if it is
one of the binder's numbered spellings, which no binder of the text has. -/
theorem unbound_use_reported_unless_exposed {source : String} {e : Expr} (h : parse source = .ok e) :
    (∀ u ∈ e.resolve.uses [], u.Unbound →
      u.name.id = u.name.display ∧ (u.Caught → u.Exposed e.binders) ∧
        (¬u.Caught → ∀ t, e.resolve.typecheck.outcome ≠ .ok t)) ∧
    ∀ u ∈ e.uses [], u.Unbound → ¬u.Exposed e.binders →
      ∀ t, e.resolve.typecheck.outcome ≠ .ok t := by
  have hplain := parse_plain h
  constructor
  · intro u hu hunbound
    exact ⟨hplain.id_of_unbound hu hunbound, hplain.exposed_of_caught hu hunbound,
      Expr.typecheck_ne_ok_of_not_caught hu⟩
  · intro u hu hunbound hexposed
    rw [hplain.uses_eq] at hu
    obtain ⟨v, hv, rfl⟩ := List.mem_map.mp hu
    simp only [Use.asWritten_unbound, Use.asWritten_exposed] at hunbound hexposed
    exact Expr.typecheck_ne_ok_of_not_caught hv fun hcaught =>
      hexposed (hplain.exposed_of_caught hv hunbound hcaught)

/-- The last name is out of sight of the binder that has its spelling, and that spelling is
therefore not given to the second `x`. -/
def outOfSight : String := "let x = 1 in let x = (let x_1 = 2 in x) in x_1"

theorem unbound_use_reported_unless_exposed_outOfSight : ∃ e u,
    parse outOfSight = .ok e ∧ u ∈ e.uses [] ∧ u.Unbound ∧ ¬u.Exposed e.binders ∧
      ∀ t, e.resolve.typecheck.outcome ≠ .ok t := by
  have hresults : (parse outOfSight).toOption.map (fun e =>
      (e.uses []).any fun u => decide (u.Unbound ∧ u.name.display ∈ e.binders)) = some true := by cbv
  obtain ⟨e, hparse, hany⟩ := exists_of_parse hresults
  obtain ⟨u, hu, huse⟩ := List.any_eq_true.mp hany
  obtain ⟨hunbound, hbinder⟩ := of_decide_eq_true huse
  have hexposed : ¬u.Exposed e.binders := fun h => h.1 hbinder
  exact ⟨e, u, hparse, hu, hunbound, hexposed,
    (unbound_use_reported_unless_exposed hparse).2 u hu hunbound hexposed⟩

def caughtByNumber : String := "let x = 1 in let x = 2 in x_1"

theorem unbound_use_checked_caughtByNumber : ∃ e u,
    parse caughtByNumber = .ok e ∧ u ∈ e.resolve.uses [] ∧ u.Unbound ∧ u.Caught ∧
      e.resolve.typecheck.outcome = .ok .num := by
  have hresults : (parse caughtByNumber).toOption.map (fun e =>
      ((e.resolve.uses []).any fun u => decide (u.Unbound ∧ u.Caught),
        e.resolve.typecheck.outcome)) = some (true, .ok .num) := by cbv
  obtain ⟨e, hparse, hpair⟩ := exists_of_parse hresults
  obtain ⟨hany, hcheck⟩ := Prod.mk.inj hpair
  obtain ⟨u, hu, huse⟩ := List.any_eq_true.mp hany
  obtain ⟨hunbound, hcaught⟩ := of_decide_eq_true huse
  exact ⟨e, u, hparse, hu, hunbound, hcaught, hcheck⟩

end LetStack
