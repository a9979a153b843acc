import Mathlib
import LetStack.Proofs.Typing

namespace LetStack

abbrev Context (α : Type) := String → Option α

namespace Context

def empty {α : Type} : Context α := fun _ => none

def bind {α : Type} (Γ : Context α) (x : String) (a : α) : Context α := Function.update Γ x (some a)

theorem bind_eq_lookup {α β : Type} {Γ : Context β} {l : List (String × α)} {g : α → β}
    (h : ∀ y, Γ y = (l.lookup y).map g) (x : String) (a : α) (y : String) :
    Γ.bind x (g a) y = (((x, a) :: l).lookup y).map g := by
  unfold bind
  by_cases hy : y = x
  · subst hy
    rw [Function.update_self, List.lookup_cons_self, Option.map_some]
  · rw [Function.update_of_ne hy, lookup_cons_of_ne hy, h]

end Context

/-- `TypeDerivation Γ Φ e t` derives that `e` has type `t`, where `Γ` gives the types of variables
and `Φ` those of the parameters and results of functions. There is no rule for calls of lifted
functions. -/
inductive TypeDerivation : Context Ty → Context (Ty × Ty) → Expr → Ty → Type
  | letIn {Γ : Context Ty} {Φ : Context (Ty × Ty)} {i : Info} {x : Name}
    {value body : Expr} {u t : Ty}
      (dvalue : TypeDerivation Γ Φ value u) (dbody : TypeDerivation (Γ.bind x.id u) Φ body t) :
      TypeDerivation Γ Φ (.letIn i x value body) t
  | letFun {Γ : Context Ty} {Φ : Context (Ty × Ty)} {i : Info} {f x : Name} {paramTy resultTy t : Ty}
      {body rest : Expr}
      (dbody : TypeDerivation (Γ.bind x.id paramTy) (Φ.bind f.id (paramTy, resultTy)) body resultTy)
      (drest : TypeDerivation Γ (Φ.bind f.id (paramTy, resultTy)) rest t) :
      TypeDerivation Γ Φ (.letFun i f x paramTy resultTy body rest) t
  | apply {Γ : Context Ty} {Φ : Context (Ty × Ty)} {i : Info} {f : Name} {arg : Expr}
      {paramTy resultTy : Ty} (hf : Φ f.id = some (paramTy, resultTy))
      (darg : TypeDerivation Γ Φ arg paramTy) : TypeDerivation Γ Φ (.apply i f arg) resultTy
  | seq {Γ : Context Ty} {Φ : Context (Ty × Ty)} {i : Info} {first second : Expr} {u t : Ty}
      (dfirst : TypeDerivation Γ Φ first u) (dsecond : TypeDerivation Γ Φ second t) :
      TypeDerivation Γ Φ (.seq i first second) t
  | arithmetic {Γ : Context Ty} {Φ : Context (Ty × Ty)} {i : Info} {op : BinOp} {left right : Expr}
      (hop : op = .add ∨ op = .sub) (dleft : TypeDerivation Γ Φ left .num)
      (dright : TypeDerivation Γ Φ right .num) : TypeDerivation Γ Φ (.binary i op left right) .num
  | less {Γ : Context Ty} {Φ : Context (Ty × Ty)} {i : Info} {left right : Expr}
      (dleft : TypeDerivation Γ Φ left .num) (dright : TypeDerivation Γ Φ right .num) :
      TypeDerivation Γ Φ (.binary i .lt left right) .bool
  | equal {Γ : Context Ty} {Φ : Context (Ty × Ty)} {i : Info} {left right : Expr} {u : Ty}
      (dleft : TypeDerivation Γ Φ left u) (dright : TypeDerivation Γ Φ right u) :
      TypeDerivation Γ Φ (.binary i .eq left right) .bool
  | var {Γ : Context Ty} {Φ : Context (Ty × Ty)} {i : Info} {x : Name} {t : Ty}
    (hx : Γ x.id = some t) :
      TypeDerivation Γ Φ (.var i x) t
  | num {Γ : Context Ty} {Φ : Context (Ty × Ty)} {i : Info} {n : Word} :
      TypeDerivation Γ Φ (.num i n) .num
  | bool {Γ : Context Ty} {Φ : Context (Ty × Ty)} {i : Info} {b : Bool} :
      TypeDerivation Γ Φ (.bool i b) .bool

namespace TypeDerivation

def marked {Γ : Context Ty} {Φ : Context (Ty × Ty)} {e : Expr} {t : Ty} :
    TypeDerivation Γ Φ e t → Expr
  | @letIn _ _ i x _ _ _ t dvalue dbody => .letIn (i.typed t) x dvalue.marked dbody.marked
  | @letFun _ _ i f x paramTy resultTy t _ _ dbody drest =>
    .letFun (i.typed t) f x paramTy resultTy dbody.marked drest.marked
  | @apply _ _ i f _ _ resultTy _ darg => .apply (i.typed resultTy) f darg.marked
  | @seq _ _ i _ _ _ t dfirst dsecond => .seq (i.typed t) dfirst.marked dsecond.marked
  | @arithmetic _ _ i op _ _ _ dleft dright => .binary (i.typed .num) op dleft.marked dright.marked
  | @less _ _ i _ _ dleft dright => .binary (i.typed .bool) .lt dleft.marked dright.marked
  | @equal _ _ i _ _ _ dleft dright => .binary (i.typed .bool) .eq dleft.marked dright.marked
  | @var _ _ i x t _ => .var (i.typed t) x
  | @num _ _ i n => .num (i.typed .num) n
  | @bool _ _ i b => .bool (i.typed .bool) b

end TypeDerivation

theorem BinOp.result?_eq_some_iff {op : BinOp} {u v t : Ty} :
    op.result? u v = some t ↔ (op = .add ∨ op = .sub) ∧ u = .num ∧ v = .num ∧ t = .num ∨
      op = .lt ∧ u = .num ∧ v = .num ∧ t = .bool ∨ op = .eq ∧ u = v ∧ t = .bool := by
  cases op <;> cases u <;> cases v <;> cases t <;> simp [result?]

structure Scopes.Reads (s : Scopes) (Γ : Context Ty) (Φ : Context (Ty × Ty)) : Prop where
  vars : ∀ x, Γ x = s.vars.lookup x
  funs : ∀ f, Φ f = (s.funs.lookup f).map fun a => (a.param, a.result)
  lifted : s.lifted = []

namespace Scopes.Reads

variable {s : Scopes} {Γ : Context Ty} {Φ : Context (Ty × Ty)}

theorem var (h : s.Reads Γ Φ) (x : String) (t : Ty) : (s.var x t).Reads (Γ.bind x t) Φ := by
  refine ⟨fun y => ?_, h.funs, h.lifted⟩
  simpa using Context.bind_eq_lookup (g := id) (by simpa using h.vars) x t y

theorem arrow (h : s.Reads Γ Φ) (f : String) (a : Arrow) :
    (s.arrow f a).Reads Γ (Φ.bind f (a.param, a.result)) :=
  ⟨h.vars, Context.bind_eq_lookup h.funs f a, h.lifted⟩

end Scopes.Reads

/-- The check of a tree with a derivation succeeds and marks the tree as the derivation does. -/
theorem TypeDerivation.check_eq {s : Scopes} {Γ : Context Ty} {Φ : Context (Ty × Ty)} {e : Expr}
    {t : Ty} (d : TypeDerivation Γ Φ e t) (hs : s.Reads Γ Φ) : e.check s = (d.marked, .ok t) := by
  induction d generalizing s with
  | letIn _ _ ihv ihb => exact Expr.check_letIn.mpr ⟨_, _, _, ihv hs, ihb (hs.var _ _), rfl⟩
  | letFun _ _ ihb ihr =>
    exact Expr.check_letFun.mpr ⟨_, _, ihb ((hs.arrow _ _).var _ _), ihr (hs.arrow _ _), rfl⟩
  | apply hf _ ih =>
    rw [hs.funs, Option.map_eq_some_iff] at hf
    obtain ⟨a, hlookup, ha⟩ := hf
    obtain ⟨rfl, rfl⟩ := Prod.mk.inj ha
    exact Expr.check_apply.mpr ⟨a, _, hlookup, ih hs, rfl, rfl⟩
  | seq _ _ ihf ihs => exact Expr.check_seq.mpr ⟨_, _, _, ihf hs, ihs hs, rfl⟩
  | arithmetic hop _ _ ihl ihr =>
    have hresult := BinOp.result?_eq_some_iff.mpr (.inl ⟨hop, rfl, rfl, rfl⟩)
    exact Expr.check_binary.mpr ⟨_, _, _, _, ihl hs, ihr hs, hresult, rfl⟩
  | less _ _ ihl ihr => exact Expr.check_binary.mpr ⟨_, _, _, _, ihl hs, ihr hs, rfl, rfl⟩
  | @equal _ _ _ _ _ u _ _ ihl ihr =>
    have hresult : BinOp.eq.result? u u = some .bool :=
      BinOp.result?_eq_some_iff.mpr (.inr (.inr ⟨rfl, rfl, rfl⟩))
    exact Expr.check_binary.mpr ⟨_, _, _, _, ihl hs, ihr hs, hresult, rfl⟩
  | var hx =>
    rw [hs.vars] at hx
    exact Expr.check_var.mpr ⟨hx, rfl⟩
  | num => exact Expr.check_num.mpr ⟨rfl, rfl⟩
  | bool => exact Expr.check_bool.mpr ⟨rfl, rfl⟩

namespace Expr

/-- What a successful check leaves is marked as some derivation says. -/
theorem exists_derivation {s : Scopes} {Γ : Context Ty} {Φ : Context (Ty × Ty)} {e e' : Expr}
    {t : Ty} (h : e.check s = (e', .ok t)) (hs : s.Reads Γ Φ) :
    ∃ d : TypeDerivation Γ Φ e t, d.marked = e' := by
  induction e generalizing s Γ Φ e' t with
  | letIn i x value body ihv ihb =>
    obtain ⟨value', u, body', hv, hb, rfl⟩ := check_letIn.mp h
    obtain ⟨dvalue, rfl⟩ := ihv hv hs
    obtain ⟨dbody, rfl⟩ := ihb hb (hs.var x.id u)
    exact ⟨.letIn dvalue dbody, rfl⟩
  | letFun i f x paramTy resultTy body rest ihb ihr =>
    obtain ⟨body', rest', hb, hr, rfl⟩ := check_letFun.mp h
    have hf := hs.arrow f.id ⟨f.display, paramTy, resultTy⟩
    obtain ⟨dbody, rfl⟩ := ihb hb (hf.var x.id paramTy)
    obtain ⟨drest, rfl⟩ := ihr hr hf
    exact ⟨.letFun dbody drest, rfl⟩
  | apply i f arg ih =>
    obtain ⟨a, arg', hf, ha, rfl, rfl⟩ := check_apply.mp h
    obtain ⟨darg, rfl⟩ := ih ha hs
    exact ⟨.apply (by rw [hs.funs, hf, Option.map_some]) darg, rfl⟩
  | call i f args ih =>
    obtain ⟨sig, args', hf, -⟩ := check_call.mp h
    rw [hs.lifted] at hf
    cases hf
  | seq i first second ihf ihs =>
    obtain ⟨first', u, second', hf, hsecond, rfl⟩ := check_seq.mp h
    obtain ⟨dfirst, rfl⟩ := ihf hf hs
    obtain ⟨dsecond, rfl⟩ := ihs hsecond hs
    exact ⟨.seq dfirst dsecond, rfl⟩
  | binary i op left right ihl ihr =>
    obtain ⟨left', u, right', v, hl, hr, hresult, rfl⟩ := check_binary.mp h
    obtain ⟨dleft, rfl⟩ := ihl hl hs
    obtain ⟨dright, rfl⟩ := ihr hr hs
    -- One rule for each row of the operator table.
    rcases BinOp.result?_eq_some_iff.mp hresult with ⟨hop, rfl, rfl, rfl⟩ | ⟨rfl, rfl, rfl, rfl⟩ |
      ⟨rfl, rfl, rfl⟩
    · exact ⟨.arithmetic hop dleft dright, rfl⟩
    · exact ⟨.less dleft dright, rfl⟩
    · exact ⟨.equal dleft dright, rfl⟩
  | var i x =>
    obtain ⟨hx, rfl⟩ := check_var.mp h
    exact ⟨.var (by rw [hs.vars, hx]), rfl⟩
  | num i n =>
    obtain ⟨rfl, rfl⟩ := check_num.mp h
    exact ⟨.num, rfl⟩
  | bool i b =>
    obtain ⟨rfl, rfl⟩ := check_bool.mp h
    exact ⟨.bool, rfl⟩

theorem reads_empty : Scopes.Reads {} .empty .empty := ⟨fun _ => rfl, fun _ => rfl, rfl⟩

/-- The check decides the type system. Whatever names a tree has and whatever marks it carries, a
fresh check finds the type `t` exactly if the rules derive `t`; and it then leaves the tree with
every node marked by the type that the derivation gives to it, and with everything else as it was.
-/
theorem typecheck_ok_iff_derivable (e : Expr) (t : Ty) :
    (e.typecheck.outcome = .ok t ↔ Nonempty (TypeDerivation .empty .empty e t)) ∧
      ∀ d : TypeDerivation .empty .empty e t,
        e.typecheck.item = d.marked ∧ e.typecheck.item.unmark = e.unmark := by
  refine ⟨⟨fun h => ?_, fun ⟨d⟩ => (typecheck_of_check (d.check_eq reads_empty)).1⟩, fun d => ?_⟩
  · obtain ⟨d, -⟩ := exists_derivation (check_of_typecheck h) reads_empty
    exact ⟨d⟩
  · obtain ⟨houtcome, hitem⟩ := typecheck_of_check (d.check_eq reads_empty)
    exact ⟨hitem, (typecheck_typed houtcome).2⟩

end Expr

end LetStack
