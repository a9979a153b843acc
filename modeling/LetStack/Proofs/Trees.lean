import LetStack.Expr.Renaming

namespace LetStack.Expr

/-- Induction over trees. A lifted call may assume the motive of each of its arguments. -/
@[elab_as_elim, induction_eliminator]
theorem induction {motive : Expr → Prop}
    (letIn : ∀ i x value body, motive value → motive body → motive (.letIn i x value body))
    (letFun : ∀ i f x paramTy resultTy body rest, motive body → motive rest →
      motive (.letFun i f x paramTy resultTy body rest))
    (apply : ∀ i f arg, motive arg → motive (.apply i f arg))
    (call : ∀ i f args, (∀ a ∈ args, motive a) → motive (.call i f args))
    (seq : ∀ i first second, motive first → motive second → motive (.seq i first second))
    (binary : ∀ i op left right, motive left → motive right → motive (.binary i op left right))
    (var : ∀ i x, motive (.var i x))
    (num : ∀ i n, motive (.num i n))
    (bool : ∀ i b, motive (.bool i b)) (e : Expr) : motive e :=
  Expr.rec letIn letFun apply call seq binary var num bool
    (fun _ h => absurd h List.not_mem_nil)
    (fun _ _ hd tl a h => (List.mem_cons.mp h).elim (fun h => h ▸ hd) (tl a)) e

mutual

def unmark : Expr → Expr
  | letIn i x value body => letIn (.untyped i.span) x value.unmark body.unmark
  | letFun i f x paramTy resultTy body rest =>
    letFun (.untyped i.span) f x paramTy resultTy body.unmark rest.unmark
  | apply i f arg => apply (.untyped i.span) f arg.unmark
  | call i f args => call (.untyped i.span) f (unmarkAll args)
  | seq i first second => seq (.untyped i.span) first.unmark second.unmark
  | binary i op left right => binary (.untyped i.span) op left.unmark right.unmark
  | var i x => var (.untyped i.span) x
  | num i n => num (.untyped i.span) n
  | bool i b => bool (.untyped i.span) b

def unmarkAll : List Expr → List Expr
  | [] => []
  | e :: es => e.unmark :: unmarkAll es

end

mutual

/-- The tree with other information at its nodes, and with each operation joined anew from its
operands. -/
def rebuild (mark : Info → Info) (join : Info → BinOp → Expr → Expr → Expr) : Expr → Expr
  | letIn i x value body => letIn (mark i) x (value.rebuild mark join) (body.rebuild mark join)
  | letFun i f x paramTy resultTy body rest =>
    letFun (mark i) f x paramTy resultTy (body.rebuild mark join) (rest.rebuild mark join)
  | apply i f arg => apply (mark i) f (arg.rebuild mark join)
  | call i f args => call (mark i) f (rebuildAll mark join args)
  | seq i first second => seq (mark i) (first.rebuild mark join) (second.rebuild mark join)
  | binary i op left right => join (mark i) op (left.rebuild mark join) (right.rebuild mark join)
  | var i x => var (mark i) x
  | num i n => num (mark i) n
  | bool i b => bool (mark i) b

def rebuildAll (mark : Info → Info) (join : Info → BinOp → Expr → Expr → Expr) :
    List Expr → List Expr
  | [] => []
  | e :: es => e.rebuild mark join :: rebuildAll mark join es

end

def unplace : Expr → Expr := rebuild (fun i => { i with span := .point 0 0 }) binary

mutual

def binderIds : Expr → List String
  | letIn _ x value body => x.id :: (value.binderIds ++ body.binderIds)
  | letFun _ f x _ _ body rest => f.id :: x.id :: (body.binderIds ++ rest.binderIds)
  | apply _ _ arg => arg.binderIds
  | call _ _ args => binderIdsOf args
  | seq _ a b | binary _ _ a b => a.binderIds ++ b.binderIds
  | var .. | num .. | bool .. => []

def binderIdsOf : List Expr → List String
  | [] => []
  | e :: es => e.binderIds ++ binderIdsOf es

end

mutual

/-- No binder has the name of a binder in sight, where `scope` names those outside the tree. -/
def NoShadow (scope : List String) : Expr → Prop
  | letIn _ x value body =>
    value.NoShadow scope ∧ x.id ∉ scope ∧ body.NoShadow (x.id :: scope)
  | letFun _ f x _ _ body rest =>
    f.id ∉ scope ∧ x.id ∉ f.id :: scope ∧ body.NoShadow (x.id :: f.id :: scope) ∧
      rest.NoShadow (f.id :: scope)
  | apply _ _ arg => arg.NoShadow scope
  | call _ _ args => NoShadowOf scope args
  | seq _ a b | binary _ _ a b => a.NoShadow scope ∧ b.NoShadow scope
  | var .. | num .. | bool .. => True

def NoShadowOf (scope : List String) : List Expr → Prop
  | [] => True
  | e :: es => e.NoShadow scope ∧ NoShadowOf scope es

end

mutual

/-- A tree of a lifted program: no function is bound or called by its own name. -/
def Flat : Expr → Prop
  | letIn _ _ a b => a.Flat ∧ b.Flat
  | letFun .. | apply .. => False
  | call _ _ args => FlatAll args
  | seq _ a b | binary _ _ a b => a.Flat ∧ b.Flat
  | var .. | num .. | bool .. => True

def FlatAll : List Expr → Prop
  | [] => True
  | e :: es => e.Flat ∧ FlatAll es

end

theorem flatAll_iff {es : List Expr} : FlatAll es ↔ ∀ e ∈ es, e.Flat := by
  induction es with
  | nil => simp [FlatAll]
  | cons e es ih => simp [FlatAll, ih]

theorem noShadowOf_iff {scope : List String} {es : List Expr} :
    NoShadowOf scope es ↔ ∀ e ∈ es, e.NoShadow scope := by
  induction es with
  | nil => simp [NoShadowOf]
  | cons e es ih => simp [NoShadowOf, ih]

theorem noShadowOf_unmarkAll {scope : List String} {es : List Expr}
    (h : ∀ e ∈ es, e.unmark.NoShadow scope ↔ e.NoShadow scope) :
    NoShadowOf scope (unmarkAll es) ↔ NoShadowOf scope es := by
  induction es with
  | nil => rfl
  | cons e es ih =>
    simp only [unmarkAll, NoShadowOf, h e (by simp), ih fun a ha => h a (by simp [ha])]

theorem noShadow_unmark {scope : List String} {e : Expr} :
    e.unmark.NoShadow scope ↔ e.NoShadow scope := by
  induction e generalizing scope with
  | letIn i x a b iha ihb => simp only [unmark, NoShadow, iha, ihb]
  | letFun i f x _ _ a b iha ihb => simp only [unmark, NoShadow, iha, ihb]
  | apply i f arg ih => simp only [unmark, NoShadow, ih]
  | call i f args ih => exact noShadowOf_unmarkAll fun a ha => ih a ha
  | seq i a b iha ihb => simp only [unmark, NoShadow, iha, ihb]
  | binary i op a b iha ihb => simp only [unmark, NoShadow, iha, ihb]
  | var | num | bool => rfl

theorem flatAll_unmarkAll {es : List Expr} (h : ∀ e ∈ es, e.unmark.Flat ↔ e.Flat) :
    FlatAll (unmarkAll es) ↔ FlatAll es := by
  induction es with
  | nil => rfl
  | cons e es ih => simp only [unmarkAll, FlatAll, h e (by simp), ih fun a ha => h a (by simp [ha])]

theorem flat_unmark {e : Expr} : e.unmark.Flat ↔ e.Flat := by
  induction e with
  | letIn i x a b iha ihb => simp only [unmark, Flat, iha, ihb]
  | call i f args ih => exact flatAll_unmarkAll ih
  | seq i a b iha ihb => simp only [unmark, Flat, iha, ihb]
  | binary i op a b iha ihb => simp only [unmark, Flat, iha, ihb]
  | letFun | apply | var | num | bool => rfl

theorem mem_binderIdsOf {id : String} {es : List Expr} :
    id ∈ binderIdsOf es ↔ ∃ e ∈ es, id ∈ e.binderIds := by
  induction es with
  | nil => simp [binderIdsOf]
  | cons e es ih => simp [binderIdsOf, ih]

theorem nodup_of_nodup_binderIdsOf {es : List Expr} (h : (binderIdsOf es).Nodup) :
    ∀ e ∈ es, e.binderIds.Nodup := by
  induction es with
  | nil => simp
  | cons e es ih =>
    simp only [binderIdsOf, List.nodup_append] at h
    intro a ha
    rcases List.mem_cons.mp ha with rfl | ha
    · exact h.1
    · exact ih h.2.1 a ha

/-- Binders that all differ, also from those in sight, hide nothing. -/
theorem noShadow_of_nodup (e : Expr) (scope : List String)
    (hscope : ∀ id ∈ e.binderIds, id ∉ scope) (hnodup : e.binderIds.Nodup) : e.NoShadow scope := by
  induction e generalizing scope with
  | letIn i x value body ihv ihb =>
    simp only [binderIds, List.nodup_cons, List.nodup_append] at hscope hnodup
    refine ⟨ihv scope ?_ hnodup.2.1, hscope x.id (by simp), ihb _ ?_ hnodup.2.2.1⟩
    · intro id hid
      exact hscope id (by simp [hid])
    · intro id hid
      have hne : id ≠ x.id := fun h => hnodup.1 (by simp [← h, hid])
      simp [hne, hscope id (by simp [hid])]
  | letFun i f x paramTy resultTy body rest ihb ihr =>
    simp only [binderIds, List.nodup_cons, List.nodup_append] at hscope hnodup
    obtain ⟨hf, hx, hb, hr, -⟩ := hnodup
    have hxf : x.id ≠ f.id := fun h => hf (by simp [h])
    refine ⟨hscope f.id (by simp), ?_, ihb _ ?_ hb, ihr _ ?_ hr⟩
    · simp [hxf, hscope x.id (by simp)]
    · intro id hid
      have hnx : id ≠ x.id := fun h => hx (by simp [← h, hid])
      have hnf : id ≠ f.id := fun h => hf (by simp [← h, hid])
      simp [hnx, hnf, hscope id (by simp [hid])]
    · intro id hid
      have hnf : id ≠ f.id := fun h => hf (by simp [← h, hid])
      simp [hnf, hscope id (by simp [hid])]
  | apply i f arg ih => exact ih scope hscope hnodup
  | call i f args ih =>
    refine noShadowOf_iff.mpr fun a ha => ih a ha scope ?_ (nodup_of_nodup_binderIdsOf hnodup a ha)
    intro id hid
    exact hscope id (mem_binderIdsOf.mpr ⟨a, ha, hid⟩)
  | seq i a b iha ihb | binary i op a b iha ihb =>
    simp only [binderIds, List.mem_append, List.nodup_append] at hscope hnodup
    exact ⟨iha scope (fun id h => hscope id (.inl h)) hnodup.1,
      ihb scope (fun id h => hscope id (.inr h)) hnodup.2.1⟩
  | var | num | bool => trivial

end LetStack.Expr
