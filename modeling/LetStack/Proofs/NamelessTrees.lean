import Mathlib
import LetStack.Proofs.AlikeTrees
import LetStack.Proofs.Compilation

namespace LetStack

open Relator

/-- A tree without names: a use counts the binders in sight that are nearer than its own. -/
inductive Nameless where
  | letIn (value body : Nameless)
  | letFun (paramTy resultTy : Ty) (body rest : Nameless)
  | apply (callee : Nat) (arg : Nameless)
  | seq (first second : Nameless)
  | binary (op : BinOp) (left right : Nameless)
  | var (index : Nat)
  | num (value : Word)
  | bool (value : Bool)
deriving DecidableEq

/-- The nameless form, where `scope` has the spellings of the binders in sight, variables and
functions alike, innermost first. There is none if a name that is used has no binder of its spelling
in sight. -/
def Expr.nameless? (scope : List String) : Expr → Option Nameless
  | letIn _ x value body =>
    .map₂ .letIn (value.nameless? scope) (body.nameless? (x.display :: scope))
  | letFun _ f x paramTy resultTy body rest =>
    .map₂ (.letFun paramTy resultTy) (body.nameless? (x.display :: f.display :: scope))
      (rest.nameless? (f.display :: scope))
  | apply _ f arg => .map₂ .apply (scope.idxOf? f.display) (arg.nameless? scope)
  | call .. => none
  | seq _ first second => .map₂ .seq (first.nameless? scope) (second.nameless? scope)
  | binary _ op left right => .map₂ (.binary op) (left.nameless? scope) (right.nameless? scope)
  | var _ x => (scope.idxOf? x.display).map .var
  | num _ n => some (.num n)
  | bool _ b => some (.bool b)

/-- A tree has a nameless form if and only if all its names are bound. -/
theorem Expr.nameless?_isSome {e : Expr} {scope : List String} :
    (e.nameless? scope).isSome ↔ e.Bound scope := by
  have hparts {α β γ : Type} {f : α → β → γ} (a : Option α) (b : Option β) :
      (Option.map₂ f a b).isSome ↔ a.isSome ∧ b.isSome := by
    cases a <;> cases b <;> simp
  induction e generalizing scope with
  | letIn i x value body ihv ihb => exact (hparts _ _).trans (and_congr ihv ihb)
  | letFun i f x paramTy resultTy body rest ihb ihr => exact (hparts _ _).trans (and_congr ihb ihr)
  | apply i f arg ih => exact (hparts _ _).trans (and_congr (by simp) ih)
  | call => simp [nameless?, Bound]
  | seq i a b iha ihb | binary i op a b iha ihb => exact (hparts _ _).trans (and_congr iha ihb)
  | var i x => simp [nameless?, Bound]
  | num | bool => simp [nameless?, Bound]

namespace Renaming

/-- Uses that count the same binders are given the names of corresponding binders. -/
theorem use_alike {ids : String → String → Prop} {scope scope' : Scope} {x x' : Name} {k : Nat}
    (hscope : List.Forall₂ (fun p q => ids p.2 q.2) scope scope')
    (hx : (scope.map Prod.fst).idxOf? x.display = some k)
    (hx' : (scope'.map Prod.fst).idxOf? x'.display = some k) :
    ids (use scope x).id (use scope' x').id := by
  have hlookup : ∃ id id', scope.lookup x.display = some id ∧ scope'.lookup x'.display = some id' ∧
      ids id id' := by
    induction hscope generalizing k with
    | nil => simp at hx
    | @cons p q scope scope' hpq _ ih =>
      simp only [List.map_cons, List.idxOf?_cons] at hx hx'
      cases k with
      | zero =>
        have hp : p.1 = x.display := by
          by_contra hne
          simp [hne] at hx
        have hq : q.1 = x'.display := by
          by_contra hne
          simp [hne] at hx'
        obtain ⟨p, id⟩ := p
        obtain ⟨q, id'⟩ := q
        obtain rfl : p = x.display := hp
        obtain rfl : q = x'.display := hq
        exact ⟨id, id', List.lookup_cons_self, List.lookup_cons_self, hpq⟩
      | succ k =>
        have hp : p.1 ≠ x.display := fun hp => by simp [hp] at hx
        have hq : q.1 ≠ x'.display := fun hq => by simp [hq] at hx'
        rw [lookup_cons_of_ne hp.symm, lookup_cons_of_ne hq.symm]
        exact ih (by simpa [hp] using hx) (by simpa [hq] using hx')
  obtain ⟨id, id', hid, hid', hids⟩ := hlookup
  simpa [use, hid, hid'] using hids

/-- Trees of one nameless form are renamed alike: their binders pair up, and by any relation of
names that holds for the pairs and for the binders in sight the renamed trees are alike. -/
theorem walk_alike {e e' : Expr} {t : Nameless} {scope scope' : Scope} (r r' : Renaming)
    (h : e.nameless? (scope.map Prod.fst) = some t)
    (h' : e'.nameless? (scope'.map Prod.fst) = some t) :
    Paired (walk scope e r).1.binderIds (walk scope' e' r').1.binderIds fun ids =>
      List.Forall₂ (fun p q => ids p.2 q.2) scope scope' →
        Expr.Alike (fun _ _ => True) ids noLabels (walk scope e r).1 (walk scope' e' r').1 := by
  -- `ids` may be any relation that pairs the fresh ids of the two walks in order: which pairs
  -- it has to hold is known only when both walks are over, so `Paired` quantifies over it.
  induction e generalizing e' t scope scope' r r' with
  | letIn i x value body ihv ihb =>
    obtain ⟨tv, tb, hv, hb, rfl⟩ := Option.map₂_eq_some_iff.mp h
    cases e' with
    | letIn i' x' value' body' =>
      obtain ⟨_, _, hv', hb', heq⟩ := Option.map₂_eq_some_iff.mp h'
      cases heq
      let y := bind x (walk scope value r).2
      let y' := bind x' (walk scope' value' r').2
      -- A binder is shown under its display name, so the nameless view of the body is unchanged.
      have hb : body.nameless? ((see y.1 scope).map Prod.fst) = some tb := hb
      have hb' : body'.nameless? ((see y'.1 scope').map Prod.fst) = some tb := hb'
      refine (((ihv r r' hv hv').append (ihb y.2 y'.2 hb hb')).cons y.1.id y'.1.id).imp ?_
      rintro ids ⟨hx, hvalue, hbody⟩ hscope
      exact .letIn trivial hx (hvalue hscope) (hbody (.cons hx hscope))
    | _ => simp [Expr.nameless?] at h'
  | letFun i f x paramTy resultTy body rest ihb ihr =>
    obtain ⟨tb, tr, hb, hr, rfl⟩ := Option.map₂_eq_some_iff.mp h
    cases e' with
    | letFun i' f' x' paramTy' resultTy' body' rest' =>
      obtain ⟨_, _, hb', hr', heq⟩ := Option.map₂_eq_some_iff.mp h'
      cases heq
      let g := bind f r
      let g' := bind f' r'
      let y := bind x g.2
      let y' := bind x' g'.2
      have hb : body.nameless? ((see y.1 (see g.1 scope)).map Prod.fst) = some tb := hb
      have hb' : body'.nameless? ((see y'.1 (see g'.1 scope')).map Prod.fst) = some tb := hb'
      have hr : rest.nameless? ((see g.1 scope).map Prod.fst) = some tr := hr
      have hr' : rest'.nameless? ((see g'.1 scope').map Prod.fst) = some tr := hr'
      refine ((((ihb y.2 y'.2 hb hb').append (ihr _ _ hr hr')).cons y.1.id y'.1.id).cons g.1.id
        g'.1.id).imp ?_
      rintro ids ⟨hf, hx, hbody, hrest⟩ hscope
      exact .letFun trivial hf hx (hbody (.cons hx (.cons hf hscope))) (hrest (.cons hf hscope))
    | _ => simp [Expr.nameless?] at h'
  | apply i f arg ih =>
    obtain ⟨k, ta, hk, ha, rfl⟩ := Option.map₂_eq_some_iff.mp h
    cases e' with
    | apply i' f' arg' =>
      obtain ⟨_, _, hk', ha', heq⟩ := Option.map₂_eq_some_iff.mp h'
      cases heq
      refine (ih r r' ha ha').imp fun ids harg hscope => ?_
      exact .apply trivial (use_alike hscope hk hk') (harg hscope)
    | _ => simp [Expr.nameless?] at h'
  | call => cases h
  | seq i a b iha ihb =>
    obtain ⟨ta, tb, ha, hb, rfl⟩ := Option.map₂_eq_some_iff.mp h
    cases e' with
    | seq i' a' b' =>
      obtain ⟨_, _, ha', hb', heq⟩ := Option.map₂_eq_some_iff.mp h'
      cases heq
      refine ((iha r r' ha ha').append (ihb _ _ hb hb')).imp fun ids hparts hscope => ?_
      exact .seq trivial (hparts.1 hscope) (hparts.2 hscope)
    | _ => simp [Expr.nameless?] at h'
  | binary i op a b iha ihb =>
    obtain ⟨ta, tb, ha, hb, rfl⟩ := Option.map₂_eq_some_iff.mp h
    cases e' with
    | binary i' op' a' b' =>
      obtain ⟨_, _, ha', hb', heq⟩ := Option.map₂_eq_some_iff.mp h'
      cases heq
      refine ((iha r r' ha ha').append (ihb _ _ hb hb')).imp fun ids hparts hscope => ?_
      exact .binary trivial (hparts.1 hscope) (hparts.2 hscope)
    | _ => simp [Expr.nameless?] at h'
  | var i x =>
    obtain ⟨k, hk, rfl⟩ := Option.map_eq_some_iff.mp h
    cases e' with
    | var i' x' =>
      obtain ⟨_, hk', heq⟩ := Option.map_eq_some_iff.mp h'
      cases heq
      exact .nil fun ids hscope => .var trivial (use_alike hscope hk hk')
    | _ => simp [Expr.nameless?] at h'
  | num i n =>
    cases h
    cases e' with
    | num i' n' =>
      cases h'
      exact .nil fun ids _ => .num trivial
    | _ => simp [Expr.nameless?] at h'
  | bool i b =>
    cases h
    cases e' with
    | bool i' b' =>
      cases h'
      exact .nil fun ids _ => .bool trivial
    | _ => simp [Expr.nameless?] at h'

end Renaming

theorem Expr.resolve_alike {e e' : Expr} {t : Nameless} (h : e.nameless? [] = some t)
    (h' : e'.nameless? [] = some t) :
    ∃ ids, BiUnique ids ∧ Alike (fun _ _ => True) ids noLabels e.resolve e'.resolve := by
  have hpaired : Paired e.resolve.binderIds e'.resolve.binderIds fun ids =>
      List.Forall₂ (fun p q => ids p.2 q.2) ([] : Renaming.Scope) ([] : Renaming.Scope) →
        Alike (fun _ _ => True) ids noLabels e.resolve e'.resolve :=
    Renaming.walk_alike _ _ h h'
  obtain ⟨ids, hids, halike⟩ := hpaired.exists_biUnique (Renaming.resolve_binderIds_nodup {} e)
    (Renaming.resolve_binderIds_nodup {} e')
  exact ⟨ids, hids, halike .nil⟩

inductive Instruction.Alike (labels : String → String → Prop) : Instruction → Instruction → Prop
  | same {i : Instruction} (h : i.label? = none) : Alike labels i i
  | mark {f f' : String} (h : labels f f') : Alike labels ⟨.label, .label f⟩ ⟨.label, .label f'⟩
  | call {f f' : String} (h : labels f f') : Alike labels ⟨.bsr, .label f⟩ ⟨.bsr, .label f'⟩

structure Frame.Alike (ids : String → String → Prop) (frame frame' : Frame) : Prop where
  params : Entries ids Eq frame.params frame'.params
  locals : Entries ids Eq frame.locals frame'.locals

section

variable {ids labels : String → String → Prop}

namespace Instruction

theorem label?_store (t : Ty) : (store t).label? = none := by cases t <;> rfl

theorem label?_load (slot : Slot) : (load slot).label? = none := by
  rcases slot with ⟨offset, _ | _⟩ <;> rfl

theorem label?_operator (op : BinOp) (t : Ty) : (op.instruction t).label? = none := by
  cases op <;> cases t <;> rfl

theorem effects_alike {is js : List Instruction}
    (h : List.Forall₂ (Instruction.Alike labels) is js) : effects is = effects js := by
  induction h with
  | nil => rfl
  | @cons i j _ _ hij _ ih =>
    have heffect : i.effect = j.effect := by cases hij <;> rfl
    rw [effects_cons, effects_cons, heffect, ih]

end Instruction

namespace Frame

variable {frame frame' : Frame}

theorem Alike.get? (hids : BiUnique ids) (h : frame.Alike ids frame') {x x' : String}
    (hx : ids x x') : frame.get? x = frame'.get? x' := by
  have hcells : Entries ids Eq (frame.locals ++ frame.params) (frame'.locals ++ frame'.params) :=
    List.rel_append h.locals h.params
  exact hcells.lookup_eq hids hx

theorem Alike.declare (h : frame.Alike ids frame') {x x' : String} (hx : ids x x') (t : Ty)
    (offset : Int) : (frame.declare x t offset).Alike ids (frame'.declare x' t offset) :=
  ⟨h.params, h.locals.cons hx rfl⟩

theorem paramSlots_alike {ps ps' : List Param} (h : List.Forall₂ (Param.Alike ids) ps ps')
    (offset : Int) : Entries ids Eq (paramSlots offset ps) (paramSlots offset ps') := by
  induction h generalizing offset with
  | nil => exact .nil
  | cons hp _ ih => exact List.rel_append (ih (offset + 1)) (.cons ⟨hp.1, by rw [hp.2]⟩ .nil)

theorem forFunction_alike {ps ps' : List Param} (h : List.Forall₂ (Param.Alike ids) ps ps') :
    (forFunction ps).Alike ids (forFunction ps') :=
  ⟨paramSlots_alike h firstParam, .nil⟩

end Frame

namespace Expr

open Instruction

theorem Alike.marked_eq {e e' : Expr} (h : Alike Eq ids labels e e') : e.marked = e'.marked := by
  have hty : e.ty = e'.ty := by cases h <;> assumption
  rw [marked, marked, hty]

theorem codeOf_alike {args args' : List Expr} {frame frame' : Frame}
    (hargs : List.Forall₂ (Alike Eq ids labels) args args')
    (hcode : ∀ a ∈ args, ∀ a', Alike Eq ids labels a a' → ∀ depth,
      List.Forall₂ (Instruction.Alike labels) (a.code frame depth) (a'.code frame' depth))
    (depth : Int) :
    List.Forall₂ (Instruction.Alike labels) (codeOf frame depth args)
      (codeOf frame' depth args') := by
  induction hargs with
  | nil => exact .nil
  | @cons a a' args args' ha _ ih =>
    have hrest := ih fun b hb => hcode b (by simp [hb])
    simp only [codeOf]
    rw [effects_alike hrest]
    exact List.rel_append hrest (hcode a (by simp) a' ha _)

/-- Trees that are alike have the same code but for the names of functions. -/
theorem Alike.code (hids : BiUnique ids) {e e' : Expr} {frame frame' : Frame}
    (h : Alike Eq ids labels e e') (hframe : frame.Alike ids frame') (depth : Int) :
    List.Forall₂ (Instruction.Alike labels) (e.code frame depth) (e'.code frame' depth) := by
  induction e generalizing e' frame frame' depth with
  | letFun | apply =>
    cases h
    exact .nil
  | letIn i x value body ihv ihb =>
    cases h with
    | letIn hi hx hvalue hbody =>
      have hv := ihv hvalue hframe (depth + 3)
      -- The depths of the two bodies agree because alike code has equal stack effects.
      simp only [Expr.code, ← hvalue.marked_eq, ← hbody.marked_eq, ← effects_alike hv]
      have hb := ihb hbody (hframe.declare hx value.marked (-(depth + 2)))
      refine List.rel_append (List.rel_append (List.rel_append (List.rel_append ?_ hv) ?_) (hb _)) ?_
      · exact .cons (.same rfl) (.cons (.same rfl) (.cons (.same rfl) .nil))
      · exact .cons (.same (label?_store _)) (.cons (.same rfl) .nil)
      · exact .cons (.same (label?_store _)) (.cons (.same rfl) .nil)
  | call i f args ih =>
    cases h with
    | call hi hf hargs =>
      have hcode := codeOf_alike hargs (fun a ha a' haa' => ih a ha haa' hframe) (depth + 1)
      simp only [Expr.code, ← hargs.length_eq]
      exact List.rel_append (.cons (.same rfl) hcode) (.cons (.call hf) (.cons (.same rfl) .nil))
  | seq i first second ihf ihs =>
    cases h with
    | seq hi hfirst hsecond =>
      have hf := ihf hfirst hframe depth
      simp only [Expr.code, ← effects_alike hf]
      exact List.rel_append hf (.cons (.same rfl) (ihs hsecond hframe _))
  | binary i op left right ihl ihr =>
    cases h with
    | binary hi hleft hright =>
      have hl := ihl hleft hframe depth
      simp only [Expr.code, ← hleft.marked_eq, ← effects_alike hl]
      exact List.rel_append (List.rel_append hl (ihr hright hframe _))
        (.cons (.same (label?_operator op _)) .nil)
  | var i x =>
    cases h with
    | var hi hx =>
      simp only [Expr.code, hframe.get? hids hx]
      refine List.forall₂_same.mpr fun j hj => ?_
      obtain ⟨slot, -, rfl⟩ := List.mem_map.mp hj
      exact .same (label?_load slot)
  | num i n =>
    cases h
    exact .cons (.same rfl) .nil
  | bool i b =>
    cases h
    exact .cons (.same rfl) .nil

end Expr

theorem Function.Alike.code (hids : BiUnique ids) {f g : Function} (h : f.Alike ids labels g) :
    List.Forall₂ (Instruction.Alike labels) f.code g.code := by
  have hoffset : Frame.returnOffset f.params = Frame.returnOffset g.params := by
    rw [Frame.returnOffset, Frame.returnOffset, h.params.length_eq]
  simp only [Function.code, ← hoffset, ← h.resultTy]
  refine List.rel_append
    (List.rel_append ?_ (h.body.code hids (Frame.forFunction_alike h.params) 1)) ?_
  · exact .cons (.mark h.name) (.cons (.same rfl) (.cons (.same rfl) .nil))
  · exact .cons (.same (Instruction.label?_store _)) (.cons (.same rfl) (.cons (.same rfl) .nil))

theorem Program.code_alike (hids : BiUnique ids) {p q : Program}
    (hfunctions : List.Forall₂ (Function.Alike ids labels) p.functions q.functions)
    (hmain : Expr.Alike Eq ids labels p.main q.main)
    (hlabel : labels Module.mainLabel Module.mainLabel) :
    List.Forall₂ (Instruction.Alike labels) p.code q.code := by
  have hempty : Frame.Alike ids .forMain .forMain := ⟨.nil, .nil⟩
  refine List.rel_append (List.rel_flatMap hfunctions fun _ _ h => h.code hids) ?_
  exact List.rel_append (.cons (.mark hlabel) (hmain.code hids hempty 0)) (.cons (.same rfl) .nil)

end

def Instruction.unnamed (i : Instruction) : Instruction :=
  if i.op = .label then ⟨.label, .empty⟩ else i

def Module.unnamed (m : Module) : Module := ⟨m.code.map Instruction.unnamed⟩

namespace Module

variable {labels : String → String → Prop} (hlabels : BiUnique labels)

include hlabels

theorem collectLabels_alike {is js : List Instruction} {table table' found : Labels} {index : Nat}
    (h : List.Forall₂ (Instruction.Alike labels) is js) (htable : Entries labels Eq table table')
    (hfound : collectLabels table index is = .ok found) :
    ∃ found', collectLabels table' index js = .ok found' ∧ Entries labels Eq found found' := by
  induction h generalizing table table' index with
  | nil =>
    cases hfound
    exact ⟨table', rfl, htable⟩
  | @cons i j is js hij _ ih =>
    cases hij with
    | same hi =>
      have hmark : marks? i = none := by simp [marks?, hi]
      simp only [collectLabels, hmark] at hfound ⊢
      exact ih htable hfound
    | @mark f f' hf =>
      have hmark (name : String) : marks? ⟨.label, .label name⟩ = some name := rfl
      simp only [collectLabels, hmark, ← htable.lookup_eq hlabels hf] at hfound ⊢
      cases hlookup : table.lookup f with
      | some a => simp [hlookup] at hfound
      | none =>
        rw [hlookup] at hfound
        exact ih (htable.cons hf rfl) hfound
    | call => exact ih htable hfound

theorem substitute_alike {is js is' : List Instruction} {table table' : Labels} {count : Nat}
    (h : List.Forall₂ (Instruction.Alike labels) is js) (htable : Entries labels Eq table table')
    (hsub : substitute table is = (is', .ok count)) :
    ∃ js', substitute table' js = (js', .ok count) ∧
      is'.map Instruction.unnamed = js'.map Instruction.unnamed := by
  induction h generalizing is' count with
  | nil =>
    cases hsub
    exact ⟨[], rfl, rfl⟩
  | @cons i j is js hij _ ih =>
    rcases hrest : substitute table is with ⟨rest, outcome⟩
    cases hij with
    | same hi =>
      have hrefers : refersTo? i = none := by simp [refersTo?, hi]
      simp only [substitute, hrefers, hrest, Prod.mk.injEq] at hsub
      obtain ⟨rfl, rfl⟩ := hsub
      obtain ⟨rest', hrest', hunnamed⟩ := ih hrest
      exact ⟨i :: rest', by simp only [substitute, hrefers, hrest'], by simp [hunnamed]⟩
    | @mark f f' =>
      have hrefers (name : String) : refersTo? ⟨.label, .label name⟩ = none := rfl
      simp only [substitute, hrefers, hrest, Prod.mk.injEq] at hsub
      obtain ⟨rfl, rfl⟩ := hsub
      obtain ⟨rest', hrest', hunnamed⟩ := ih hrest
      exact ⟨⟨.label, .label f'⟩ :: rest', by simp only [substitute, hrefers, hrest'],
        by simp [hunnamed, Instruction.unnamed]⟩
    | @call f f' hf =>
      have hrefers (name : String) : refersTo? ⟨.bsr, .label name⟩ = some name := rfl
      -- The tables pair alike names with equal addresses, so both calls get the same operand.
      cases hlookup : table.lookup f with
      | none => simp [substitute, hrefers, hlookup] at hsub
      | some a =>
        have hlookup' := (htable.lookup_eq hlabels hf).symm.trans hlookup
        simp only [substitute, hrefers, hlookup, hrest, Prod.mk.injEq] at hsub
        obtain ⟨rfl, hcount⟩ := hsub
        cases outcome with
        | error fault => cases hcount
        | ok n =>
          obtain ⟨rest', hrest', hunnamed⟩ := ih hrest
          exact ⟨⟨.bsr, .address a⟩ :: rest',
            by simp only [substitute, hrefers, hlookup', hrest', hcount], by simp [hunnamed]⟩

/-- Code that is the same up to the names of functions is linked to modules that are the same up to
the names of labels. -/
theorem link_alike {is js : List Instruction} {m : Module} {count : Nat}
    (h : List.Forall₂ (Instruction.Alike labels) is js)
    (hlink : link ⟨is.toArray⟩ = (m, .ok count)) :
    ∃ m', link ⟨js.toArray⟩ = (m', .ok count) ∧ m.unnamed = m'.unnamed := by
  unfold link at hlink ⊢
  cases hfound : collectLabels [] 0 is with
  | error fault => simp [hfound] at hlink
  | ok found =>
    obtain ⟨found', hfound', htable⟩ := collectLabels_alike hlabels h .nil hfound
    rcases hsub : substitute found is with ⟨is', outcome⟩
    simp only [hfound, hsub, Prod.mk.injEq] at hlink
    obtain ⟨rfl, rfl⟩ := hlink
    obtain ⟨js', hsub', hunnamed⟩ := substitute_alike hlabels h htable hsub
    simp only [hfound', hsub']
    exact ⟨_, rfl, by simp [unnamed, hunnamed]⟩

end Module

/-- The module of a build is the code of its program, linked. -/
theorem link_of_compile {e : Expr} {keepStages : Bool} {build : Build}
    (h : compile e keepStages = .ok build) :
    ∃ count, Module.link ⟨build.program.code.toArray⟩ = (build.module, .ok count) := by
  obtain ⟨labels, hstands⟩ := stands_of_compile h
  have hgenerate := Program.generate_eq hstands.wellTyped
  simp only [compile, bind_eq_ok] at h
  obtain ⟨ty, -, program, -, unlinked, hunlinked, count, hcount, hbuild⟩ := h
  cases hbuild
  obtain rfl : ⟨program.code.toArray⟩ = unlinked := by simpa [hgenerate, Except.mapError]
    using hunlinked
  refine ⟨count, Prod.ext rfl ?_⟩
  cases hlink : (Module.link ⟨program.code.toArray⟩).2 with
  | error fault => simp [hlink, Except.mapError] at hcount
  | ok n => simpa [hlink, Except.mapError] using hcount

variable {e₁ e₂ : Expr} {t : Nameless}

/-- A tree of the same nameless form as one that is compiled is compiled too. -/
theorem compile_of_nameless (h₁ : e₁.nameless? [] = some t) (h₂ : e₂.nameless? [] = some t)
    {keepStages : Bool} {build : Build} (h : compile e₁ keepStages = .ok build)
    (keepStages' : Bool) :
    ∃ build', compile e₂ keepStages' = .ok build' ∧ build.ty = build'.ty ∧
      build.module.unnamed = build'.module.unnamed := by
  obtain ⟨labels₁, hstands⟩ := stands_of_compile h
  obtain ⟨ids, hids, halike⟩ := Expr.resolve_alike h₁ h₂
  obtain ⟨houtcome, hchecked⟩ := halike.typecheck hids hstands.outcome
  obtain ⟨build', labels₂, h', hstands'⟩ := compile_of_checked houtcome keepStages'
  have hty : build.ty = build'.ty := Except.ok.inj (houtcome.symm.trans hstands'.outcome)
  refine ⟨build', h', hty, ?_⟩
  -- the functions pair up, and so does the main expression, which is none of them
  have hpaired := (hstands.lifts.alike hids hstands'.lifts hchecked).append
    ((Paired.nil fun _ => trivial).cons Module.mainLabel Module.mainLabel)
  obtain ⟨labels, hlabels, hlifted, hmain, -⟩ :=
    hpaired.exists_biUnique hstands.wellTyped.labels_nodup hstands'.wellTyped.labels_nodup
  obtain ⟨hmains, hfunctions⟩ := hlifted .nil
  have hcode := Program.code_alike hids hfunctions hmains hmain
  obtain ⟨count, hlink⟩ := link_of_compile h
  obtain ⟨m, hm, hunnamed⟩ := Module.link_alike hlabels hcode hlink
  obtain ⟨count', hlink'⟩ := link_of_compile h'
  rw [hunnamed, (Prod.mk.inj (hm.symm.trans hlink')).1]

/-- Names do not matter to compilation. Of two trees whose names are all bound and that have the
same nameless form, one is compiled if and only if the other is, and then they have the same type,
and their modules are the same, instruction by instruction, but for the names of labels. -/
theorem compile_same_of_same_nameless (hbound : e₁.Bound [])
    (hsame : e₁.nameless? [] = e₂.nameless? []) (keepStages₁ keepStages₂ : Bool) :
    ((∃ build, compile e₁ keepStages₁ = .ok build) ↔ ∃ build, compile e₂ keepStages₂ = .ok build) ∧
      ∀ build₁ build₂, compile e₁ keepStages₁ = .ok build₁ → compile e₂ keepStages₂ = .ok build₂ →
        build₁.ty = build₂.ty ∧ build₁.module.unnamed = build₂.module.unnamed := by
  obtain ⟨t, h₁⟩ := Option.isSome_iff_exists.mp (Expr.nameless?_isSome.mpr hbound)
  have h₂ : e₂.nameless? [] = some t := hsame.symm.trans h₁
  refine ⟨⟨?_, ?_⟩, ?_⟩
  · rintro ⟨build, h⟩
    obtain ⟨build', h', -⟩ := compile_of_nameless h₁ h₂ h keepStages₂
    exact ⟨build', h'⟩
  · rintro ⟨build, h⟩
    obtain ⟨build', h', -⟩ := compile_of_nameless h₂ h₁ h keepStages₁
    exact ⟨build', h'⟩
  · intro build₁ build₂ hbuild₁ hbuild₂
    obtain ⟨build', h', hsame⟩ := compile_of_nameless h₁ h₂ hbuild₁ keepStages₂
    obtain rfl := Except.ok.inj (h'.symm.trans hbuild₂)
    exact hsame

/-- Another way to write `hiddenCapture`: nothing is hidden, one name is a numbered spelling of
another, and the function is called like the label of the main expression. -/
def nothingHidden : String :=
  "let f_0 = 3 in let main f: num -> num = f_0 - f in let f_1 = main 1 in main f_1"

theorem compile_same_of_same_nameless_nothingHidden : ∃ e₁ e₂ build₁ build₂,
    parse hiddenCapture = .ok e₁ ∧ parse nothingHidden = .ok e₂ ∧ e₁.Bound [] ∧
      e₁.nameless? [] = e₂.nameless? [] ∧ compile e₁ = .ok build₁ ∧ compile e₂ = .ok build₂ ∧
      build₁.module ≠ build₂.module ∧ build₁.ty = build₂.ty ∧
      build₁.module.unnamed = build₂.module.unnamed := by
  have hresults : (parse hiddenCapture).toOption.map (fun e₁ =>
      (parse nothingHidden).toOption.map fun e₂ => (compile e₁).toOption.bind fun build₁ =>
        (compile e₂).toOption.map fun build₂ =>
          (decide (e₁.Bound []), decide (e₁.nameless? [] = e₂.nameless? []),
            decide (build₁.module = build₂.module))) =
              some (some (some (true, true, false))) := by cbv
  obtain ⟨e₁, hparse₁, hresults⟩ := exists_of_parse hresults
  obtain ⟨e₂, hparse₂, hresults⟩ := exists_of_parse hresults
  obtain ⟨build₁, hbuild₁, hresults⟩ := Option.bind_eq_some_iff.mp hresults
  obtain ⟨build₂, hbuild₂, hresults⟩ := Option.map_eq_some_iff.mp hresults
  simp only [Prod.mk.injEq, decide_eq_true_eq, decide_eq_false_iff_not] at hresults
  obtain ⟨hbound, hsame, hne⟩ := hresults
  have hcompile₁ := ok_of_toOption hbuild₁
  have hcompile₂ := ok_of_toOption hbuild₂
  obtain ⟨hty, hmodule⟩ := (compile_same_of_same_nameless hbound hsame false false).2 build₁ build₂
    hcompile₁ hcompile₂
  exact ⟨e₁, e₂, build₁, build₂, hparse₁, hparse₂, hbound, hsame, hcompile₁, hcompile₂,
    hne, hty, hmodule⟩

end LetStack
