import Mathlib.Data.List.Forall2
import Mathlib.Data.List.Nodup
import LetStack.Proofs.Lifting

namespace LetStack

open Relator

section

variable {α β : Type} {names : String → String → Prop} {values : α → β → Prop}

def Entries (names : String → String → Prop) (values : α → β → Prop) :
    List (String × α) → List (String × β) → Prop :=
  List.Forall₂ fun p q => names p.1 q.1 ∧ values p.2 q.2

theorem Entries.nil : Entries names values [] [] := List.Forall₂.nil

theorem Entries.cons {l : List (String × α)} {l' : List (String × β)} {x y : String} {a : α} {b : β}
    (hname : names x y) (hvalue : values a b) (h : Entries names values l l') :
    Entries names values ((x, a) :: l) ((y, b) :: l') :=
  List.Forall₂.cons ⟨hname, hvalue⟩ h

/-- Names that correspond one to one find corresponding values. -/
theorem Entries.lookup (hnames : BiUnique names) {l : List (String × α)} {l' : List (String × β)}
    {x y : String} (h : Entries names values l l') (hxy : names x y) :
    Option.Rel values (l.lookup x) (l'.lookup y) := by
  induction h with
  | nil => exact .none
  | @cons p q l l' hpq _ ih =>
    obtain ⟨p, a⟩ := p
    obtain ⟨q, b⟩ := q
    obtain ⟨hname, hvalue⟩ := hpq
    have hiff : x = p ↔ y = q := rel_eq hnames hxy hname
    by_cases hx : x = p
    · obtain rfl := hx
      obtain rfl := hiff.mp rfl
      simpa using Option.Rel.some hvalue
    · rw [lookup_cons_of_ne hx, lookup_cons_of_ne fun hy => hx (hiff.mpr hy)]
      exact ih

theorem Entries.lookup_eq_some (hnames : BiUnique names) {l : List (String × α)}
    {l' : List (String × β)} {x y : String} {a : α} (h : Entries names values l l')
    (hxy : names x y) (ha : l.lookup x = some a) : ∃ b, l'.lookup y = some b ∧ values a b := by
  have hrel := h.lookup hnames hxy
  rw [ha] at hrel
  cases hlookup : l'.lookup y with
  | none => rw [hlookup] at hrel; cases hrel
  | some b =>
    rw [hlookup] at hrel
    cases hrel with
    | some hvalue => exact ⟨b, rfl, hvalue⟩

theorem Entries.lookup_eq (hnames : BiUnique names) {l l' : List (String × α)} {x y : String}
    (h : Entries names Eq l l') (hxy : names x y) : l.lookup x = l'.lookup y := by
  have hrel := h.lookup hnames hxy
  generalize l.lookup x = a, l'.lookup y = b at hrel ⊢
  cases hrel with
  | none => rfl
  | some hvalue => rw [hvalue]

end

/-- The two lists pair up name by name, and `post` holds of every relation that holds for the pairs.
-/
def Paired (xs ys : List String) (post : (String → String → Prop) → Prop) : Prop :=
  ∃ pairs : List (String × String), pairs.map Prod.fst = xs ∧ pairs.map Prod.snd = ys ∧
    ∀ names : String → String → Prop, (∀ p ∈ pairs, names p.1 p.2) → post names

namespace Paired

variable {xs ys xs' ys' : List String} {post post' : (String → String → Prop) → Prop}

theorem nil (h : ∀ names, post names) : Paired [] [] post := ⟨[], rfl, rfl, fun names _ => h names⟩

theorem cons (x y : String) (h : Paired xs ys post) :
    Paired (x :: xs) (y :: ys) fun names => names x y ∧ post names := by
  obtain ⟨pairs, hfst, hsnd, h⟩ := h
  refine ⟨(x, y) :: pairs, by simp [hfst], by simp [hsnd], fun names hnames => ?_⟩
  rw [List.forall_mem_cons] at hnames
  exact ⟨hnames.1, h names hnames.2⟩

theorem append (h : Paired xs ys post) (h' : Paired xs' ys' post') :
    Paired (xs ++ xs') (ys ++ ys') fun names => post names ∧ post' names := by
  obtain ⟨pairs, hfst, hsnd, h⟩ := h
  obtain ⟨pairs', hfst', hsnd', h'⟩ := h'
  refine ⟨pairs ++ pairs', by simp [hfst, hfst'], by simp [hsnd, hsnd'], fun names hnames => ?_⟩
  rw [List.forall_mem_append] at hnames
  exact ⟨h names hnames.1, h' names hnames.2⟩

theorem imp (h : Paired xs ys post) (himp : ∀ names, post names → post' names) :
    Paired xs ys post' := by
  obtain ⟨pairs, hfst, hsnd, h⟩ := h
  exact ⟨pairs, hfst, hsnd, fun names hnames => himp names (h names hnames)⟩

/-- Where no name is repeated, the pairs make names correspond one to one. -/
theorem exists_biUnique (h : Paired xs ys post) (hxs : xs.Nodup) (hys : ys.Nodup) :
    ∃ names, BiUnique names ∧ post names := by
  obtain ⟨pairs, rfl, rfl, h⟩ := h
  refine ⟨fun x y => (x, y) ∈ pairs, ⟨?_, ?_⟩, h _ fun p hp => hp⟩
  · intro x y z hx hy
    exact congrArg Prod.fst (List.inj_on_of_nodup_map hys hx hy rfl)
  · intro x y z hy hz
    exact congrArg Prod.snd (List.inj_on_of_nodup_map hxs hy hz rfl)

end Paired

namespace Expr

/-- `Alike marks ids labels e e'`: the trees have the same shape, with the same operators, literals
and annotations. The names of their binders and of the uses of these are related by `ids`, the names
of lifted functions by `labels`, and the type marks of their nodes by `marks`. -/
inductive Alike (marks : Option Ty → Option Ty → Prop) (ids labels : String → String → Prop) :
    Expr → Expr → Prop
  | letIn {i i' : Info} {x x' : Name} {value value' body body' : Expr} (hi : marks i.ty i'.ty)
      (hx : ids x.id x'.id) (hvalue : Alike marks ids labels value value')
      (hbody : Alike marks ids labels body body') :
      Alike marks ids labels (.letIn i x value body) (.letIn i' x' value' body')
  | letFun {i i' : Info} {f f' x x' : Name} {paramTy resultTy : Ty} {body body' rest rest' : Expr}
      (hi : marks i.ty i'.ty) (hf : ids f.id f'.id) (hx : ids x.id x'.id)
      (hbody : Alike marks ids labels body body') (hrest : Alike marks ids labels rest rest') :
      Alike marks ids labels (.letFun i f x paramTy resultTy body rest)
        (.letFun i' f' x' paramTy resultTy body' rest')
  | apply {i i' : Info} {f f' : Name} {arg arg' : Expr} (hi : marks i.ty i'.ty)
      (hf : ids f.id f'.id) (harg : Alike marks ids labels arg arg') :
      Alike marks ids labels (.apply i f arg) (.apply i' f' arg')
  | call {i i' : Info} {f f' : String} {args args' : List Expr} (hi : marks i.ty i'.ty)
      (hf : labels f f') (hargs : List.Forall₂ (Alike marks ids labels) args args') :
      Alike marks ids labels (.call i f args) (.call i' f' args')
  | seq {i i' : Info} {first first' second second' : Expr} (hi : marks i.ty i'.ty)
      (hfirst : Alike marks ids labels first first')
      (hsecond : Alike marks ids labels second second') :
      Alike marks ids labels (.seq i first second) (.seq i' first' second')
  | binary {i i' : Info} {op : BinOp} {left left' right right' : Expr} (hi : marks i.ty i'.ty)
      (hleft : Alike marks ids labels left left') (hright : Alike marks ids labels right right') :
      Alike marks ids labels (.binary i op left right) (.binary i' op left' right')
  | var {i i' : Info} {x x' : Name} (hi : marks i.ty i'.ty) (hx : ids x.id x'.id) :
      Alike marks ids labels (.var i x) (.var i' x')
  | num {i i' : Info} {n : Word} (hi : marks i.ty i'.ty) :
      Alike marks ids labels (.num i n) (.num i' n)
  | bool {i i' : Info} {b : Bool} (hi : marks i.ty i'.ty) :
      Alike marks ids labels (.bool i b) (.bool i' b)

end Expr

def noLabels : String → String → Prop := fun _ _ => False

section

variable {marks : Option Ty → Option Ty → Prop} {ids : String → String → Prop}

structure Scopes.Alike (ids : String → String → Prop) (s s' : Scopes) : Prop where
  vars : Entries ids Eq s.vars s'.vars
  funs : Entries ids (fun a b => a.param = b.param ∧ a.result = b.result) s.funs s'.funs

namespace Scopes.Alike

variable {s s' : Scopes} (h : s.Alike ids s')

include h

theorem var {x x' : String} (hx : ids x x') (t : Ty) : (s.var x t).Alike ids (s'.var x' t) :=
  ⟨h.vars.cons hx rfl, h.funs⟩

theorem arrow {f f' : String} (hf : ids f f') (display display' : String) (param result : Ty) :
    (s.arrow f ⟨display, param, result⟩).Alike ids (s'.arrow f' ⟨display', param, result⟩) :=
  ⟨h.vars, h.funs.cons hf ⟨rfl, rfl⟩⟩

end Scopes.Alike

/-- A tree that is alike to a checked one is checked with the same result, and gets the same marks.
-/
theorem Expr.Alike.check (hids : BiUnique ids) {e e' c : Expr} {s s' : Scopes} {t : Ty}
    (h : Alike marks ids noLabels e e') (hs : s.Alike ids s') (hcheck : e.check s = (c, .ok t)) :
    ∃ c', e'.check s' = (c', .ok t) ∧ Alike Eq ids noLabels c c' := by
  induction e generalizing e' s s' c t with
  | letIn i x value body ihv ihb =>
    cases h with
    | letIn _ hx hvalue hbody =>
      obtain ⟨cv, u, cb, hv, hb, rfl⟩ := Expr.check_letIn.mp hcheck
      obtain ⟨cv', hv', hcv⟩ := ihv hvalue hs hv
      obtain ⟨cb', hb', hcb⟩ := ihb hbody (hs.var hx u) hb
      exact ⟨_, Expr.check_letIn.mpr ⟨cv', u, cb', hv', hb', rfl⟩, .letIn rfl hx hcv hcb⟩
  | letFun i f x paramTy resultTy body rest ihb ihr =>
    cases h with
    | @letFun _ _ _ f' _ _ _ _ _ _ _ _ _ hf hx hbody hrest =>
      obtain ⟨cb, cr, hb, hr, rfl⟩ := Expr.check_letFun.mp hcheck
      have hs' := hs.arrow hf f.display f'.display paramTy resultTy
      obtain ⟨cb', hb', hcb⟩ := ihb hbody (hs'.var hx paramTy) hb
      obtain ⟨cr', hr', hcr⟩ := ihr hrest hs' hr
      exact ⟨_, Expr.check_letFun.mpr ⟨cb', cr', hb', hr', rfl⟩, .letFun rfl hf hx hcb hcr⟩
  | apply i f arg ih =>
    cases h with
    | apply _ hf harg =>
      obtain ⟨a, ca, hlookup, ha, rfl, rfl⟩ := Expr.check_apply.mp hcheck
      obtain ⟨ca', ha', hca⟩ := ih harg hs ha
      -- The two entries differ in the display name at most, which only messages read.
      obtain ⟨a', hlookup', hparam, hresult⟩ := hs.funs.lookup_eq_some hids hf hlookup
      rw [hparam] at ha'
      exact ⟨_, Expr.check_apply.mpr ⟨a', ca', hlookup', ha', hresult, rfl⟩, .apply rfl hf hca⟩
  | call =>
    -- `noLabels` relates nothing, so neither tree holds a call of a lifted function.
    cases h with
    | call _ hf => exact hf.elim
  | seq i first second ihf ihs =>
    cases h with
    | seq _ hfirst hsecond =>
      obtain ⟨cf, u, cs, hf, hs₂, rfl⟩ := Expr.check_seq.mp hcheck
      obtain ⟨cf', hf', hcf⟩ := ihf hfirst hs hf
      obtain ⟨cs', hs₂', hcs⟩ := ihs hsecond hs hs₂
      exact ⟨_, Expr.check_seq.mpr ⟨cf', u, cs', hf', hs₂', rfl⟩, .seq rfl hcf hcs⟩
  | binary i op left right ihl ihr =>
    cases h with
    | binary _ hleft hright =>
      obtain ⟨cl, u, cr, v, hl, hr, hop, rfl⟩ := Expr.check_binary.mp hcheck
      obtain ⟨cl', hl', hcl⟩ := ihl hleft hs hl
      obtain ⟨cr', hr', hcr⟩ := ihr hright hs hr
      exact ⟨_, Expr.check_binary.mpr ⟨cl', u, cr', v, hl', hr', hop, rfl⟩, .binary rfl hcl hcr⟩
  | var i x =>
    cases h with
    | var _ hx =>
      obtain ⟨hlookup, rfl⟩ := Expr.check_var.mp hcheck
      have hlookup' := (hs.vars.lookup_eq hids hx).symm.trans hlookup
      exact ⟨_, Expr.check_var.mpr ⟨hlookup', rfl⟩, .var rfl hx⟩
  | num i n =>
    cases h with
    | num =>
      cases hcheck
      exact ⟨_, rfl, .num rfl⟩
  | bool i b =>
    cases h with
    | bool =>
      cases hcheck
      exact ⟨_, rfl, .bool rfl⟩

theorem Expr.Alike.typecheck (hids : BiUnique ids) {e e' : Expr} {t : Ty}
    (h : Alike marks ids noLabels e e') (hcheck : e.typecheck.outcome = .ok t) :
    e'.typecheck.outcome = .ok t ∧ Alike Eq ids noLabels e.typecheck.item e'.typecheck.item := by
  have hempty : Scopes.Alike ids {} {} := ⟨.nil, .nil⟩
  obtain ⟨c', hc', hcc'⟩ := h.check hids hempty (Expr.check_of_typecheck hcheck)
  obtain ⟨houtcome, rfl⟩ := Expr.typecheck_of_check hc'
  exact ⟨houtcome, hcc'⟩

end

def FreeVar.Alike (ids : String → String → Prop) (v w : FreeVar) : Prop :=
  ids v.name w.name ∧ v.ty = w.ty

section

variable {ids : String → String → Prop} (hids : BiUnique ids)

include hids

namespace FreeVars

theorem add_alike {s s' : FreeVars} {v w : FreeVar} (h : List.Forall₂ (FreeVar.Alike ids) s s')
    (hvw : v.Alike ids w) : List.Forall₂ (FreeVar.Alike ids) (s.add v) (s'.add w) := by
  have hnames : List.Forall₂ ids s.names s'.names := List.rel_map (fun _ _ hv => hv.1) h
  have hmem : v.name ∈ s.names ↔ w.name ∈ s'.names := List.rel_mem hids hvw.1 hnames
  have hhas (s : FreeVars) (name : String) : s.has name = true ↔ name ∈ s.names := by
    simp [has, names]
  unfold add
  by_cases hv : v.name ∈ s.names
  · rw [if_pos ((hhas s _).mpr hv), if_pos ((hhas s' _).mpr (hmem.mp hv))]
    exact h
  · rw [if_neg fun hv' => hv ((hhas s _).mp hv'), if_neg fun hw => hv (hmem.mpr ((hhas s' _).mp hw))]
    exact List.rel_append h (.cons hvw .nil)

theorem unbound_alike {bound bound' : List String} {l l' : List FreeVar}
    (hbound : List.Forall₂ ids bound bound') (h : List.Forall₂ (FreeVar.Alike ids) l l') :
    List.Forall₂ (FreeVar.Alike ids) (l.filter fun v => v.name ∉ bound)
      (l'.filter fun v => v.name ∉ bound') := by
  refine List.rel_filter (fun v w hvw => ?_) h
  simp only [decide_eq_true_eq]
  exact not_congr (List.rel_mem hids hvw.1 hbound)

end FreeVars

variable {captures captures' : String → List FreeVar}
  (hcaptures : ∀ f f', ids f f' → List.Forall₂ (FreeVar.Alike ids) (captures f) (captures' f'))

include hcaptures

theorem Expr.Alike.occurrences {e e' : Expr} (h : Alike Eq ids noLabels e e') :
    List.Forall₂ (FreeVar.Alike ids) (e.occurrences captures) (e'.occurrences captures') := by
  induction e generalizing e' with
  | letIn i x value body ihv ihb =>
    cases h with
    | letIn hi hx hvalue hbody =>
      exact List.rel_append (ihv hvalue) (FreeVars.unbound_alike hids (.cons hx .nil) (ihb hbody))
  | letFun i f x paramTy resultTy body rest ihb ihr =>
    cases h with
    | letFun hi hf hx hbody hrest =>
      exact List.rel_append (FreeVars.unbound_alike hids (.cons hx (.cons hf .nil)) (ihb hbody))
        (FreeVars.unbound_alike hids (.cons hf .nil) (ihr hrest))
  | apply i f arg ih =>
    cases h with
    | apply hi hf harg => exact List.rel_append (hcaptures _ _ hf) (ih harg)
  | call =>
    cases h with
    | call _ hf => exact hf.elim
  | seq i a b iha ihb =>
    cases h with
    | seq hi ha hb => exact List.rel_append (iha ha) (ihb hb)
  | binary i op a b iha ihb =>
    cases h with
    | binary hi ha hb => exact List.rel_append (iha ha) (ihb hb)
  | var i x =>
    cases h with
    | var hi hx => exact .cons ⟨hx, hi⟩ .nil
  | num | bool =>
    cases h
    exact .nil

theorem Expr.Alike.freeVars {e e' : Expr} {bound bound' : List String}
    (h : Alike Eq ids noLabels e e') (hbound : List.Forall₂ ids bound bound') :
    List.Forall₂ (FreeVar.Alike ids) (e.freeVars captures bound) (e'.freeVars captures' bound') := by
  simp only [Expr.freeVars, Expr.collectFree_eq]
  have hadd : (List.Forall₂ (FreeVar.Alike ids) ⇒ FreeVar.Alike ids ⇒
      List.Forall₂ (FreeVar.Alike ids)) FreeVars.add FreeVars.add :=
    fun _ _ hs _ _ hv => FreeVars.add_alike hids hs hv
  exact List.rel_foldl hadd .nil
    (FreeVars.unbound_alike hids hbound (h.occurrences hids hcaptures))

end

def Param.Alike (ids : String → String → Prop) (p q : Param) : Prop :=
  ids p.name q.name ∧ p.ty = q.ty

structure Function.Alike (ids labels : String → String → Prop) (f g : Function) : Prop where
  name : labels f.name g.name
  params : List.Forall₂ (Param.Alike ids) f.params g.params
  resultTy : f.resultTy = g.resultTy
  body : Expr.Alike Eq ids labels f.body g.body

namespace Lifter

variable {ids labels : String → String → Prop}

def Entry.Alike (ids labels : String → String → Prop) (a b : Entry) : Prop :=
  labels a.name b.name ∧ List.Forall₂ (FreeVar.Alike ids) a.captures b.captures

theorem capturesOf_alike (hids : BiUnique ids) {scope scope' : Scope}
    (h : Entries ids (Entry.Alike ids labels) scope scope') (f f' : String) (hf : ids f f') :
    List.Forall₂ (FreeVar.Alike ids) (capturesOf scope f) (capturesOf scope' f') := by
  have hrel := h.lookup hids hf
  unfold capturesOf
  generalize scope.lookup f = entry, scope'.lookup f' = entry' at hrel
  cases hrel with
  | none => exact .nil
  | some hentry => exact hentry.2

theorem params_alike {vs vs' : FreeVars} {ps ps' : List Param}
    (h : List.Forall₂ (FreeVar.Alike ids) vs vs') (hps : vs.mapM captureParam = .ok ps)
    (hps' : vs'.mapM captureParam = .ok ps') : List.Forall₂ (Param.Alike ids) ps ps' := by
  induction h generalizing ps ps' with
  | nil =>
    cases hps
    cases hps'
    exact .nil
  | @cons v w vs vs' hvw _ ih =>
    simp only [List.mapM_cons, bind_eq_ok, captureParam_eq_ok] at hps hps'
    obtain ⟨p, ⟨t, ht, rfl⟩, qs, hqs, hps⟩ := hps
    obtain ⟨p', ⟨t', ht', rfl⟩, qs', hqs', hps'⟩ := hps'
    cases hps
    cases hps'
    obtain rfl : t = t' := Option.some.inj (ht.symm.trans (hvw.2.trans ht'))
    exact .cons ⟨hvw.1, rfl⟩ (ih hqs hqs')

theorem captureArgs_alike {span span' : Span} {vs vs' : FreeVars}
    (h : List.Forall₂ (FreeVar.Alike ids) vs vs') :
    List.Forall₂ (Expr.Alike Eq ids labels) (vs.map (captureArg span))
      (vs'.map (captureArg span')) :=
  List.rel_map (fun _ _ hvw => Expr.Alike.var hvw.2 hvw.1) h

/-- Trees that are alike are lifted alike: their functions pair up, and by any relation of names
that holds for the pairs and for the functions in sight they are alike again. -/
theorem Lifts.alike (hids : BiUnique ids) {scope scope' : Scope} {e e' r r' : Expr}
    {fs fs' : List Function} (h : Lifts scope e r fs) (h' : Lifts scope' e' r' fs')
    (he : Expr.Alike Eq ids noLabels e e') :
    Paired (fs.map Function.name) (fs'.map Function.name) fun labels =>
      Entries ids (Entry.Alike ids labels) scope scope' →
        Expr.Alike Eq ids labels r r' ∧ List.Forall₂ (Function.Alike ids labels) fs fs' := by
  induction h generalizing scope' e' r' fs' with
  | letIn _ _ ihv ihb =>
    cases he with
    | letIn hi hx hvalue hbody =>
      cases h' with
      | letIn hv' hb' =>
        rw [List.map_append, List.map_append]
        refine ((ihv hv' hvalue).append (ihb hb' hbody)).imp fun labels h hscope => ?_
        obtain ⟨hv, hfs⟩ := h.1 hscope
        obtain ⟨hb, hgs⟩ := h.2 hscope
        exact ⟨.letIn hi hx hv hb, List.rel_append hfs hgs⟩
  | @letFun scope i f x paramTy resultTy body rest body' rest' fs gs name captures params hcaptures
      hparams _ _ ihb ihr =>
    cases he with
    | letFun hi hf hx hbody hrest =>
      cases h' with
      | @letFun _ _ _ _ _ _ _ _ _ _ _ _ name' captures' _ hcaptures' hparams' hb' hr' =>
        rw [List.map_append, List.map_append]
        refine ((ihb hb' hbody).append ((ihr hr' hrest).cons name name')).imp
          fun labels h hscope => ?_
        obtain ⟨hb, hname, hr⟩ := h
        have hvs : List.Forall₂ (FreeVar.Alike ids) captures captures' := by
          rw [hcaptures, hcaptures']
          exact hbody.freeVars hids (capturesOf_alike hids hscope) (.cons hf (.cons hx .nil))
        -- body and rest see the function itself, under its pair of names
        have hentry : Entry.Alike ids labels ⟨name, captures⟩ ⟨name', captures'⟩ := ⟨hname, hvs⟩
        obtain ⟨hbodies, hfs⟩ := hb (hscope.cons hf hentry)
        obtain ⟨hrests, hgs⟩ := hr (hscope.cons hf hentry)
        have hps := params_alike hvs hparams hparams'
        exact ⟨hrests, List.rel_append hfs (.cons ⟨hname, .cons ⟨hx, rfl⟩ hps, rfl, hbodies⟩ hgs)⟩
  | apply hf _ ih =>
    cases he with
    | apply hi hff' harg =>
      cases h' with
      | apply hf' ha' =>
        refine (ih ha' harg).imp fun labels h hscope => ?_
        obtain ⟨ha, hfs⟩ := h hscope
        obtain ⟨entry, hlookup, hname, hvs⟩ := hscope.lookup_eq_some hids hff' hf
        obtain rfl := Option.some.inj (hf'.symm.trans hlookup)
        exact ⟨.call hi hname (.cons ha (captureArgs_alike hvs)), hfs⟩
  | seq _ _ iha ihb =>
    cases he with
    | seq hi ha hb =>
      cases h' with
      | seq ha' hb' =>
        rw [List.map_append, List.map_append]
        refine ((iha ha' ha).append (ihb hb' hb)).imp fun labels h hscope => ?_
        obtain ⟨ha, hfs⟩ := h.1 hscope
        obtain ⟨hb, hgs⟩ := h.2 hscope
        exact ⟨.seq hi ha hb, List.rel_append hfs hgs⟩
  | binary _ _ iha ihb =>
    cases he with
    | binary hi ha hb =>
      cases h' with
      | binary ha' hb' =>
        rw [List.map_append, List.map_append]
        refine ((iha ha' ha).append (ihb hb' hb)).imp fun labels h hscope => ?_
        obtain ⟨ha, hfs⟩ := h.1 hscope
        obtain ⟨hb, hgs⟩ := h.2 hscope
        exact ⟨.binary hi ha hb, List.rel_append hfs hgs⟩
  | var =>
    cases he with
    | var hi hx =>
      cases h'
      exact .nil fun _ _ => ⟨.var hi hx, .nil⟩
  | num =>
    cases he with
    | num hi =>
      cases h'
      exact .nil fun _ _ => ⟨.num hi, .nil⟩
  | bool =>
    cases he with
    | bool hi =>
      cases h'
      exact .nil fun _ _ => ⟨.bool hi, .nil⟩

end Lifter

end LetStack
