import Mathlib
import LetStack.Proofs.CheckedPrograms
import LetStack.Proofs.Scoping

namespace LetStack

open Renaming

namespace Expr

variable {captures : String → List FreeVar}

theorem freeVars_eq_nil_iff {e : Expr} {bound : List String} :
    e.freeVars captures bound = [] ↔ ∀ v ∈ e.occurrences captures, v.name ∈ bound := by
  rw [List.eq_nil_iff_forall_not_mem]
  constructor
  · intro h v hv
    by_contra hbound
    obtain ⟨w, hw, -⟩ := exists_mem_freeVars hv hbound
    exact h w hw
  · intro h v hv
    obtain ⟨hocc, hbound⟩ := mem_occurrences_of_mem_freeVars hv
    exact hbound (h v hocc)

theorem mem_nodesOf {n : Expr} {es : List Expr} : n ∈ nodesOf es ↔ ∃ e ∈ es, n ∈ e.nodes := by
  induction es with
  | nil => simp [nodesOf]
  | cons e es ih => simp [nodesOf, ih]

def functionCount (e : Expr) : Nat := e.nodes.countP fun n => n.form = .letFun

def CallsFit (fs : List Function) (e : Expr) : Prop :=
  ∀ i f args, call i f args ∈ e.nodes → ∃ g ∈ fs, g.name = f ∧ g.arity = args.length

end Expr

namespace Program

/-- Functions can be told apart, also from the main expression; none is bound inside of another, and
every call is one of them and passes what it takes. -/
structure WellFormed (p : Program) : Prop where
  flat : p.Flat
  nodup : (p.functions.map Function.name).Nodup
  mainLabel : "main" ∉ p.functions.map Function.name
  functions : ∀ f ∈ p.functions, f.body.CallsFit p.functions
  main : p.main.CallsFit p.functions

/-- The parameters of each function have different names and are all that its body needs, and the
main expression needs nothing. -/
structure Closed (p : Program) : Prop where
  params : ∀ f ∈ p.functions, (f.params.map Param.name).Nodup
  functions : ∀ f ∈ p.functions, f.body.freeVars (fun _ => []) (f.params.map Param.name) = []
  main : p.main.freeVars (fun _ => []) [] = []

end Program

namespace Lifter

variable {scope : Scope} {e e' : Expr} {fs : List Function}

/-- What holds of each function as it is made holds of all that lifting gives. -/
theorem Lifts.forall_functions {P : Function → Prop}
    (hP : ∀ {scope : Scope} {i : Info} {f x : Name} {paramTy resultTy : Ty} {body body' : Expr}
      {fs : List Function} {name : String} {captures : FreeVars} {params : List Param},
      captures = body.freeVars (capturesOf scope) [f.id, x.id] →
      captures.mapM captureParam = .ok params →
      Lifts ((f.id, ⟨name, captures⟩) :: scope) body body' fs →
      P (lifted i x paramTy resultTy name params body'))
    (h : Lifts scope e e' fs) : ∀ g ∈ fs, P g := by
  induction h with
  | letIn _ _ iha ihb | seq _ _ iha ihb | binary _ _ iha ihb =>
    exact List.forall_mem_append.mpr ⟨iha, ihb⟩
  | letFun hcaptures hparams hbody _ ihb ihr =>
    exact List.forall_mem_append.mpr
      ⟨ihb, List.forall_mem_cons.mpr ⟨hP hcaptures hparams hbody, ihr⟩⟩
  | apply _ _ ih => exact ih
  | var | num | bool => exact List.forall_mem_nil _

theorem Lifts.flat (h : Lifts scope e e' fs) : e'.Flat := by
  induction h with
  | letIn _ _ iha ihb | seq _ _ iha ihb | binary _ _ iha ihb => exact ⟨iha, ihb⟩
  | letFun _ _ _ _ _ ihr => exact ihr
  | apply _ _ ih => exact ⟨ih, captureArgs_flat⟩
  | var | num | bool => trivial

theorem Lifts.functions_flat (h : Lifts scope e e' fs) : ∀ g ∈ fs, g.body.Flat :=
  h.forall_functions fun _ _ hbody => hbody.flat

/-- No capture has the name of another or of the parameter that the function was written with. -/
theorem Lifts.params_nodup (h : Lifts scope e e' fs) :
    ∀ g ∈ fs, (g.params.map Param.name).Nodup := by
  refine h.forall_functions ?_
  intro scope i f x paramTy resultTy body body' fs name captures params hcaptures hparams _
  simp only [lifted, List.map_cons, (params_of_mapM hparams).1, List.nodup_cons]
  constructor
  · intro hx
    obtain ⟨v, hv, hname⟩ := List.mem_map.mp hx
    rw [hcaptures] at hv
    exact (Expr.mem_occurrences_of_mem_freeVars hv).2 (by simp [hname])
  · rw [hcaptures]
    exact body.nodup_names_freeVars _

theorem Lifts.length_eq (h : Lifts scope e e' fs) : fs.length = e.functionCount := by
  induction h with
  | letIn _ _ iha ihb | seq _ _ iha ihb | binary _ _ iha ihb =>
    rw [List.length_append, iha, ihb]
    simp [Expr.functionCount, Expr.nodes, Expr.form]
  | letFun _ _ _ _ ihb ihr =>
    rw [List.length_append, List.length_cons, ihb, ihr]
    simp only [Expr.functionCount, Expr.nodes, Expr.form, List.countP_cons, List.countP_append,
      decide_true, if_true]
    omega
  | apply _ _ ih =>
    rw [ih]
    simp [Expr.functionCount, Expr.nodes, Expr.form]
  | var | num | bool => simp [Expr.functionCount, Expr.nodes, Expr.form]

/-- Each entry has a function in the list, with a parameter for each capture and the one that it was
written with. -/
def Served (all : List Function) (scope : Scope) : Prop :=
  ∀ f entry, scope.lookup f = some entry →
    ∃ g ∈ all, g.name = entry.name ∧ g.arity = entry.captures.length + 1

theorem Served.cons {all : List Function} (h : Served all scope) {f : String} {entry : Entry}
    (hentry : ∃ g ∈ all, g.name = entry.name ∧ g.arity = entry.captures.length + 1) :
    Served all ((f, entry) :: scope) := by
  intro g entry' hg
  by_cases hgf : g = f
  · obtain rfl : entry = entry' := by simpa [hgf] using hg
    exact hentry
  · exact h g entry' (by rwa [lookup_cons_of_ne hgf] at hg)

theorem captureArgs_nodes {span : Span} {vs : FreeVars} {i : Info} {f : String} {args : List Expr} :
    .call i f args ∉ Expr.nodesOf (vs.map (captureArg span)) := by
  intro h
  obtain ⟨a, ha, h⟩ := Expr.mem_nodesOf.mp h
  obtain ⟨v, -, rfl⟩ := List.mem_map.mp ha
  simp [captureArg, Expr.nodes] at h

/-- Where all entries of the scope and all functions taken out are in the list, calls fit it. -/
theorem Lifts.callsFit {all : List Function} (h : Lifts scope e e' fs) (hscope : Served all scope)
    (hfs : ∀ g ∈ fs, g ∈ all) : e'.CallsFit all ∧ ∀ g ∈ fs, g.body.CallsFit all := by
  induction h with
  | letIn _ _ iha ihb | seq _ _ iha ihb | binary _ _ iha ihb =>
    rw [List.forall_mem_append] at hfs ⊢
    obtain ⟨ha, hafs⟩ := iha hscope hfs.1
    obtain ⟨hb, hbfs⟩ := ihb hscope hfs.2
    refine ⟨fun j g args hcall => ?_, hafs, hbfs⟩
    simp only [Expr.nodes, List.mem_cons, List.mem_append, reduceCtorEq, false_or] at hcall
    exact hcall.elim (ha j g args) (hb j g args)
  | @letFun scope i f x _ _ _ _ _ _ _ _ name captures params _ hparams _ _ ihb ihr =>
    rw [List.forall_mem_append, List.forall_mem_cons] at hfs ⊢
    obtain ⟨hfs, hself, hgs⟩ := hfs
    -- A call passes the argument and one value for each capture.
    have hlength : params.length = captures.length := by
      simpa using congrArg List.length (params_of_mapM hparams).1
    have hscope' : Served all ((f.id, ⟨name, captures⟩) :: scope) :=
      hscope.cons ⟨_, hself, rfl, by simp [Function.arity, lifted, hlength]⟩
    obtain ⟨hbody, hbodyFs⟩ := ihb hscope' hfs
    obtain ⟨hrest, hrestFs⟩ := ihr hscope' hgs
    exact ⟨hrest, hbodyFs, hbody, hrestFs⟩
  | @apply scope i f arg arg' fs entry hf _ ih =>
    obtain ⟨harg, hargFs⟩ := ih hscope hfs
    refine ⟨fun j g args hcall => ?_, hargFs⟩
    simp only [Expr.nodes, Expr.nodesOf, List.mem_cons, List.mem_append, captureArgs_nodes, or_false,
      Expr.call.injEq] at hcall
    rcases hcall with ⟨-, rfl, rfl⟩ | hcall
    · simpa using hscope f.id entry hf
    · exact harg j g args hcall
  | var | num | bool => exact ⟨fun i f args hcall => by simp [Expr.nodes] at hcall, by simp⟩

end Lifter

def FreeVar.BoundIn (around : List Binder) (v : FreeVar) : Prop :=
  ∃ b ∈ around, b.kind = .value ∧ b.id = v.name

namespace FreeVar.BoundIn

variable {around : List Binder} {v : FreeVar}

theorem cons (h : v.BoundIn around) (b : Binder) : v.BoundIn (b :: around) := by
  obtain ⟨c, hc, hbinds⟩ := h
  exact ⟨c, List.mem_cons_of_mem _ hc, hbinds⟩

theorem of_value {x : Name} (h : v.BoundIn (x.binder .value :: around)) (hx : v.name ≠ x.id) :
    v.BoundIn around := by
  obtain ⟨b, hb, hkind, hid⟩ := h
  rcases List.mem_cons.mp hb with rfl | hb
  · exact absurd hid.symm hx
  · exact ⟨b, hb, hkind, hid⟩

theorem of_function {f : Name} (h : v.BoundIn (f.binder .function :: around)) :
    v.BoundIn around := by
  obtain ⟨b, hb, hkind, hid⟩ := h
  rcases List.mem_cons.mp hb with rfl | hb
  · cases hkind
  · exact ⟨b, hb, hkind, hid⟩

theorem ne_of_notMem (h : v.BoundIn around) {f : String} (hf : f ∉ ids around) : v.name ≠ f := by
  obtain ⟨b, hb, -, hid⟩ := h
  rintro rfl
  exact hf (hid ▸ List.mem_map_of_mem hb)

end FreeVar.BoundIn

/-- Where every use is seen, every free occurrence is that of a value bound around the tree. -/
theorem Expr.occurrences_bound {captures : String → List FreeVar} {around : List Binder} {e : Expr}
    (hseen : ∀ u ∈ e.uses around, u.Seen) (hcap : ∀ f, ∀ v ∈ captures f, v.BoundIn around) :
    ∀ v ∈ e.occurrences captures, v.BoundIn around := by
  induction e generalizing around with
  | letIn i x value body ihv ihb =>
    simp only [uses, List.forall_mem_append] at hseen
    intro v hv
    simp only [occurrences, List.mem_append, List.mem_filter, List.mem_singleton,
      decide_eq_true_eq] at hv
    rcases hv with hv | ⟨hv, hvx⟩
    · exact ihv hseen.1 hcap v hv
    · exact (ihb hseen.2 (fun f w hw => (hcap f w hw).cons _) v hv).of_value hvx
  | letFun i f x paramTy resultTy body rest ihb ihr =>
    simp only [uses, List.forall_mem_append] at hseen
    intro v hv
    simp only [occurrences, List.mem_append, List.mem_filter, List.mem_cons, List.not_mem_nil,
      or_false, decide_eq_true_eq, not_or] at hv
    rcases hv with ⟨hv, hvx, -⟩ | ⟨hv, -⟩
    · have hbody := ihb hseen.1 (fun g w hw => ((hcap g w hw).cons _).cons _) v hv
      exact (hbody.of_value hvx).of_function
    · exact (ihr hseen.2 (fun g w hw => (hcap g w hw).cons _) v hv).of_function
  | apply i f arg ih =>
    simp only [uses, List.forall_mem_cons] at hseen
    exact List.forall_mem_append.mpr ⟨hcap f.id, ih hseen.2 hcap⟩
  | call i f args ih =>
    intro v hv
    obtain ⟨a, ha, hv⟩ := mem_occurrencesOf.mp hv
    exact ih a ha (fun u hu => hseen u (mem_usesOf.mpr ⟨a, ha, hu⟩)) hcap v hv
  | seq i a b iha ihb | binary i op a b iha ihb =>
    simp only [uses, List.forall_mem_append] at hseen
    exact List.forall_mem_append.mpr ⟨iha hseen.1 hcap, ihb hseen.2 hcap⟩
  | var i x =>
    simp only [uses, List.forall_mem_singleton] at hseen
    simp only [occurrences, List.forall_mem_singleton]
    exact hseen
  | num | bool => simp [occurrences]

def Expr.Needs (e : Expr) (names : List String) : Prop :=
  ∀ v ∈ e.occurrences (fun _ => []), v.name ∈ names

namespace Lifter

/-- What supplies a tree with all that it uses, the captures of its callees included, supplies its
lifted form, and each function is supplied by its parameters. -/
theorem Lifts.needs {scope : Scope} {e e' : Expr} {fs : List Function} {around : List Binder}
    {names : List String} (h : Lifts scope e e' fs) (hseen : ∀ u ∈ e.uses around, u.Seen)
    (hshadow : e.NoShadow (ids around)) (hcap : ∀ f, ∀ v ∈ capturesOf scope f, v.BoundIn around)
    (hnames : ∀ v ∈ e.occurrences (capturesOf scope), v.name ∈ names) :
    e'.Needs names ∧ ∀ g ∈ fs, g.body.Needs (g.params.map Param.name) := by
  induction h generalizing around names with
  | @letIn scope i x value body value' body' fs gs _ _ ihv ihb =>
    simp only [Expr.uses, List.forall_mem_append] at hseen
    obtain ⟨hvalue, hx, hbody⟩ := hshadow
    simp only [Expr.occurrences, List.forall_mem_append] at hnames
    obtain ⟨hv, hvfs⟩ := ihv hseen.1 hvalue hcap hnames.1
    have hbodyNames : ∀ v ∈ body.occurrences (capturesOf scope), v.name ∈ x.id :: names := by
      intro v hv
      by_cases hvx : v.name = x.id
      · simp [hvx]
      · exact List.mem_cons_of_mem _ (hnames.2 v (by simp [hv, hvx]))
    obtain ⟨hb, hbfs⟩ := ihb hseen.2 hbody (fun f v hv => (hcap f v hv).cons _) hbodyNames
    refine ⟨?_, List.forall_mem_append.mpr ⟨hvfs, hbfs⟩⟩
    simp only [Expr.Needs, Expr.occurrences, List.forall_mem_append]
    refine ⟨hv, fun v hv => ?_⟩
    obtain ⟨hv, hvx⟩ := List.mem_filter.mp hv
    exact (List.mem_cons.mp (hb v hv)).resolve_left (by simpa using hvx)
  | @letFun scope i f x paramTy resultTy body rest body' rest' fs gs name captures params hcaptures
      hparams _ _ ihb ihr =>
    simp only [Expr.uses, List.forall_mem_append] at hseen
    obtain ⟨hf, hx, hbody, hrest⟩ := hshadow
    simp only [Expr.occurrences, List.forall_mem_append] at hnames
    have hbound := Expr.occurrences_bound hseen.1 fun g v hv => ((hcap g v hv).cons _).cons _
    have hboundRest := Expr.occurrences_bound hseen.2 fun g v hv => (hcap g v hv).cons _
    have hcapture : ∀ v ∈ captures, v ∈ body.occurrences (capturesOf scope) ∧ v.name ≠ f.id ∧
        v.name ≠ x.id := by
      intro v hv
      rw [hcaptures] at hv
      simpa using Expr.mem_occurrences_of_mem_freeVars hv
    have hcapBound : ∀ v ∈ captures, v.BoundIn around := by
      intro v hv
      obtain ⟨hocc, -, hvx⟩ := hcapture v hv
      exact ((hbound v hocc).of_value hvx).of_function
    have hcap' : ∀ g, ∀ v ∈ capturesOf ((f.id, ⟨name, captures⟩) :: scope) g,
        v.BoundIn (f.binder .function :: around) := fun g v hv =>
      ((mem_capturesOf_cons hv).elim (hcap g v) (hcapBound v)).cons _
    have hbodyNames : ∀ v ∈ body.occurrences (capturesOf ((f.id, ⟨name, captures⟩) :: scope)),
        v.name ∈ x.id :: captures.names := by
      intro v hv
      rcases Expr.mem_occurrences_mono (fun _ _ => mem_capturesOf_cons) hv with hv | hv
      · by_cases hvx : v.name = x.id
        · simp [hvx]
        -- a value of the function's name would be bound around the function, which hides nothing
        · have hvf := ((hbound v hv).of_value hvx).of_function.ne_of_notMem hf
          have hfree : v.name ∉ [f.id, x.id] := by simp [hvf, hvx]
          obtain ⟨w, hw, hwv⟩ := Expr.exists_mem_freeVars hv hfree
          exact List.mem_cons_of_mem _ (hwv ▸ List.mem_map_of_mem (hcaptures ▸ hw))
      · exact List.mem_cons_of_mem _ (List.mem_map_of_mem hv)
    have hrestNames : ∀ v ∈ rest.occurrences (capturesOf ((f.id, ⟨name, captures⟩) :: scope)),
        v.name ∈ names := by
      intro v hv
      rcases Expr.mem_occurrences_mono (fun _ _ => mem_capturesOf_cons) hv with hv | hv
      · have hvf := (hboundRest v hv).of_function.ne_of_notMem hf
        exact hnames.2 v (by simp [hv, hvf])
      · obtain ⟨hocc, hvf, hvx⟩ := hcapture v hv
        exact hnames.1 v (by simp [hocc, hvf, hvx])
    obtain ⟨hb, hbfs⟩ := ihb hseen.1 hbody (fun g v hv => (hcap' g v hv).cons _) hbodyNames
    obtain ⟨hr, hrfs⟩ := ihr hseen.2 hrest hcap' hrestNames
    refine ⟨hr, List.forall_mem_append.mpr ⟨hbfs, List.forall_mem_cons.mpr ⟨?_, hrfs⟩⟩⟩
    rw [lifted, List.map_cons, (params_of_mapM hparams).1]
    exact hb
  | @apply scope i f arg arg' fs entry hf _ ih =>
    simp only [Expr.uses, List.forall_mem_cons] at hseen
    simp only [Expr.occurrences, List.forall_mem_append, capturesOf, hf, Option.map_some,
      Option.getD_some] at hnames
    obtain ⟨ha, hafs⟩ := ih hseen.2 hshadow hcap hnames.2
    refine ⟨?_, hafs⟩
    simp only [Expr.Needs, Expr.occurrences, Expr.occurrencesOf, List.forall_mem_append]
    refine ⟨ha, fun v hv => ?_⟩
    obtain ⟨a, harg, hv⟩ := Expr.mem_occurrencesOf.mp hv
    obtain ⟨w, hw, rfl⟩ := List.mem_map.mp harg
    simp only [captureArg, Expr.occurrences, List.mem_singleton] at hv
    exact hv ▸ hnames.1 w hw
  | seq _ _ iha ihb | binary _ _ iha ihb =>
    simp only [Expr.uses, List.forall_mem_append] at hseen
    simp only [Expr.occurrences, List.forall_mem_append] at hnames
    obtain ⟨ha, hafs⟩ := iha hseen.1 hshadow.1 hcap hnames.1
    obtain ⟨hb, hbfs⟩ := ihb hseen.2 hshadow.2 hcap hnames.2
    exact ⟨List.forall_mem_append.mpr ⟨ha, hb⟩, List.forall_mem_append.mpr ⟨hafs, hbfs⟩⟩
  | var => exact ⟨hnames, by simp⟩
  | num | bool => simp [Expr.Needs, Expr.occurrences]

end Lifter

/-- What lifting gives is well formed and has one function for each that the tree binds. If the tree
passes the check and its binders all have different names, the program is closed as well. -/
theorem lift_gives_wellFormed {e : Expr} {p : Program} (hsurface : e.Surface) (h : e.lift = .ok p) :
    p.WellFormed ∧ p.functions.length = e.functionCount ∧
      (e.binderIds.Nodup → (∃ t, e.typecheck.outcome = .ok t) → p.Closed) := by
  simp only [Expr.lift, bind_eq_ok] at h
  obtain ⟨⟨main, l⟩, hwalk, h⟩ := h
  cases h
  obtain ⟨fs, hlifts, hfs, hnamed⟩ := Lifter.walk_lifts hsurface hwalk
  obtain rfl : l.functions = fs := by simpa using hfs
  obtain ⟨hmain, hfunctions⟩ := hlifts.callsFit (by intro f entry hf; simp at hf) fun g hg => hg
  refine ⟨⟨⟨hlifts.functions_flat, hlifts.flat⟩, hnamed.nodup, hnamed.mainLabel, hfunctions, hmain⟩,
    hlifts.length_eq, ?_⟩
  rintro hnodup ⟨t, ht⟩
  have hcap : ∀ f, ∀ v ∈ Lifter.capturesOf [] f, v.BoundIn [] := by simp [Lifter.capturesOf]
  have hseen := Expr.uses_seen_of_typecheck ht
  have hshadow : e.NoShadow (ids []) := Expr.noShadow_of_nodup e [] (by simp) hnodup
  have hnames : ∀ v ∈ e.occurrences (Lifter.capturesOf []), v.name ∈ ([] : List String) := by
    intro v hv
    obtain ⟨b, hb, -⟩ := Expr.occurrences_bound hseen hcap v hv
    cases hb
  obtain ⟨hmain, hfunctions⟩ := hlifts.needs hseen hshadow hcap hnames
  exact ⟨hlifts.params_nodup, fun g hg => Expr.freeVars_eq_nil_iff.mpr (hfunctions g hg),
    Expr.freeVars_eq_nil_iff.mpr hmain⟩

def captureChain : String :=
  "let a = 1 in let f x : num -> num = (let g y : num -> num = x + y + a in g x) in " ++
    "let f z : num -> num = f z in f 2"

theorem lift_gives_wellFormed_captureChain : ∃ e p,
    (parse captureChain).map (fun e => e.resolve.typecheck.item) = .ok e ∧ e.Surface ∧
    e.lift = .ok p ∧
      e.binderIds.Nodup ∧ (∃ t, e.typecheck.outcome = .ok t) ∧ p.WellFormed ∧
        p.functions.length = 3 ∧
      p.Closed := by
  have hresults : (parse captureChain).toOption.map (fun e => e.resolve.typecheck.outcome) =
      some (.ok .num) := by cbv
  obtain ⟨e, hparse, hcheck⟩ := exists_of_parse hresults
  have hitem : (parse captureChain).toOption.map (fun e => let e' := e.resolve.typecheck.item
      (e'.binderIds, e'.typecheck.outcome, e'.functionCount)) =
        some (["a", "f", "x", "g", "y", "f_1", "z"], .ok .num, 3) := by cbv
  simp only [hparse, Except.toOption, Option.map_some, Option.some.injEq, Prod.mk.injEq] at hitem
  obtain ⟨hids, htype, hcount⟩ := hitem
  obtain ⟨p, hlift, -⟩ := Expr.lift_checked hcheck
  have hsurface := (Expr.typecheck_typed hcheck).1.surface rfl
  have hnodup : e.resolve.typecheck.item.binderIds.Nodup := by
    rw [hids]
    decide
  obtain ⟨hwell, hlength, hclosed⟩ := lift_gives_wellFormed hsurface hlift
  exact ⟨_, p, by rw [hparse]; rfl, hsurface, hlift, hnodup, ⟨_, htype⟩, hwell, hlength.trans hcount,
    hclosed hnodup ⟨_, htype⟩⟩

end LetStack
