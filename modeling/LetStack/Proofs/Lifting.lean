import LetStack.Code.Module
import LetStack.Program.Lifting
import LetStack.Proofs.FreeVars
import LetStack.Proofs.Renaming
import LetStack.Proofs.Soundness

namespace LetStack

theorem bind_eq_ok {ε α β : Type} {x : Except ε α} {f : α → Except ε β} {b : β} :
    x >>= f = .ok b ↔ ∃ a, x = .ok a ∧ f a = .ok b := by
  cases x <;> simp [bind, Except.bind]

/-- A name among the parameters, or else outside, has the type that all its parameters have. -/
theorem Scopes.params_lookup {ps : List Param} {s : Scopes} {y : String} {t : Ty}
    (hall : ∀ p ∈ ps, p.name = y → p.ty = t)
    (h : (∃ p ∈ ps, p.name = y) ∨ s.vars.lookup y = some t) :
    (s.params ps).vars.lookup y = some t := by
  unfold params
  induction ps generalizing s with
  | nil => simpa using h
  | cons p ps ih =>
    refine ih (fun q hq => hall q (by simp [hq])) ?_
    by_cases hp : p.name = y
    · right
      simp [hp, ← hall p (by simp) hp]
    · simpa [hp, lookup_cons_of_ne (Ne.symm hp)] using h

theorem Scopes.mem_of_params_lookup {ps : List Param} {s : Scopes} {y : String} {t : Ty}
    (h : (s.params ps).vars.lookup y = some t) :
    y ∈ ps.map Param.name ∨ s.vars.lookup y = some t := by
  unfold params at h
  induction ps generalizing s with
  | nil => exact .inr h
  | cons p ps ih =>
    by_cases hp : y = p.name
    · exact .inl (by simp [hp])
    · simpa [hp, lookup_cons_of_ne hp] using ih h

namespace Expr

def Surface : Expr → Prop
  | letIn _ _ a b | letFun _ _ _ _ _ a b => a.Surface ∧ b.Surface
  | apply _ _ arg => arg.Surface
  | call .. => False
  | seq _ a b | binary _ _ a b => a.Surface ∧ b.Surface
  | var .. | num .. | bool .. => True

theorem Typed.surface {s : Scopes} {e : Expr} {t : Ty} (h : Typed s e t) (hs : s.lifted = []) :
    e.Surface := by
  induction e generalizing s t with
  | letIn i x value body ihv ihb =>
    cases h with
    | letIn _ hv hb => exact ⟨ihv hv hs, ihb hb hs⟩
  | letFun i f x paramTy resultTy body rest ihb ihr =>
    cases h with
    | letFun _ hb hr => exact ⟨ihb hb hs, ihr hr hs⟩
  | apply i f arg ih =>
    cases h with
    | apply _ _ ha => exact ih ha hs
  | call i f args ih =>
    cases h with
    | call _ hf _ => simp [hs] at hf
  | seq i a b iha ihb =>
    cases h with
    | seq _ ha hb => exact ⟨iha ha hs, ihb hb hs⟩
  | binary i op a b iha ihb =>
    cases h with
    | binary _ ha hb _ => exact ⟨iha ha hs, ihb hb hs⟩
  | var | num | bool => trivial

end Expr

namespace Lifter

def lifted (i : Info) (x : Name) (paramTy resultTy : Ty) (name : String) (params : List Param)
    (body : Expr) : Function :=
  ⟨name, ⟨x.id, x.display, paramTy⟩ :: params, resultTy, body, i.span⟩

/-- `Lifts scope e e' fs`: with the functions of `scope` in sight, `e'` is `e` with all functions
taken out, and `fs` are these functions, inner ones first. -/
inductive Lifts : Scope → Expr → Expr → List Function → Prop
  | letIn {scope : Scope} {i : Info} {x : Name} {value body value' body' : Expr}
      {fs gs : List Function} (hvalue : Lifts scope value value' fs)
      (hbody : Lifts scope body body' gs) :
      Lifts scope (.letIn i x value body) (.letIn i x value' body') (fs ++ gs)
  | letFun {scope : Scope} {i : Info} {f x : Name} {paramTy resultTy : Ty}
      {body rest body' rest' : Expr} {fs gs : List Function} {name : String} {captures : FreeVars}
      {params : List Param} (hcaptures : captures = body.freeVars (capturesOf scope) [f.id, x.id])
      (hparams : captures.mapM captureParam = .ok params)
      (hbody : Lifts ((f.id, ⟨name, captures⟩) :: scope) body body' fs)
      (hrest : Lifts ((f.id, ⟨name, captures⟩) :: scope) rest rest' gs) :
      Lifts scope (.letFun i f x paramTy resultTy body rest) rest'
        (fs ++ lifted i x paramTy resultTy name params body' :: gs)
  | apply {scope : Scope} {i : Info} {f : Name} {arg arg' : Expr} {fs : List Function}
      {entry : Entry} (hf : scope.lookup f.id = some entry) (harg : Lifts scope arg arg' fs) :
      Lifts scope (.apply i f arg)
        (.call i entry.name (arg' :: entry.captures.map (captureArg i.span))) fs
  | seq {scope : Scope} {i : Info} {first second first' second' : Expr} {fs gs : List Function}
      (hfirst : Lifts scope first first' fs) (hsecond : Lifts scope second second' gs) :
      Lifts scope (.seq i first second) (.seq i first' second') (fs ++ gs)
  | binary {scope : Scope} {i : Info} {op : BinOp} {left right left' right' : Expr}
      {fs gs : List Function} (hleft : Lifts scope left left' fs)
      (hright : Lifts scope right right' gs) :
      Lifts scope (.binary i op left right) (.binary i op left' right') (fs ++ gs)
  | var {scope : Scope} {i : Info} {x : Name} : Lifts scope (.var i x) (.var i x) []
  | num {scope : Scope} {i : Info} {n : Word} : Lifts scope (.num i n) (.num i n) []
  | bool {scope : Scope} {i : Info} {b : Bool} : Lifts scope (.bool i b) (.bool i b) []

structure Named (l l' : Lifter) (fs : List Function) : Prop where
  used : ∀ name ∈ l.used, name ∈ l'.used
  fresh : ∀ f ∈ fs, f.name ∉ l.used ∧ f.name ∈ l'.used
  nodup : (fs.map Function.name).Nodup
  numbered : ∀ f ∈ fs, ∃ base k, f.name = Text.numbered base k

namespace Named

theorem nil (l : Lifter) : Named l l [] := ⟨fun _ h => h, by simp, by simp, by simp⟩

/-- Which functions are kept says nothing about the names given out. -/
theorem functions {l l' : Lifter} {fs : List Function} (h : Named l l' fs) (gs : List Function) :
    Named l { l' with functions := gs } fs :=
  ⟨h.used, h.fresh, h.nodup, h.numbered⟩

theorem append {l₁ l₂ l₃ : Lifter} {fs gs : List Function} (h : Named l₁ l₂ fs)
    (h' : Named l₂ l₃ gs) : Named l₁ l₃ (fs ++ gs) := by
  refine ⟨fun name hn => h'.used _ (h.used _ hn), ?_, ?_, ?_⟩
  · intro f hf
    rcases List.mem_append.mp hf with hf | hf
    · exact ⟨(h.fresh f hf).1, h'.used _ (h.fresh f hf).2⟩
    · exact ⟨fun hu => (h'.fresh f hf).1 (h.used _ hu), (h'.fresh f hf).2⟩
  · rw [List.map_append, List.nodup_append]
    refine ⟨h.nodup, h'.nodup, ?_⟩
    intro a ha b hb hab
    obtain ⟨f, hf, rfl⟩ := List.mem_map.mp ha
    obtain ⟨g, hg, rfl⟩ := List.mem_map.mp hb
    exact (h'.fresh g hg).1 (hab ▸ (h.fresh f hf).2)
  · intro f hf
    rcases List.mem_append.mp hf with hf | hf
    · exact h.numbered f hf
    · exact h'.numbered f hf

theorem perm {l l' : Lifter} {fs gs : List Function} (h : Named l l' fs) (hp : fs.Perm gs) :
    Named l l' gs :=
  ⟨h.used, fun f hf => h.fresh f (hp.mem_iff.mpr hf), (hp.map _).nodup_iff.mp h.nodup,
    fun f hf => h.numbered f (hp.mem_iff.mpr hf)⟩

/-- A name with a number is not the label of the main expression. -/
theorem mainLabel {l l' : Lifter} {fs : List Function} (h : Named l l' fs) :
    Module.mainLabel ∉ fs.map Function.name := by
  intro hmem
  obtain ⟨f, hf, hname⟩ := List.mem_map.mp hmem
  obtain ⟨base, k, hk⟩ := h.numbered f hf
  exact Text.numbered_ne_of_notMem (by decide) (hk.symm.trans hname)

theorem one {l : Lifter} {base : String} {f : Function} (hf : f.name = (Lifter.fresh base l).1) :
    Named l (Lifter.fresh base l).2 [f] := by
  refine ⟨fun _ hn => List.mem_cons_of_mem _ hn, ?_, by simp, ?_⟩
  · intro g hg
    rw [List.mem_singleton.mp hg, hf]
    exact ⟨Text.numbered_nextFree_notMem l.used base _, List.mem_cons_self⟩
  · intro g hg
    rw [List.mem_singleton.mp hg]
    exact ⟨base, _, hf⟩

end Named

/-- Lifting produces what the relation says and gives every function a name of its own. -/
theorem walk_lifts {e e' : Expr} {scope : Scope} {l l' : Lifter} (hsurface : e.Surface)
    (h : walk scope e l = .ok (e', l')) :
    ∃ fs, Lifts scope e e' fs ∧ l'.functions = l.functions ++ fs ∧ Named l l' fs := by
  induction e generalizing scope e' l l' with
  | letIn i x value body ihv ihb =>
    simp only [walk, bind_eq_ok] at h
    obtain ⟨⟨value', l₁⟩, hv, ⟨body', l₂⟩, hb, h⟩ := h
    cases h
    obtain ⟨fs, hfs, hl₁, hn₁⟩ := ihv hsurface.1 hv
    obtain ⟨gs, hgs, hl₂, hn₂⟩ := ihb hsurface.2 hb
    exact ⟨fs ++ gs, .letIn hfs hgs, by rw [hl₂, hl₁, List.append_assoc], hn₁.append hn₂⟩
  | letFun i f x paramTy resultTy body rest ihb ihr =>
    simp only [walk, bind_eq_ok] at h
    obtain ⟨params, hparams, ⟨body', l₁⟩, hb, hr⟩ := h
    obtain ⟨fs, hfs, hl₁, hn₁⟩ := ihb hsurface.1 hb
    obtain ⟨gs, hgs, hl₂, hn₂⟩ := ihr hsurface.2 hr
    refine ⟨_, .letFun rfl hparams hfs hgs, ?_, ?_⟩
    · rw [hl₂, hl₁]
      simp [lifted, Lifter.fresh]
    · -- the function gets its name before those in its body, and is listed behind them
      have hf : Named l (Lifter.fresh f.id l).2
        [lifted i x paramTy resultTy (Lifter.fresh f.id l).1 params body'] := .one rfl
      have hbody := (hf.append hn₁).perm List.perm_append_comm
      simpa using (hbody.functions _).append hn₂
  | apply i f arg ih =>
    simp only [walk] at h
    split at h
    next => cases h
    next entry hf =>
      simp only [bind_eq_ok] at h
      obtain ⟨⟨arg', l₁⟩, ha, h⟩ := h
      cases h
      obtain ⟨fs, hfs, hl₁, hn₁⟩ := ih hsurface ha
      exact ⟨fs, .apply hf hfs, hl₁, hn₁⟩
  | call => exact hsurface.elim
  | seq i first second ihf ihs =>
    simp only [walk, bind_eq_ok] at h
    obtain ⟨⟨first', l₁⟩, hf, ⟨second', l₂⟩, hs, h⟩ := h
    cases h
    obtain ⟨fs, hfs, hl₁, hn₁⟩ := ihf hsurface.1 hf
    obtain ⟨gs, hgs, hl₂, hn₂⟩ := ihs hsurface.2 hs
    exact ⟨fs ++ gs, .seq hfs hgs, by rw [hl₂, hl₁, List.append_assoc], hn₁.append hn₂⟩
  | binary i op left right ihl ihr =>
    simp only [walk, bind_eq_ok] at h
    obtain ⟨⟨left', l₁⟩, hl, ⟨right', l₂⟩, hr, h⟩ := h
    cases h
    obtain ⟨fs, hfs, hl₁, hn₁⟩ := ihl hsurface.1 hl
    obtain ⟨gs, hgs, hl₂, hn₂⟩ := ihr hsurface.2 hr
    exact ⟨fs ++ gs, .binary hfs hgs, by rw [hl₂, hl₁, List.append_assoc], hn₁.append hn₂⟩
  | var i x => cases h; exact ⟨[], .var, by simp, .nil l⟩
  | num i n => cases h; exact ⟨[], .num, by simp, .nil l⟩
  | bool i b => cases h; exact ⟨[], .bool, by simp, .nil l⟩

/-- Every function that the scopes know is in sight, and what its calls pass on is typed there. -/
structure Covers (scope : Scope) (s : Scopes) : Prop where
  known : ∀ f a, s.funs.lookup f = some a → ∃ entry, scope.lookup f = some entry
  captures : ∀ f, ∀ v ∈ capturesOf scope f, v.TypedIn s

theorem mem_capturesOf_cons {scope : Scope} {f g name : String} {captures : FreeVars} {v : FreeVar}
    (h : v ∈ capturesOf ((f, ⟨name, captures⟩) :: scope) g) :
    v ∈ capturesOf scope g ∨ v ∈ captures := by
  by_cases hg : g = f
  · subst hg
    exact .inr (by simpa [capturesOf] using h)
  · exact .inl (by simpa only [capturesOf, lookup_cons_of_ne hg] using h)

namespace Covers

variable {scope : Scope} {s : Scopes} {names : List String}

theorem var (h : Covers scope s) {x : String} {t : Ty} (hs : s.Within names) (hx : x ∉ names) :
    Covers scope (s.var x t) :=
  ⟨h.known, fun f v hv => (h.captures f v hv).weaken hs hx⟩

theorem arrow (h : Covers scope s) (f name : String) (a : Arrow) {captures : FreeVars}
    (hcaptures : ∀ v ∈ captures, v.TypedIn s) :
    Covers ((f, ⟨name, captures⟩) :: scope) (s.arrow f a) := by
  refine ⟨?_, fun g v hv => (mem_capturesOf_cons hv).elim (h.captures g v) (hcaptures v)⟩
  intro g b hg
  by_cases hgf : g = f
  · exact ⟨⟨name, captures⟩, by simp [hgf]⟩
  · simp only [Scopes.arrow_funs, lookup_cons_of_ne hgf] at hg ⊢
    exact h.known g b hg

/-- The captures of a function are typed where the function is bound. -/
theorem freeVars (h : Covers scope s) (hs : s.Within names) {f x : String} {a : Arrow} {t u : Ty}
    {body : Expr} (hbody : body.Typed ((s.arrow f a).var x t) u) (hx : x ∉ f :: names)
    (hshadow : body.NoShadow (x :: f :: names)) :
    ∀ v ∈ body.freeVars (capturesOf scope) [f, x], v.TypedIn s := by
  intro v hv
  obtain ⟨hocc, hbound⟩ := Expr.mem_occurrences_of_mem_freeVars hv
  have hs' : (s.arrow f a).Within (f :: names) := hs.arrow f a
  have harrow : ∀ g, ∀ w ∈ capturesOf scope g, w.TypedIn (s.arrow f a) := h.captures
  have htyped := Expr.occurrences_typed hbody hshadow (hs'.var x t)
    (fun g w hw => (harrow g w hw).weaken hs' hx) v hocc
  exact (FreeVar.typedIn_var fun hvx => hbound (by simp [hvx])).mp htyped

end Covers

theorem captureParam_eq_ok {v : FreeVar} {p : Param} :
    captureParam v = .ok p ↔ ∃ t, v.ty = some t ∧ p = ⟨v.name, v.display, t⟩ := by
  unfold captureParam
  split <;> simp_all [eq_comm]

theorem mapM_captureParam {s : Scopes} {vs : FreeVars} (h : ∀ v ∈ vs, v.TypedIn s) :
    ∃ ps, vs.mapM captureParam = .ok ps := by
  induction vs with
  | nil => exact ⟨[], rfl⟩
  | cons v vs ih =>
    obtain ⟨ps, hps⟩ := ih fun w hw => h w (by simp [hw])
    obtain ⟨t, ht, -⟩ := h v (by simp)
    refine ⟨⟨v.name, v.display, t⟩ :: ps, ?_⟩
    rw [List.mapM_cons, captureParam_eq_ok.mpr ⟨t, ht, rfl⟩, hps]
    rfl

/-- The parameters for captures have their names and their types. -/
theorem params_of_mapM {vs : FreeVars} {ps : List Param} (h : vs.mapM captureParam = .ok ps) :
    ps.map Param.name = vs.map FreeVar.name ∧ vs.map FreeVar.ty = (ps.map Param.ty).map some := by
  induction vs generalizing ps with
  | nil => cases h; exact ⟨rfl, rfl⟩
  | cons v vs ih =>
    simp only [List.mapM_cons, bind_eq_ok, captureParam_eq_ok] at h
    obtain ⟨p, ⟨t, ht, rfl⟩, ps', hps', h⟩ := h
    cases h
    simp [ih hps', ht]

theorem exists_capture {vs : FreeVars} {ps : List Param} (h : vs.mapM captureParam = .ok ps)
    {p : Param} (hp : p ∈ ps) : ∃ v ∈ vs, v.name = p.name ∧ v.ty = some p.ty := by
  induction vs generalizing ps with
  | nil => cases h; cases hp
  | cons v vs ih =>
    simp only [List.mapM_cons, bind_eq_ok, captureParam_eq_ok] at h
    obtain ⟨q, ⟨t, ht, rfl⟩, ps', hps', h⟩ := h
    cases h
    rcases List.mem_cons.mp hp with rfl | hp
    · exact ⟨v, by simp, rfl, ht⟩
    · obtain ⟨w, hw, hwp⟩ := ih hps' hp
      exact ⟨w, by simp [hw], hwp⟩

/-- A typed tree whose functions are in sight is lifted. -/
theorem walk_succeeds {e : Expr} {t : Ty} {scope : Scope} {s : Scopes} {names : List String}
    (h : e.Typed s t) (hlifted : s.lifted = []) (hshadow : e.NoShadow names) (hs : s.Within names)
    (hscope : Covers scope s) (l : Lifter) : ∃ e' l', walk scope e l = .ok (e', l') := by
  induction e generalizing s t scope names l with
  | letIn i x value body ihv ihb =>
    cases h with
    | letIn _ hvalue hbody =>
      obtain ⟨hnv, hx, hnb⟩ := hshadow
      obtain ⟨value', l₁, hv⟩ := ihv hvalue hlifted hnv hs hscope l
      obtain ⟨body', l₂, hb⟩ := ihb hbody hlifted hnb (hs.var _ _) (hscope.var hs hx) l₁
      refine ⟨.letIn i x value' body', l₂, ?_⟩
      simp only [walk, bind_eq_ok]
      exact ⟨_, hv, _, hb, rfl⟩
  | letFun i f x paramTy resultTy body rest ihb ihr =>
    cases h with
    | letFun _ hbody hrest =>
      obtain ⟨hf, hx, hnb, hnr⟩ := hshadow
      -- Every captured variable carries a type mark, so each one becomes a parameter.
      have hcaptures := hscope.freeVars hs hbody hx hnb
      obtain ⟨params, hparams⟩ := mapM_captureParam hcaptures
      let name := (fresh f.id l).1
      have hs' := hs.arrow f.id ⟨f.display, paramTy, resultTy⟩
      have hscope' := hscope.arrow f.id name ⟨f.display, paramTy, resultTy⟩ hcaptures
      obtain ⟨body', l₁, hb⟩ := ihb hbody hlifted hnb (hs'.var _ _) (hscope'.var hs' hx)
        (fresh f.id l).2
      let function := lifted i x paramTy resultTy name params body'
      obtain ⟨rest', l₂, hr⟩ := ihr hrest hlifted hnr hs' hscope'
        { l₁ with functions := l₁.functions ++ [function] }
      refine ⟨rest', l₂, ?_⟩
      simp only [walk, bind_eq_ok]
      exact ⟨params, hparams, _, hb, hr⟩
  | apply i f arg ih =>
    cases h with
    | apply _ hf harg =>
      obtain ⟨entry, hentry⟩ := hscope.known _ _ hf
      obtain ⟨arg', l₁, ha⟩ := ih harg hlifted hshadow hs hscope l
      refine ⟨.call i entry.name (arg' :: entry.captures.map (captureArg i.span)), l₁, ?_⟩
      simp only [walk, hentry, bind_eq_ok]
      exact ⟨_, ha, rfl⟩
  | call i f args ih =>
    cases h with
    -- A source program has no call of a lifted function.
    | call _ hf _ => simp [hlifted] at hf
  | seq i a b iha ihb =>
    cases h with
    | seq _ ha hb =>
      obtain ⟨a', l₁, ha⟩ := iha ha hlifted hshadow.1 hs hscope l
      obtain ⟨b', l₂, hb⟩ := ihb hb hlifted hshadow.2 hs hscope l₁
      refine ⟨.seq i a' b', l₂, ?_⟩
      simp only [walk, bind_eq_ok]
      exact ⟨_, ha, _, hb, rfl⟩
  | binary i op a b iha ihb =>
    cases h with
    | binary _ ha hb _ =>
      obtain ⟨a', l₁, ha⟩ := iha ha hlifted hshadow.1 hs hscope l
      obtain ⟨b', l₂, hb⟩ := ihb hb hlifted hshadow.2 hs hscope l₁
      refine ⟨.binary i op a' b', l₂, ?_⟩
      simp only [walk, bind_eq_ok]
      exact ⟨_, ha, _, hb, rfl⟩
  | var i x => exact ⟨_, _, rfl⟩
  | num i n => exact ⟨_, _, rfl⟩
  | bool i b => exact ⟨_, _, rfl⟩

def Signed (lifted : List (String × Signature)) (scope : Scope) (s : Scopes) : Prop :=
  ∀ f a, s.funs.lookup f = some a → ∃ entry ts, scope.lookup f = some entry ∧
    entry.captures.map FreeVar.ty = ts.map some ∧
    lifted.lookup entry.name = some ⟨a.param :: ts, a.result⟩

theorem Signed.arrow {lifted : List (String × Signature)} {scope : Scope} {s : Scopes}
    (h : Signed lifted scope s) {f name : String} {a : Arrow} {captures : FreeVars} {ts : List Ty}
    (hts : captures.map FreeVar.ty = ts.map some)
    (hname : lifted.lookup name = some ⟨a.param :: ts, a.result⟩) :
    Signed lifted ((f, ⟨name, captures⟩) :: scope) (s.arrow f a) := by
  intro g b hg
  by_cases hgf : g = f
  · subst hgf
    simp only [Scopes.arrow_funs, List.lookup_cons_self, Option.some.injEq] at hg
    subst hg
    exact ⟨⟨name, captures⟩, ts, by simp, hts, hname⟩
  · simp only [Scopes.arrow_funs, lookup_cons_of_ne hgf] at hg ⊢
    exact h g b hg

/-- `s'` gives the variables that the tree uses the types that `s` gives to them. -/
def Supplies (s' : Scopes) (scope : Scope) (s : Scopes) (e : Expr) : Prop :=
  ∀ v ∈ e.occurrences (capturesOf scope), ∀ t, s.vars.lookup v.name = some t →
    s'.vars.lookup v.name = some t

namespace Supplies

variable {s s' : Scopes} {scope : Scope} {names : List String} {i : Info}

theorem letIn {x : Name} {value body : Expr} (h : Supplies s' scope s (.letIn i x value body))
    (u : Ty) : Supplies (s'.var x.id u) scope (s.var x.id u) body := by
  intro v hv t ht
  by_cases hvx : v.name = x.id
  · simpa [hvx] using ht
  · simp only [Scopes.var_vars, lookup_cons_of_ne hvx] at ht ⊢
    exact h v (by simp [Expr.occurrences, hv, hvx]) t ht

section

variable {f x : Name} {paramTy resultTy : Ty} {body rest : Expr} {name : String}
  {captures : FreeVars}

theorem letFun_rest (h : Supplies s' scope s (.letFun i f x paramTy resultTy body rest))
    (hcaptures : captures = body.freeVars (capturesOf scope) [f.id, x.id]) (hs : s.Within names)
    (hf : f.id ∉ names) (a : Arrow) :
    Supplies s' ((f.id, ⟨name, captures⟩) :: scope) (s.arrow f.id a) rest := by
  intro v hv t ht
  refine h v ?_ t ht
  have hvf : v.name ≠ f.id := fun hvf => hf (hvf ▸ hs _ _ ht)
  rcases Expr.mem_occurrences_mono (fun _ _ => mem_capturesOf_cons) hv with hv | hv
  · simp [Expr.occurrences, hv, hvf]
  · rw [hcaptures] at hv
    obtain ⟨hocc, hbound⟩ := Expr.mem_occurrences_of_mem_freeVars hv
    simp only [List.mem_cons, List.not_mem_nil, or_false, not_or] at hbound
    simp [Expr.occurrences, hocc, hbound]

/-- The parameters of a lifted function supply what its body uses. -/
theorem letFun_params {params : List Param} (lifted : List (String × Signature)) (display : String)
    (hcaptures : captures = body.freeVars (capturesOf scope) [f.id, x.id])
    (hparams : captures.mapM captureParam = .ok params) (htyped : ∀ v ∈ captures, v.TypedIn s)
    (hs : s.Within names) (hf : f.id ∉ names) (a : Arrow) :
    Supplies (Scopes.params { lifted := lifted } (⟨x.id, display, paramTy⟩ :: params))
      ((f.id, ⟨name, captures⟩) :: scope) ((s.arrow f.id a).var x.id paramTy) body := by
  have hbound : ∀ v ∈ captures, v.name ≠ f.id ∧ v.name ≠ x.id := by
    intro v hv
    rw [hcaptures] at hv
    simpa using (Expr.mem_occurrences_of_mem_freeVars hv).2
  intro v hv t ht
  by_cases hvx : v.name = x.id
  · -- no capture has the name of the parameter, so none of them hides it
    obtain rfl : paramTy = t := by simpa [hvx] using ht
    refine Scopes.params_lookup ?_ (.inl ⟨_, List.mem_cons_self, hvx.symm⟩)
    intro p hp hpv
    rcases List.mem_cons.mp hp with rfl | hp
    · rfl
    · obtain ⟨w, hw, hwp, -⟩ := exists_capture hparams hp
      exact absurd (hwp.trans (hpv.trans hvx)) (hbound w hw).2
  · simp only [Scopes.var_vars, Scopes.arrow_vars, lookup_cons_of_ne hvx] at ht
    have hvf : v.name ≠ f.id := fun hvf => hf (hvf ▸ hs _ _ ht)
    -- the body uses the variable itself, or calls this function, which passes its captures on
    have hcaptured : ∃ w ∈ captures, w.name = v.name := by
      rcases Expr.mem_occurrences_mono (fun _ _ => mem_capturesOf_cons) hv with hv | hv
      · rw [hcaptures]
        exact Expr.exists_mem_freeVars hv (by simp [hvf, hvx])
      · exact ⟨v, hv, rfl⟩
    refine Scopes.params_lookup ?_ (.inl ?_)
    · intro p hp hpv
      rcases List.mem_cons.mp hp with rfl | hp
      · exact absurd hpv.symm hvx
      · obtain ⟨w, hw, hwp, hwt⟩ := exists_capture hparams hp
        obtain ⟨u, hu, hlookup⟩ := htyped w hw
        rw [hwp, hpv, ht] at hlookup
        exact Option.some.inj (hwt.symm.trans (hu.trans hlookup.symm))
    · obtain ⟨w, hw, hwv⟩ := hcaptured
      have hmem : v.name ∈ params.map Param.name := by
        rw [(params_of_mapM hparams).1, ← hwv]
        exact List.mem_map_of_mem hw
      obtain ⟨p, hp, hpv⟩ := List.mem_map.mp hmem
      exact ⟨p, List.mem_cons_of_mem _ hp, hpv⟩

end

end Supplies

theorem captureArgs_typed {s : Scopes} (span : Span) {vs : FreeVars} {ts : List Ty}
    (hts : vs.map FreeVar.ty = ts.map some) (h : ∀ v ∈ vs, v.TypedIn s) :
    Expr.ArgsTyped s (vs.map (captureArg span)) ts := by
  induction vs generalizing ts with
  | nil =>
    cases ts with
    | nil => exact .nil
    | cons => simp at hts
  | cons v vs ih =>
    cases ts with
    | nil => simp at hts
    | cons t ts =>
      simp only [List.map_cons, List.cons.injEq] at hts
      obtain ⟨u, hu, hlookup⟩ := h v (by simp)
      obtain rfl : u = t := by simpa [hu] using hts.1
      exact .cons (.var hu hlookup) (ih hts.2 fun w hw => h w (by simp [hw]))

theorem captureArgs_flat {span : Span} {vs : FreeVars} :
    Expr.FlatAll (vs.map (captureArg span)) := by
  refine Expr.flatAll_iff.mpr fun e he => ?_
  obtain ⟨v, -, rfl⟩ := List.mem_map.mp he
  trivial

/-- What lifting gives is typed where the scopes supply the tree, and so are the functions that it
produces, if their signatures are known. -/
theorem Lifts.typed {scope : Scope} {e e' : Expr} {fs : List Function} {s s' : Scopes} {t : Ty}
    {names : List String} {lifted : List (String × Signature)} (h : Lifts scope e e' fs)
    (he : e.Typed s t) (hshadow : e.NoShadow names) (hs : s.Within names) (hscope : Covers scope s)
    (hsigned : Signed lifted scope s) (hfs : ∀ g ∈ fs, lifted.lookup g.name = some g.signature)
    (hsupplies : Supplies s' scope s e) (hlifted : s'.lifted = lifted) :
    (e'.Typed s' t ∧ e'.Flat) ∧ ∀ g ∈ fs, g.Typed lifted ∧ g.body.Flat := by
  induction h generalizing s s' t names with
  | letIn _ _ ihv ihb =>
    cases he with
    | @letIn _ _ _ _ _ u _ hi hvalue hbody =>
      obtain ⟨hnv, hx, hnb⟩ := hshadow
      simp only [List.mem_append] at hfs ⊢
      obtain ⟨⟨hv, hvf⟩, hvfs⟩ := ihv hvalue hnv hs hscope hsigned (fun g hg => hfs g (.inl hg))
        (fun v hv => hsupplies v (List.mem_append_left _ hv)) hlifted
      obtain ⟨⟨hb, hbf⟩, hbfs⟩ := ihb hbody hnb (hs.var _ _) (hscope.var hs hx) hsigned
        (fun g hg => hfs g (.inr hg)) (hsupplies.letIn u) hlifted
      exact ⟨⟨.letIn hi hv hb, hvf, hbf⟩, fun g hg => hg.elim (hvfs g) (hbfs g)⟩
  | @letFun scope i f x paramTy resultTy body rest body' rest' fs gs name captures params hcaptures
      hparams _ _ ihb ihr =>
    cases he with
    | letFun hi hbody hrest =>
      obtain ⟨hf, hx, hnb, hnr⟩ := hshadow
      simp only [List.mem_append, List.mem_cons] at hfs ⊢
      let arrow : Arrow := ⟨f.display, paramTy, resultTy⟩
      have htyped : ∀ v ∈ captures, v.TypedIn s := hcaptures ▸ hscope.freeVars hs hbody hx hnb
      have hs' : (s.arrow f.id arrow).Within (f.id :: names) := hs.arrow f.id arrow
      have hscope' : Covers ((f.id, ⟨name, captures⟩) :: scope) (s.arrow f.id arrow) :=
        hscope.arrow f.id name arrow htyped
      have hsigned' : Signed lifted ((f.id, ⟨name, captures⟩) :: scope) (s.arrow f.id arrow) :=
        hsigned.arrow (params_of_mapM hparams).2 (hfs _ (.inr (.inl rfl)))
      -- the body moves to the scopes of its own parameters, the rest stays in `s'`
      obtain ⟨⟨hb, hbf⟩, hbfs⟩ := ihb hbody hnb (hs'.var _ _) (hscope'.var hs' hx) hsigned'
        (fun g hg => hfs g (.inl hg))
        (Supplies.letFun_params lifted x.display hcaptures hparams htyped hs hf arrow)
        (Scopes.params_lifted _ _)
      obtain ⟨hr, hrfs⟩ := ihr hrest hnr hs' hscope' hsigned' (fun g hg => hfs g (.inr (.inr hg)))
        (hsupplies.letFun_rest hcaptures hs hf arrow) hlifted
      refine ⟨hr, ?_⟩
      rintro g (hg | rfl | hg)
      · exact hbfs g hg
      · exact ⟨hb, hbf⟩
      · exact hrfs g hg
  | @apply scope i f arg arg' fs entry hf _ ih =>
    cases he with
    | apply hi hfun harg =>
      obtain ⟨⟨ha, haf⟩, hafs⟩ := ih harg hshadow hs hscope hsigned hfs
        (fun v hv => hsupplies v (List.mem_append_right _ hv)) hlifted
      obtain ⟨entry', ts, hentry, hts, hlookup⟩ := hsigned _ _ hfun
      obtain rfl : entry' = entry := Option.some.inj (hentry.symm.trans hf)
      have hcaptures : capturesOf scope f.id = entry'.captures := by simp [capturesOf, hf]
      have htyped : ∀ v ∈ entry'.captures, v.TypedIn s' := by
        intro v hv
        rw [← hcaptures] at hv
        obtain ⟨u, hu, hlookup⟩ := hscope.captures f.id v hv
        exact ⟨u, hu, hsupplies v (List.mem_append_left _ hv) u hlookup⟩
      have hargs := Expr.ArgsTyped.cons ha (captureArgs_typed i.span hts htyped)
      exact ⟨⟨.call hi (hlifted ▸ hlookup) hargs, haf, captureArgs_flat⟩, hafs⟩
  | seq _ _ iha ihb =>
    cases he with
    | seq hi ha hb =>
      simp only [List.mem_append] at hfs ⊢
      obtain ⟨⟨ha, haf⟩, hafs⟩ := iha ha hshadow.1 hs hscope hsigned (fun g hg => hfs g (.inl hg))
        (fun v hv => hsupplies v (List.mem_append_left _ hv)) hlifted
      obtain ⟨⟨hb, hbf⟩, hbfs⟩ := ihb hb hshadow.2 hs hscope hsigned (fun g hg => hfs g (.inr hg))
        (fun v hv => hsupplies v (List.mem_append_right _ hv)) hlifted
      exact ⟨⟨.seq hi ha hb, haf, hbf⟩, fun g hg => hg.elim (hafs g) (hbfs g)⟩
  | binary _ _ iha ihb =>
    cases he with
    | binary hi ha hb hop =>
      simp only [List.mem_append] at hfs ⊢
      obtain ⟨⟨ha, haf⟩, hafs⟩ := iha ha hshadow.1 hs hscope hsigned (fun g hg => hfs g (.inl hg))
        (fun v hv => hsupplies v (List.mem_append_left _ hv)) hlifted
      obtain ⟨⟨hb, hbf⟩, hbfs⟩ := ihb hb hshadow.2 hs hscope hsigned (fun g hg => hfs g (.inr hg))
        (fun v hv => hsupplies v (List.mem_append_right _ hv)) hlifted
      exact ⟨⟨.binary hi ha hb hop, haf, hbf⟩, fun g hg => hg.elim (hafs g) (hbfs g)⟩
  | @var scope i x =>
    cases he with
    | var hi hx =>
      have hx' := hsupplies ⟨x.id, x.display, i.ty⟩ (by simp [Expr.occurrences]) _ hx
      exact ⟨⟨.var hi hx', trivial⟩, by simp⟩
  | num =>
    cases he with
    | num hi => exact ⟨⟨.num hi, trivial⟩, by simp⟩
  | bool =>
    cases he with
    | bool hi => exact ⟨⟨.bool hi, trivial⟩, by simp⟩

end Lifter

namespace Function

/-- Where names differ, each function is found under its name. -/
theorem find?_name {fs : List Function} (hnodup : (fs.map Function.name).Nodup) {f : Function}
    (hf : f ∈ fs) : (fs.find? fun g => g.name == f.name) = some f := by
  induction fs with
  | nil => cases hf
  | cons g fs ih =>
    simp only [List.map_cons, List.nodup_cons, List.mem_map, not_exists, not_and] at hnodup
    rcases List.mem_cons.mp hf with rfl | hf
    · simp
    · have hne : (g.name == f.name) = false := by simpa using Ne.symm (hnodup.1 f hf)
      rw [List.find?_cons, hne]
      exact ih hnodup.2 hf

end Function

namespace Program

def signatures (p : Program) : List (String × Signature) := (Scopes.declare {} p.functions).lifted

theorem lookup_signatures (p : Program) (name : String) :
    p.signatures.lookup name =
      (p.callees.find? fun g => g.name == name).map Function.signature := by
  have hdeclare : p.signatures = p.callees.map fun f => (f.name, f.signature) := by
    simp only [signatures, Scopes.declare, callees, ← List.foldr_reverse]
    induction p.functions.reverse with
    | nil => rfl
    | cons f fs ih => simp [ih]
  rw [hdeclare]
  induction p.callees with
  | nil => rfl
  | cons f fs ih =>
    simp only [List.map_cons, List.lookup_cons, List.find?_cons, ih, Bool.beq_comm (a := name)]
    cases f.name == name <;> rfl

/-- A lifted program that passes all checks: its functions can be told apart, also from the main
expression, and all its trees are flat and typed. -/
structure WellTyped (p : Program) (t : Ty) : Prop where
  nodup : (p.functions.map Function.name).Nodup
  mainLabel : Module.mainLabel ∉ p.functions.map Function.name
  functions : ∀ f ∈ p.functions, f.Typed p.signatures ∧ f.body.Flat
  main : p.main.Typed { lifted := p.signatures } t ∧ p.main.Flat

theorem callee_of_mem {p : Program} (hnodup : (p.functions.map Function.name).Nodup)
    {f : Function} (hf : f ∈ p.functions) :
    (p.callees.find? fun g => g.name == f.name) = some f := by
  refine Function.find?_name ?_ (List.mem_reverse.mpr hf)
  rw [callees, List.map_reverse]
  exact List.pairwise_reverse.mpr (hnodup.imp Ne.symm)

theorem WellTyped.functionsTyped {p : Program} {t : Ty} (h : p.WellTyped t) :
    FunctionsTyped p.signatures p.callees := by
  intro name sig hsig
  rw [lookup_signatures, Option.map_eq_some_iff] at hsig
  obtain ⟨g, hg, hsig⟩ := hsig
  exact ⟨g, hg, hsig, (h.functions g (List.mem_reverse.mp (List.mem_of_find?_eq_some hg))).1⟩

end Program

/-- Lifting a typed tree without shadowing gives a well-typed program. -/
theorem Expr.lift_wellTyped {e : Expr} {t : Ty} (h : e.Typed {} t) (hshadow : e.NoShadow []) :
    ∃ p, e.lift = .ok p ∧ Lifter.Lifts [] e p.main p.functions ∧ p.WellTyped t := by
  have hs : Scopes.Within {} [] := fun x u hx => by simp at hx
  have hscope : Lifter.Covers [] {} := ⟨by simp, by simp [Lifter.capturesOf]⟩
  obtain ⟨main, l, hwalk⟩ := Lifter.walk_succeeds h rfl hshadow hs hscope {}
  obtain ⟨fs, hlifts, hfs, hnamed⟩ := Lifter.walk_lifts (h.surface rfl) hwalk
  obtain rfl : l.functions = fs := by simpa using hfs
  let p : Program := ⟨l.functions, main⟩
  have hsig : ∀ g ∈ p.functions, p.signatures.lookup g.name = some g.signature := by
    intro g hg
    rw [Program.lookup_signatures, Program.callee_of_mem hnamed.nodup hg]
    rfl
  have hsupplies : Lifter.Supplies { lifted := p.signatures } [] {} e := by
    intro v _ u hu
    simp at hu
  obtain ⟨hmain, hfunctions⟩ := hlifts.typed h hshadow hs hscope (by intro f a hf; simp at hf) hsig
    hsupplies rfl
  refine ⟨p, ?_, hlifts, hnamed.nodup, hnamed.mainLabel, hfunctions, hmain⟩
  rw [Expr.lift, hwalk]
  rfl

theorem Expr.checked_noShadow {e : Expr} {t : Ty} (h : e.resolve.typecheck.outcome = .ok t) :
    e.resolve.typecheck.item.NoShadow [] := by
  rw [← noShadow_unmark, (typecheck_typed h).2, noShadow_unmark]
  exact e.resolve_noShadow

/-- A tree that is resolved and passes the check is lifted to a well-typed program. -/
theorem Expr.lift_checked {e : Expr} {t : Ty} (h : e.resolve.typecheck.outcome = .ok t) :
    ∃ p, e.resolve.typecheck.item.lift = .ok p ∧
      Lifter.Lifts [] e.resolve.typecheck.item p.main p.functions ∧ p.WellTyped t :=
  lift_wellTyped (typecheck_typed h).1 (checked_noShadow h)

end LetStack
