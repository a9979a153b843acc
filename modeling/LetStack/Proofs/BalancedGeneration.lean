import LetStack.Proofs.WordGeneration
import LetStack.Proofs.LiftedPrograms

namespace LetStack

def Frame.offsets (frame : Frame) : List Int := frame.locals.map fun entry => entry.2.offset

namespace Generator

open Instruction

/-- The state grew by instructions that push `count` cells and mark no label, and by nothing else.
-/
def Adds (g : Generator) (count : Int) (g' : Generator) : Prop :=
  ∃ is, g' = g.append is ∧ effects is = count ∧ ∀ i ∈ is, i.op ≠ .label

namespace Adds

variable {g g₁ g₂ : Generator} {m n : Int}

theorem refl (g : Generator) : g.Adds 0 g := ⟨[], rfl, rfl, by simp⟩

theorem append (h : g.Adds n g₁) (is : List Instruction) (his : ∀ i ∈ is, i.op ≠ .label) :
    g.Adds (n + effects is) (g₁.append is) := by
  obtain ⟨js, rfl, rfl, hjs⟩ := h
  refine ⟨js ++ is, append_append g js is, effects_append js is, fun i hi => ?_⟩
  exact (List.mem_append.mp hi).elim (hjs i) (his i)

theorem trans (h : g.Adds m g₁) (h' : g₁.Adds n g₂) : g.Adds (m + n) g₂ := by
  obtain ⟨is, rfl, rfl, his⟩ := h'
  exact h.append is his

theorem cast (h : g.Adds m g₁) (hmn : m = n) : g.Adds n g₁ := hmn ▸ h

theorem depth (h : g.Adds n g₁) : g₁.emitter.depth = g.emitter.depth + n := by
  obtain ⟨is, rfl, rfl, -⟩ := h
  exact append_depth g is

theorem frame (h : g.Adds n g₁) : g₁.frame = g.frame := by
  obtain ⟨is, rfl, -, -⟩ := h
  rfl

theorem labels (h : g.Adds n g₁) : g₁.emitter.labels = g.emitter.labels := by
  obtain ⟨is, rfl, -, -⟩ := h
  exact append_labels g is

theorem code (h : g.Adds n g₁) : ∃ is : List Instruction, (∀ i ∈ is, i.op ≠ .label) ∧
    g₁.emitter.module.code.toList = g.emitter.module.code.toList ++ is := by
  obtain ⟨is, rfl, -, his⟩ := h
  exact ⟨is, his, append_code g is⟩

end Adds

theorem store_op_ne_label (t : Ty) : (store t).op ≠ .label := by cases t <;> decide

theorem load_op_ne_label (slot : Slot) : (load slot).op ≠ .label := by
  unfold load
  split <;> exact OpCode.noConfusion

theorem of_operator {op : BinOp} {left : Expr} {code : OpCode} (h : operator op left = .ok code) :
    effect ⟨code, .empty⟩ = -1 ∧ code ≠ .label := by
  cases op with
  | add | sub | lt =>
    cases h
    exact ⟨rfl, by decide⟩
  | eq =>
    simp only [operator, bind_eq_ok] at h
    obtain ⟨t, -, h⟩ := h
    cases t <;> cases h <;> exact ⟨rfl, by decide⟩

end Generator

namespace WordGenerator

open Instruction Generator

variable {g g' : WordGenerator}

theorem adds_of_emit {i : Instruction} (h : g.emit i = .ok g') (hi : i.op ≠ .label) :
    g.wide.Adds i.effect g'.wide := by
  rw [emit_wide h]
  exact ((Adds.refl g.wide).append [i] (by simpa using hi)).cast (by simp)

theorem adds_openLet {opened : OpenLet} (h : g.openLet = .ok opened) :
    g.wide.Adds 3 opened.generator.wide := by
  rw [(openLet_eq_ok h).2.2]
  exact (Adds.refl g.wide).append _ (by simp [decl, lval])

/-- The start of a `let`'s body adds code as well, and one local to the frame. -/
theorem bindLet_of_adds {g₁ : WordGenerator} {x : String} {t : Ty} {opened : OpenLet}
    (h : g.wide.Adds 4 g₁.wide) (hbind : g₁.bindLet x t opened = .ok g') :
    ∃ h₁, g.wide.Adds 3 h₁ ∧ g'.wide = h₁.declare x t opened.slot.toInt := by
  have hlabels : ∀ i ∈ [store t, lval opened.result.toInt], i.op ≠ .label := by
    simpa [lval] using store_op_ne_label t
  exact ⟨_, (h.append _ hlabels).cast (by simp), bindLet_wide hbind⟩

theorem arguments_adds {args : List Expr}
    (hexpr : ∀ a ∈ args, ∀ g g', expr a g = .ok g' → g.wide.Adds 1 g'.wide)
    (h : arguments args g = .ok g') : g.wide.Adds args.length g'.wide := by
  induction args generalizing g' with
  | nil =>
    cases h
    exact .refl g.wide
  | cons arg args ih =>
    simp only [arguments, bind_eq_ok] at h
    obtain ⟨g₁, hg₁, h⟩ := h
    have hargs := ih (fun a ha => hexpr a (by simp [ha])) hg₁
    exact (hargs.trans (hexpr arg (by simp) g₁ g' h)).cast (by simp)

/-- Where as many cells were pushed as a `pop` drops and the depth is a word before and after, the
number of cells did not wrap around. -/
theorem effect_pop_of_words {count : Nat} {d d₁ d₂ : Word} (h₁ : d₁.toInt = d.toInt + (1 + count))
    (h₂ : d₂.toInt = d₁.toInt + (pop count).effect) : (pop count).effect = -(count : Int) := by
  have heffect : (pop count).effect = -(count : Int).bmod Int32.size := by
    rw [← Int32.toInt_ofInt]
    rfl
  have hd := Word.toInt_bounds d
  have hd₁ := Word.toInt_bounds d₁
  have hd₂ := Word.toInt_bounds d₂
  rw [heffect] at h₂ ⊢
  simp only [Int.bmod, Int32.size] at h₂ ⊢
  split <;> omega

/-- Generating a tree adds code that pushes one cell and nothing else. -/
theorem expr_adds {e : Expr} (h : expr e g = .ok g') : g.wide.Adds 1 g'.wide := by
  induction e generalizing g g' with
  | letFun | apply => cases h
  | letIn i x value body ihv ihb =>
    simp only [expr, bind_eq_ok, typeOf, mapError_eq_ok] at h
    obtain ⟨t, -, u, -, opened, hopened, g₁, hg₁, g₂, hg₂, g₃, hg₃, g₄, hg₄, hg'⟩ := h
    obtain ⟨h₁, hadds, hbound⟩ := bindLet_of_adds ((adds_openLet hopened).trans (ihv hg₁)) hg₂
    obtain ⟨js, hjs, heffects, hlabels⟩ := ihb hg₃
    -- the local that the body saw goes with the release, whatever the body's code is
    have hrelease : g₄.release.wide = (h₁.append js).append [store u] := by
      change g₄.wide.release = _
      rw [emit_wide hg₄, hjs, hbound]
      rfl
    have hbody : h₁.Adds 1 (h₁.append js) := ⟨js, rfl, heffects, hlabels⟩
    rw [emit_wide hg', hrelease]
    have hend := (hadds.trans hbody).append [store u] (by simpa using store_op_ne_label u)
    exact (hend.append [pop 1] (by simp [pop])).cast (by simp)
  | call i f args ih =>
    simp only [expr, bind_eq_ok] at h
    obtain ⟨g₁, hg₁, g₂, hg₂, g₃, hg₃, hg'⟩ := h
    have hopen := adds_of_emit hg₁ (by simp [decl])
    have hargs := hopen.trans (arguments_adds (fun a ha g g' => ih a ha) hg₂)
    have hcall := (hargs.trans (adds_of_emit hg₃ (by simp))).cast (n := 1 + args.length) (by
      have hbsr : effect ⟨.bsr, .label f⟩ = 0 := rfl
      simp [hbsr])
    have hpop := adds_of_emit hg' (by simp [pop])
    refine (hcall.trans hpop).cast ?_
    rw [effect_pop_of_words hcall.depth hpop.depth]
    omega
  | seq i first second ihf ihs =>
    simp only [expr, bind_eq_ok] at h
    obtain ⟨g₁, hg₁, g₂, hg₂, h⟩ := h
    exact ((ihf hg₁).trans (adds_of_emit hg₂ (by simp [pop]))).trans (ihs h)
  | binary i op left right ihl ihr =>
    simp only [expr, bind_eq_ok, operator, mapError_eq_ok] at h
    obtain ⟨g₁, hg₁, g₂, hg₂, code, hcode, hg'⟩ := h
    obtain ⟨heffect, hlabel⟩ := of_operator hcode
    exact (((ihl hg₁).trans (ihr hg₂)).trans (adds_of_emit hg' hlabel)).cast (by simp [heffect])
  | var i x =>
    simp only [expr] at h
    split at h
    next slot hslot => exact (adds_of_emit h (load_op_ne_label slot)).cast (by simp)
    next => cases h
  | num | bool =>
    simp only [expr] at h
    exact adds_of_emit h (by simp)

inductive Descends : Expr → WordGenerator → Expr → WordGenerator → Prop
  | value {i : Info} {x : Name} {value body : Expr} {g : WordGenerator} {opened : OpenLet} :
      g.openLet = .ok opened → Descends (.letIn i x value body) g value opened.generator
  | body {i : Info} {x : Name} {value body : Expr} {g g₁ g₂ : WordGenerator} {opened : OpenLet}
      {t : Ty} : typeOf value = .ok t → g.openLet = .ok opened →
      expr value opened.generator = .ok g₁ → g₁.bindLet x.id t opened = .ok g₂ →
      Descends (.letIn i x value body) g body g₂
  | argument {i : Info} {f : String} {before after : List Expr} {arg : Expr}
      {g g₁ g₂ : WordGenerator} : g.emit (decl 1) = .ok g₁ → arguments after g₁ = .ok g₂ →
      Descends (.call i f (before ++ arg :: after)) g arg g₂
  | first {i : Info} {first second : Expr} {g : WordGenerator} :
      Descends (.seq i first second) g first g
  | second {i : Info} {first second : Expr} {g g₁ g₂ : WordGenerator} : expr first g = .ok g₁ →
      g₁.emit (pop 1) = .ok g₂ → Descends (.seq i first second) g second g₂
  | left {i : Info} {op : BinOp} {left right : Expr} {g : WordGenerator} :
      Descends (.binary i op left right) g left g
  | right {i : Info} {op : BinOp} {left right : Expr} {g g₁ : WordGenerator} :
      expr left g = .ok g₁ → Descends (.binary i op left right) g right g₁

/-- Generating a tree from a state gets to a node of it in another. -/
inductive Visits (e : Expr) (g : WordGenerator) : Expr → WordGenerator → Prop
  | here : Visits e g e g
  | down {p q : Expr} {h k : WordGenerator} : Visits e g p h → Descends p h q k → Visits e g q k

theorem Visits.of_descends {e p q : Expr} {g h k : WordGenerator} (hd : Descends e g p h)
    (hv : Visits p h q k) : Visits e g q k := by
  induction hv with
  | here => exact .down .here hd
  | down _ hd' ih => exact .down ih hd'

/-- On the way down code is added that does not shrink the stack, and at the start of a `let`'s body
the new local. -/
theorem Descends.adds {e p : Expr} {g h : WordGenerator} (hd : Descends e g p h) :
    ∃ count h₁, 0 ≤ count ∧ g.wide.Adds count h₁ ∧
      (h.wide = h₁ ∨ count = 3 ∧ ∃ x t, h.wide = h₁.declare x t (-g.wide.emitter.depth - 2)) := by
  cases hd with
  | value hopened => exact ⟨3, _, by omega, adds_openLet hopened, .inl rfl⟩
  | body _ hopened hvalue hbind =>
    have hadds := (adds_openLet hopened).trans (expr_adds hvalue)
    obtain ⟨h₁, hh₁, hbound⟩ := bindLet_of_adds hadds hbind
    rw [(openLet_eq_ok hopened).2.1] at hbound
    exact ⟨3, h₁, by omega, hh₁, .inr ⟨rfl, _, _, hbound⟩⟩
  | argument hemit hargs =>
    have hopen := adds_of_emit hemit (by simp [decl])
    have hafter := arguments_adds (fun a _ g g' => expr_adds) hargs
    exact ⟨_, _, by rw [effect_decl_one]; omega, hopen.trans hafter, .inl rfl⟩
  | first | left => exact ⟨0, g.wide, by omega, .refl g.wide, .inl rfl⟩
  | second hfirst hpop =>
    exact ⟨_, _, by simp, (expr_adds hfirst).trans (adds_of_emit hpop (by simp [pop])), .inl rfl⟩
  | right hleft => exact ⟨1, _, by omega, expr_adds hleft, .inl rfl⟩

theorem Visits.depth_le {e p : Expr} {g h : WordGenerator} (hv : Visits e g p h) :
    g.wide.emitter.depth ≤ h.wide.emitter.depth := by
  induction hv with
  | here => exact Int.le_refl _
  | down hv hd ih =>
    obtain ⟨count, h₁, hcount, hadds, hend⟩ := hd.adds
    have hdepth := hadds.depth
    rcases hend with hend | ⟨-, x, t, hend⟩
    · rw [hend]
      omega
    · rw [hend]
      change _ ≤ h₁.emitter.depth
      omega

/-- The arguments behind the one in question were generated before it. -/
theorem of_arguments {args : List Expr} {a : Expr} {g g' : WordGenerator} (ha : a ∈ args)
    (h : arguments args g = .ok g') :
    ∃ before after g₁ g₂, args = before ++ a :: after ∧ arguments after g = .ok g₁ ∧
      expr a g₁ = .ok g₂ := by
  induction args generalizing g' with
  | nil => cases ha
  | cons arg args ih =>
    simp only [arguments, bind_eq_ok] at h
    obtain ⟨g₁, hg₁, h⟩ := h
    rcases List.mem_cons.mp ha with rfl | ha
    · exact ⟨[], args, g₁, g', rfl, hg₁, h⟩
    · obtain ⟨before, after, g₂, g₃, rfl, hg₂, hg₃⟩ := ih ha hg₁
      exact ⟨arg :: before, after, g₂, g₃, rfl, hg₂, hg₃⟩

/-- A tree is generated only after every node of it has been. -/
theorem exists_visits {e n : Expr} {g g' : WordGenerator} (h : expr e g = .ok g')
    (hn : n ∈ e.nodes) :
    ∃ k k', Visits e g n k ∧ expr n k = .ok k' := by
  induction e generalizing g g' with
  | letFun | apply => cases h
  | letIn i x value body ihv ihb =>
    rcases List.mem_cons.mp hn with rfl | hn
    · exact ⟨g, g', .here, h⟩
    -- A node below the root is reached by one `Descends` step and then inside that part.
    simp only [expr, bind_eq_ok] at h
    obtain ⟨t, ht, u, -, opened, hopened, g₁, hg₁, g₂, hg₂, g₃, hg₃, -⟩ := h
    rcases List.mem_append.mp hn with hn | hn
    · obtain ⟨k, k', hv, hk⟩ := ihv hg₁ hn
      exact ⟨k, k', hv.of_descends (.value hopened), hk⟩
    · obtain ⟨k, k', hv, hk⟩ := ihb hg₃ hn
      exact ⟨k, k', hv.of_descends (.body ht hopened hg₁ hg₂), hk⟩
  | call i f args ih =>
    rcases List.mem_cons.mp hn with rfl | hn
    · exact ⟨g, g', .here, h⟩
    obtain ⟨a, ha, hna⟩ := Expr.mem_nodesOf.mp hn
    simp only [expr, bind_eq_ok] at h
    obtain ⟨g₁, hg₁, g₂, hg₂, -⟩ := h
    obtain ⟨before, after, g₃, g₄, rfl, hg₃, hg₄⟩ := of_arguments ha hg₂
    obtain ⟨k, k', hv, hk⟩ := ih a ha hg₄ hna
    exact ⟨k, k', hv.of_descends (.argument hg₁ hg₃), hk⟩
  | seq i first second ihf ihs =>
    rcases List.mem_cons.mp hn with rfl | hn
    · exact ⟨g, g', .here, h⟩
    simp only [expr, bind_eq_ok] at h
    obtain ⟨g₁, hg₁, g₂, hg₂, h⟩ := h
    rcases List.mem_append.mp hn with hn | hn
    · obtain ⟨k, k', hv, hk⟩ := ihf hg₁ hn
      exact ⟨k, k', hv.of_descends .first, hk⟩
    · obtain ⟨k, k', hv, hk⟩ := ihs h hn
      exact ⟨k, k', hv.of_descends (.second hg₁ hg₂), hk⟩
  | binary i op left right ihl ihr =>
    rcases List.mem_cons.mp hn with rfl | hn
    · exact ⟨g, g', .here, h⟩
    simp only [expr, bind_eq_ok] at h
    obtain ⟨g₁, hg₁, g₂, hg₂, -⟩ := h
    rcases List.mem_append.mp hn with hn | hn
    · obtain ⟨k, k', hv, hk⟩ := ihl hg₁ hn
      exact ⟨k, k', hv.of_descends .left, hk⟩
    · obtain ⟨k, k', hv, hk⟩ := ihr hg₂ hn
      exact ⟨k, k', hv.of_descends (.right hg₁), hk⟩
  | var | num | bool =>
    obtain rfl := List.mem_singleton.mp hn
    exact ⟨g, g', .here, h⟩

def depth (g : WordGenerator) : Int := g.emitter.depth.toInt

def offsets (g : WordGenerator) : List Int := g.frame.offsets

theorem offsets_of_wide {h : Generator} (hg : g.wide = h) : g.offsets = h.frame.offsets := by
  rw [← hg]
  rfl

theorem depth_of_wide {h : Generator} (hg : g.wide = h) : g.depth = h.emitter.depth := by
  rw [← hg]
  rfl

/-- The locals in sight have cells of their own, none of them beyond the top. -/
structure Apart (g : WordGenerator) : Prop where
  nodup : g.offsets.Nodup
  above : ∀ o ∈ g.offsets, -g.depth ≤ o

structure Framed (g : WordGenerator) : Prop extends Apart g where
  below : ∀ o ∈ g.offsets, o ≤ -1

/-- One level down are the same locals, or one more in the cell after the next. -/
theorem Descends.offsets {e p : Expr} {g h : WordGenerator} (hd : Descends e g p h) :
    g.depth ≤ h.depth ∧
      (h.offsets = g.offsets ∨ h.depth = g.depth + 3 ∧ h.offsets = (-g.depth - 2) :: g.offsets) := by
  obtain ⟨count, h₁, hcount, hadds, hend⟩ := hd.adds
  have hdepth : h₁.emitter.depth = g.depth + count := hadds.depth
  have hframe : h₁.frame = g.frame := hadds.frame
  rcases hend with hend | ⟨rfl, x, t, hend⟩
  · have hwide : h.depth = h₁.emitter.depth := depth_of_wide hend
    refine ⟨by omega, .inl ?_⟩
    rw [offsets_of_wide hend, hframe]
    rfl
  · have hwide : h.depth = h₁.emitter.depth := (depth_of_wide hend).trans rfl
    refine ⟨by omega, .inr ⟨by omega, ?_⟩⟩
    rw [offsets_of_wide hend, Generator.declare, hframe]
    rfl

theorem Apart.descends {e p : Expr} {g h : WordGenerator} (hg : g.Apart) (hd : Descends e g p h) :
    h.Apart := by
  obtain ⟨hdepth, hsame | ⟨hthree, hone⟩⟩ := hd.offsets
  · refine ⟨hsame ▸ hg.nodup, fun o ho => ?_⟩
    have := hg.above o (hsame ▸ ho)
    omega
  · constructor
    · rw [hone, List.nodup_cons]
      refine ⟨fun hmem => ?_, hg.nodup⟩
      have := hg.above _ hmem
      omega
    · intro o ho
      rcases List.mem_cons.mp (hone ▸ ho) with rfl | ho
      · omega
      · have := hg.above o ho
        omega

theorem Framed.descends {e p : Expr} {g h : WordGenerator} (hg : g.Framed) (hdepth : 0 ≤ g.depth)
    (hd : Descends e g p h) : h.Framed := by
  refine ⟨hg.toApart.descends hd, fun o ho => ?_⟩
  obtain ⟨-, hsame | ⟨-, hone⟩⟩ := hd.offsets
  · exact hg.below o (hsame ▸ ho)
  · rcases List.mem_cons.mp (hone ▸ ho) with rfl | ho
    · omega
    · exact hg.below o ho

theorem Apart.visits {e p : Expr} {g h : WordGenerator} (hg : g.Apart) (hv : Visits e g p h) :
    h.Apart := by
  induction hv with
  | here => exact hg
  | down hv hd ih => exact ih.descends hd

theorem Framed.visits {e p : Expr} {g h : WordGenerator} (hg : g.Framed) (hdepth : 0 ≤ g.depth)
    (hv : Visits e g p h) : h.Framed := by
  induction hv with
  | here => exact hg
  | down hv hd ih => exact ih.descends (Int.le_trans hdepth hv.depth_le) hd

/-- Both cells of a `let` lie below all that is there when it starts. -/
theorem Apart.slots_lt (hg : g.Apart) {opened : OpenLet} (h : g.openLet = .ok opened) :
    opened.slot.toInt < opened.result.toInt ∧ opened.result.toInt < -g.depth ∧
      ∀ o ∈ g.offsets, opened.result.toInt < o := by
  obtain ⟨hresult, hslot, -⟩ := openLet_eq_ok h
  change _ = -g.depth - 1 at hresult
  change _ = -g.depth - 2 at hslot
  refine ⟨by omega, by omega, fun o ho => ?_⟩
  have := hg.above o ho
  omega

/-- Down the tree from a `let`, its value sees the locals that the `let` sees, and its body one
more. Either starts above both cells of the `let`. -/
theorem descends_letIn {i : Info} {x : Name} {value body p : Expr} {g h : WordGenerator}
    {opened : OpenLet} (hopened : g.openLet = .ok opened)
    (hd : Descends (.letIn i x value body) g p h) :
    h.depth = g.depth + 3 ∧
      (p = value ∧ h.offsets = g.offsets ∨ p = body ∧
        h.offsets = opened.slot.toInt :: g.offsets) := by
  cases hd with
  | value hopened =>
    have hadds := adds_openLet hopened
    exact ⟨hadds.depth, .inl ⟨rfl, congrArg Frame.offsets hadds.frame⟩⟩
  | body _ hopened' hvalue hbind =>
    obtain rfl := Except.ok.inj (hopened.symm.trans hopened')
    obtain ⟨h₁, hadds, hend⟩ :=
      bindLet_of_adds ((adds_openLet hopened).trans (expr_adds hvalue)) hbind
    refine ⟨(depth_of_wide hend).trans hadds.depth, .inr ⟨rfl, ?_⟩⟩
    rw [offsets_of_wide hend, Generator.declare, hadds.frame]
    rfl

/-- A `let` inside another has both of its cells below those of the other. -/
theorem nested_slots_lt {i : Info} {x : Name} {value body p n : Expr} {g h k : WordGenerator}
    {opened nested : OpenLet} (hopened : g.openLet = .ok opened)
    (hd : Descends (.letIn i x value body) g p h) (hv : Visits p h n k)
    (hnested : k.openLet = .ok nested) : nested.result.toInt < opened.slot.toInt := by
  have hdepth : h.depth = g.depth + 3 := (descends_letIn hopened hd).1
  have hle : h.depth ≤ k.depth := hv.depth_le
  have hresult : nested.result.toInt = -k.depth - 1 := (openLet_eq_ok hnested).1
  have hslot : opened.slot.toInt = -g.depth - 2 := (openLet_eq_ok hopened).2.1
  omega

/-- The states in which a program's generation starts on the tree of a function or of the program.
-/
inductive Starts (p : Program) : Expr → WordGenerator → Prop
  | body {before after : List Function} {f : Function} {g g₁ : WordGenerator} :
      p.functions = before ++ f :: after → functions before {} = .ok g →
      openFunction f g = .ok g₁ → Starts p f.body g₁
  | main {g g₁ : WordGenerator} : functions p.functions {} = .ok g → openMain g = .ok g₁ →
      Starts p p.main g₁

theorem Framed.of_nil (h : g.frame.locals = []) : g.Framed := by
  have hoffsets : g.offsets = [] := by simp [offsets, Frame.offsets, h]
  exact ⟨⟨by simp [hoffsets], by simp [hoffsets]⟩, by simp [hoffsets]⟩

/-- A tree of a program starts without locals, on an empty stack or on the address of the result. -/
theorem Starts.framed {p : Program} {e : Expr} (h : Starts p e g) : g.Framed ∧ 0 ≤ g.depth := by
  cases h with
  | body _ _ hopen =>
    simp only [openFunction, bind_eq_ok] at hopen
    obtain ⟨result, -, g₁, hg₁, g₂, hg₂, hg⟩ := hopen
    have hwide := emit_wide hg
    have hframe : g.frame = g₁.frame :=
      (congrArg Generator.frame hwide).trans (congrArg Generator.frame (emit_wide hg₂))
    have hmark : g₁.frame = _ := congrArg Generator.frame (label_eq_ok hg₁).2
    have hdepth : g.depth = 1 := congrArg (·.emitter.depth) hwide
    exact ⟨.of_nil (by rw [hframe, hmark]; rfl), by omega⟩
  | main _ hopen =>
    have hmark := (label_eq_ok hopen).2
    have hframe : g.frame = _ := congrArg Generator.frame hmark
    have hdepth : g.depth = 0 := congrArg (·.emitter.depth) hmark
    exact ⟨.of_nil (by rw [hframe]; rfl), by omega⟩

/-- Generating a tree adds code that pushes one cell and marks no label, and leaves the frame, with
the cell of every name, as it was. On the way it gets to every node, each time with cells of their
own for the locals in sight. A `let` puts its two cells below everything that is there when it
starts, its body sees the new local on top of those that the `let` sees, and every `let` inside puts
its own two cells below these two. A program's trees start in states that are as it is asked here,
and with a depth that is no less than 0. -/
theorem expr_balanced (e : Expr) (g : WordGenerator) :
    (g.Framed →
      (∀ g', expr e g = .ok g' →
        g'.depth = g.depth + 1 ∧ g'.frame = g.frame ∧ g'.emitter.labels = g.emitter.labels ∧
        (∃ is : List Instruction, (∀ i ∈ is, i.op ≠ .label) ∧
          g'.emitter.module.code.toList = g.emitter.module.code.toList ++ is) ∧
        ∀ n ∈ e.nodes, ∃ h h', Visits e g n h ∧ expr n h = .ok h') ∧
      (∀ n h, Visits e g n h → h.Apart ∧ (0 ≤ g.depth → h.Framed)) ∧
      ∀ i x value body h opened, Visits e g (.letIn i x value body) h → h.openLet = .ok opened →
        opened.slot.toInt < opened.result.toInt ∧ opened.result.toInt < -h.depth ∧
        (∀ o ∈ h.offsets, opened.result.toInt < o) ∧
        ∀ p k, Descends (.letIn i x value body) h p k →
          (p = value ∧ k.offsets = h.offsets ∨
            p = body ∧ k.offsets = opened.slot.toInt :: h.offsets) ∧
          ∀ j y value' body' l nested, Visits p k (.letIn j y value' body') l →
            l.openLet = .ok nested → nested.result.toInt < opened.slot.toInt) ∧
    ∀ p, Starts p e g → g.Framed ∧ 0 ≤ g.depth := by
  refine ⟨fun hg => ⟨fun g' h => ?_, fun n h hv => ?_, fun i x value body h opened hv hopened => ?_⟩,
    fun p hstart => hstart.framed⟩
  · have hadds := expr_adds h
    exact ⟨hadds.depth, hadds.frame, hadds.labels, hadds.code, fun n hn => exists_visits h hn⟩
  · exact ⟨hg.toApart.visits hv, fun hdepth => hg.visits hdepth hv⟩
  · obtain ⟨hlocal, hresult, hbelow⟩ := (hg.toApart.visits hv).slots_lt hopened
    exact ⟨hlocal, hresult, hbelow, fun p k hd => ⟨(descends_letIn hopened hd).2,
      fun j y value' body' l nested hv' hnested => nested_slots_lt hopened hd hv' hnested⟩⟩

def callInLet : Expr :=
  let i : Info := ⟨⟨1, 1, 1⟩, some .num⟩
  .letIn i (.plain "y") (.var i (.plain "x"))
    (.call i "f" [.letIn i (.plain "z") (.num i 1) (.var i (.plain "y")), .var i (.plain "x")])

def inBody : WordGenerator where
  emitter := { module := ⟨#[decl 1, decl 1, lval (-1)]⟩, depth := 3 }
  frame := Frame.forMain.declare "x" .num (-2)

theorem expr_balanced_callInLet :
    inBody.Framed ∧
      (∃ g', expr callInLet inBody = .ok g' ∧ g'.depth = 4 ∧ g'.frame = inBody.frame) ∧
      ∀ n h, Visits callInLet inBody n h → h.Framed := by
  have hinBody : inBody.Framed := ⟨⟨by decide, by decide⟩, by decide⟩
  obtain ⟨hdone, hvisits, -⟩ := (expr_balanced callInLet inBody).1 hinBody
  obtain ⟨g', h⟩ : ∃ g', expr callInLet inBody = .ok g' := ⟨_, rfl⟩
  obtain ⟨hdepth, hframe, -⟩ := hdone g' h
  exact ⟨hinBody, ⟨g', h, hdepth, hframe⟩, fun n h hv => (hvisits n h hv).2 (by decide)⟩

end WordGenerator

end LetStack
