import LetStack.Code.Linking
import LetStack.Proofs.Generation

namespace LetStack

namespace Module

def patch (labels : Labels) (i : Instruction) : Instruction :=
  match (refersTo? i).bind (List.lookup · labels) with
  | some address => ⟨i.op, .address address⟩
  | none => i

theorem patch_of_refersTo?_eq_none {labels : Labels} {i : Instruction} (h : refersTo? i = none) :
    patch labels i = i := by
  simp [patch, h]

section

variable (labels : Labels)

@[simp] theorem patch_decl (count : Int) : patch labels (.decl count) = .decl count := rfl

@[simp] theorem patch_lval (offset : Int) : patch labels (.lval offset) = .lval offset := rfl

@[simp] theorem patch_pop (count : Int) : patch labels (.pop count) = .pop count := rfl

@[simp] theorem patch_store (t : Ty) : patch labels (.store t) = .store t := by cases t <;> rfl

@[simp] theorem patch_load (slot : Slot) : patch labels (.load slot) = .load slot := by
  rcases slot with ⟨offset, _ | _⟩ <;> rfl

@[simp] theorem patch_operator (op : BinOp) (t : Ty) :
    patch labels (op.instruction t) = op.instruction t := by
  cases op <;> cases t <;> rfl

end

theorem marks?_eq_some {i : Instruction} {name : String} :
    marks? i = some name ↔ i = ⟨.label, .label name⟩ := by
  rcases i with ⟨op, operand⟩
  cases operand <;> simp [marks?, Instruction.label?]

/-- The labels that are marked in the code, each with the address of its only mark. -/
def Collected (is : List Instruction) (labels : Labels) : Prop :=
  ∀ name a, labels.lookup name = some a ↔ is[a]? = some ⟨.label, .label name⟩

def MarkedTwice (is : List Instruction) (name : String) : Prop :=
  ∃ a b : Nat, a < b ∧ is[a]? = some ⟨.label, .label name⟩ ∧ is[b]? = some ⟨.label, .label name⟩

theorem not_markedTwice_of_nodup {is : List Instruction} (h : (is.filterMap marks?).Nodup)
    (name : String) : ¬MarkedTwice is name := by
  rintro ⟨a, b, hlt, ha, hb⟩
  obtain ⟨ha, hmark⟩ := List.getElem?_eq_some_iff.mp ha
  obtain ⟨hb, hmark'⟩ := List.getElem?_eq_some_iff.mp hb
  have hpairs := List.pairwise_iff_getElem.mp (List.pairwise_filterMap.mp h) a b ha hb hlt
  exact hpairs name (marks?_eq_some.mpr hmark) name (marks?_eq_some.mpr hmark') rfl

namespace Collected

variable {is : List Instruction} {i : Instruction} {labels : Labels}

theorem nil : Collected [] [] := by
  simp [Collected]

theorem not_markedTwice (h : Collected is labels) (name : String) : ¬MarkedTwice is name := by
  rintro ⟨a, b, hlt, ha, hb⟩
  have heq : some a = some b := ((h name a).mpr ha).symm.trans ((h name b).mpr hb)
  exact absurd (Option.some.inj heq) (Nat.ne_of_lt hlt)

theorem snoc_of_none (h : Collected is labels) (hi : marks? i = none) :
    Collected (is ++ [i]) labels := by
  intro name a
  rw [h name a, List.getElem?_append]
  split
  · rfl
  next hle =>
    have hne : i ≠ ⟨.label, .label name⟩ := fun h => by simp [marks?_eq_some.mpr h] at hi
    simp [List.getElem?_eq_none (Nat.le_of_not_lt hle), List.getElem?_singleton, hne]

theorem snoc_of_some (h : Collected is labels) {mark : String} (hi : marks? i = some mark)
    (hnew : labels.lookup mark = none) : Collected (is ++ [i]) ((mark, is.length) :: labels) := by
  obtain rfl := marks?_eq_some.mp hi
  intro name a
  by_cases hname : name = mark
  · subst hname
    rw [List.lookup_cons_self, List.getElem?_append]
    split
    next hlt =>
      rw [← h name a, hnew]
      simp
      omega
    next hle =>
      simp [List.getElem?_singleton]
      omega
  · rw [lookup_cons_of_ne hname, h name a, List.getElem?_append]
    split
    · rfl
    next hle =>
      simp [List.getElem?_eq_none (Nat.le_of_not_lt hle), List.getElem?_singleton, Ne.symm hname]

end Collected

/-- From the labels of the code in front, collecting goes on to the end, or to the first mark of a
label that has one already. -/
theorem collectLabels_cases {before : List Instruction} {labels : Labels}
    (h : Collected before labels) (is : List Instruction) :
    (∃ labels', collectLabels labels before.length is = .ok labels' ∧
      Collected (before ++ is) labels') ∨
    ∃ name, collectLabels labels before.length is = .error (.duplicateLabel name) ∧
      MarkedTwice (before ++ is) name := by
  induction is generalizing before labels with
  | nil => exact .inl ⟨labels, rfl, by simpa using h⟩
  | cons i is ih =>
    have hsnoc : before ++ i :: is = (before ++ [i]) ++ is := by simp
    have hlength : before.length + 1 = (before ++ [i]).length := by simp
    cases hi : marks? i with
    | none =>
      simp only [collectLabels, hi, hlength, hsnoc]
      exact ih (h.snoc_of_none hi)
    | some mark =>
      cases hmark : labels.lookup mark with
      | none =>
        simp only [collectLabels, hi, hmark, hlength, hsnoc]
        exact ih (h.snoc_of_some hi hmark)
      | some a =>
        -- `mark` was collected at `a`, so it stands there and here again.
        have ha := (h mark a).mp hmark
        have hlt : a < before.length := (List.getElem?_eq_some_iff.mp ha).1
        refine .inr ⟨mark, by simp only [collectLabels, hi, hmark], a, before.length, hlt, ?_, ?_⟩
        · rw [List.getElem?_append_left hlt, ha]
        · simp [marks?_eq_some.mp hi]

def Resolves (labels : Labels) (is : List Instruction) : Prop :=
  ∀ i ∈ is, ∀ name, refersTo? i = some name → ∃ a, labels.lookup name = some a

theorem substitute_eq {labels : Labels} {is : List Instruction} (h : Resolves labels is) :
    substitute labels is =
      (is.map (patch labels), .ok (is.countP fun i => (refersTo? i).isSome)) := by
  induction is with
  | nil => rfl
  | cons i is ih =>
    have his := ih fun j hj => h j (by simp [hj])
    cases hi : refersTo? i with
    | none => simp [substitute, hi, his, patch]
    | some name =>
      obtain ⟨a, ha⟩ := h i (by simp) name hi
      simp [substitute, hi, ha, his, patch, Except.map]

/-- The first label without an address ends the substitution. -/
theorem substitute_stops {labels : Labels} {before : List Instruction} {i : Instruction}
    {name : String}
    (h : Resolves labels before) (hi : refersTo? i = some name) (hnone : labels.lookup name = none)
    (after : List Instruction) :
    substitute labels (before ++ i :: after) =
      (before.map (patch labels) ++ i :: after, .error (.unresolvedLabel name)) := by
  induction before with
  | nil => simp [substitute, hi, hnone]
  | cons j before ih =>
    have hbefore := ih fun j hj => h j (by simp [hj])
    cases hj : refersTo? j with
    | none => simp [substitute, hj, hbefore, patch]
    | some name =>
      obtain ⟨a, ha⟩ := h j (by simp) name hj
      simp [substitute, hj, ha, hbefore, patch, Except.map]

theorem link_eq_ok {m : Module} {labels : Labels}
    (hcollect : collectLabels [] 0 m.code.toList = .ok labels) (h : Resolves labels m.code.toList) :
    m.link = (⟨(m.code.toList.map (patch labels)).toArray⟩,
      .ok (m.code.toList.countP fun i => (refersTo? i).isSome)) := by
  simp only [link, hcollect, substitute_eq h]

/-- The linked code stands at this address. -/
def Placed (m : Module) (labels : Labels) (pc : Nat) (is : List Instruction) : Prop :=
  ∀ (k : Nat) (i : Instruction), is[k]? = some i → m.get? (pc + k) = some (patch labels i)

namespace Placed

variable {m : Module} {labels : Labels} {pc : Nat}

theorem cons {i : Instruction} {is : List Instruction} :
    Placed m labels pc (i :: is) ↔
      m.get? pc = some (patch labels i) ∧ Placed m labels (pc + 1) is := by
  constructor
  · intro h
    refine ⟨h 0 i rfl, fun k j hj => ?_⟩
    rw [Nat.add_assoc, Nat.add_comm 1]
    exact h (k + 1) j hj
  · rintro ⟨hi, his⟩ k j hj
    cases k with
    | zero =>
      obtain rfl : i = j := by simpa using hj
      exact hi
    | succ k =>
      rw [Nat.add_comm k, ← Nat.add_assoc]
      exact his k j hj

theorem cast {is : List Instruction} {pc' : Nat} (h : Placed m labels pc is) (hpc : pc = pc') :
    Placed m labels pc' is :=
  hpc ▸ h

theorem append {is js : List Instruction} :
    Placed m labels pc (is ++ js) ↔
      Placed m labels pc is ∧ Placed m labels (pc + is.length) js := by
  induction is generalizing pc with
  | nil => simp [Placed]
  | cons i is ih =>
    have hpc : pc + (is.length + 1) = pc + 1 + is.length := by omega
    rw [List.cons_append, cons, ih, cons, List.length_cons, hpc, and_assoc]

theorem length_le {is : List Instruction} (h : Placed m labels pc is) : is.length ≤ m.size := by
  by_cases hpos : is.length = 0
  · omega
  · have hlast : is.length - 1 < is.length := by omega
    have hget := h (is.length - 1) _ (List.getElem?_eq_getElem hlast)
    have hlt : pc + (is.length - 1) < m.size := (Array.getElem?_eq_some_iff.mp hget).1
    omega

end Placed

def Inner (lifted : List (String × Signature)) (i : Instruction) : Prop :=
  marks? i = none ∧ ∀ name, refersTo? i = some name → ∃ sig, lifted.lookup name = some sig

theorem inner_mk {lifted : List (String × Signature)} {op : OpCode} {operand : Operand}
    (hlabel : op ≠ .label) (htransfer : op.controlTransfer = false) :
    Inner lifted ⟨op, operand⟩ := by
  simp [Inner, marks?, refersTo?, hlabel, htransfer]

end Module

open LetStack.Module

namespace Instruction

variable {lifted : List (String × Signature)}

@[simp] theorem inner_lval (offset : Int) : Inner lifted (lval offset) := inner_mk (by decide) rfl

@[simp] theorem inner_decl (count : Int) : Inner lifted (decl count) := inner_mk (by decide) rfl

@[simp] theorem inner_pop (count : Int) : Inner lifted (pop count) := inner_mk (by decide) rfl

@[simp] theorem inner_store (t : Ty) : Inner lifted (store t) := by
  cases t <;> exact inner_mk (by decide) rfl

@[simp] theorem inner_load (slot : Slot) : Inner lifted (load slot) := by
  rcases slot with ⟨offset, _ | _⟩ <;> exact inner_mk (by decide) rfl

@[simp] theorem inner_operator (op : BinOp) (t : Ty) : Inner lifted (op.instruction t) := by
  cases op <;> cases t <;> exact inner_mk (by decide) rfl

theorem inner_call {f : String} {sig : Signature} (h : lifted.lookup f = some sig) :
    Inner lifted ⟨.bsr, .label f⟩ := by
  refine ⟨rfl, fun name hname => ⟨sig, ?_⟩⟩
  obtain rfl : f = name := by simpa [refersTo?, OpCode.controlTransfer, label?] using hname
  exact h

end Instruction

namespace Expr

open Instruction

theorem codeOf_inner {args : List Expr} {s : Scopes} {ts : List Ty} (h : ArgsTyped s args ts)
    (frame : Frame) (hcode : ∀ a ∈ args, ∀ t, a.Typed s t → ∀ depth, ∀ i ∈ a.code frame depth,
      Inner s.lifted i) (depth : Int) : ∀ i ∈ codeOf frame depth args, Inner s.lifted i := by
  induction args generalizing ts with
  | nil => simp [codeOf]
  | cons arg args ih =>
    cases h with
    | cons harg hargs =>
      simp only [codeOf, List.forall_mem_append]
      exact ⟨ih hargs fun a ha => hcode a (by simp [ha]), hcode arg (by simp) _ harg _⟩

/-- The code of a typed tree is without marks and calls known functions. -/
theorem code_inner {e : Expr} {s : Scopes} {t : Ty} (h : e.Typed s t) (frame : Frame)
    (depth : Int) : ∀ i ∈ e.code frame depth, Inner s.lifted i := by
  induction e generalizing s t frame depth with
  | letFun | apply => simp [code]
  | letIn i x value body ihv ihb =>
    cases h with
    | letIn _ hvalue hbody =>
      simp only [code, List.forall_mem_append, List.forall_mem_cons, List.not_mem_nil,
        false_implies, inner_decl, inner_lval, inner_store, inner_pop, implies_true, true_and,
        and_true]
      exact ⟨ihv hvalue _ _, ihb hbody _ _⟩
  | call i f args ih =>
    cases h with
    | call _ hf hargs =>
      simp only [code, List.forall_mem_append, List.forall_mem_cons, List.not_mem_nil,
        false_implies, inner_decl, inner_pop, implies_true, true_and, and_true]
      exact ⟨codeOf_inner hargs frame (fun a ha t h depth => ih a ha h frame depth) _, inner_call hf⟩
  | seq i first second ihf ihs =>
    cases h with
    | seq _ hfirst hsecond =>
      simp only [code, List.forall_mem_append, List.forall_mem_cons, inner_pop, true_and]
      exact ⟨ihf hfirst _ _, ihs hsecond _ _⟩
  | binary i op left right ihl ihr =>
    cases h with
    | binary _ hleft hright _ =>
      simp only [code, List.forall_mem_append, List.forall_mem_cons, List.not_mem_nil,
        false_implies, inner_operator, implies_true, and_true]
      exact ⟨ihl hleft _ _, ihr hright _ _⟩
  | var i x => simp [code]
  | num | bool => simpa [code] using inner_mk (by decide) rfl

end Expr

namespace Module

theorem marks_labelled {lifted : List (String × Signature)} {name : String}
    {is : List Instruction} (h : ∀ i ∈ is, Inner lifted i) :
    (⟨.label, .label name⟩ :: is : List Instruction).filterMap marks? = [name] := by
  have hnone : is.filterMap marks? = [] := List.filterMap_eq_nil_iff.mpr fun i hi => (h i hi).1
  have hmark : marks? ⟨.label, .label name⟩ = some name := rfl
  rw [List.filterMap_cons_some hmark, hnone]

theorem placed_middle (labels : Labels) (before is after : List Instruction) :
    Placed ⟨((before ++ (is ++ after)).map (patch labels)).toArray⟩ labels before.length is := by
  intro k i hi
  have hk : k < is.length := (List.getElem?_eq_some_iff.mp hi).1
  have hget : (before ++ (is ++ after))[before.length + k]? = some i := by
    rw [List.getElem?_append_right (by omega), Nat.add_sub_cancel_left,
      List.getElem?_append_left hk, hi]
  simp only [get?, List.getElem?_toArray, List.getElem?_map, hget, Option.map_some]

/-- A label is found at its first mark, which linking leaves in place. -/
theorem labelIndex?_patch (labels : Labels) {name : String} {before after : List Instruction}
    (h : name ∉ before.filterMap marks?) :
    (⟨((before ++ ⟨.label, .label name⟩ :: after).map (patch labels)).toArray⟩ : Module).labelIndex?
      name = some before.length := by
  have hop : ∀ i, (patch labels i).op = i.op := by
    intro i
    unfold patch
    split <;> rfl
  -- linking neither makes nor changes a mark
  have hmark : ∀ i : Instruction, ((patch labels i).op = .label ∧
      (patch labels i).operand = .label name) → marks? i = some name := by
    rintro i ⟨hi, hname⟩
    rw [hop] at hi
    have hself : patch labels i = i := patch_of_refersTo?_eq_none (by
      simp [refersTo?, hi, OpCode.controlTransfer])
    rw [hself] at hname
    simp [marks?, hi, Instruction.label?, hname]
  have hbefore : before.findIdx? ((fun i : Instruction => decide (i.op = .label ∧
      i.operand = .label name)) ∘ patch labels) = none := by
    refine List.findIdx?_eq_none_iff.mpr fun i hi => ?_
    refine decide_eq_false fun hfound => h ?_
    exact List.mem_filterMap.mpr ⟨i, hi, hmark i hfound⟩
  simp only [labelIndex?, List.findIdx?_map, List.findIdx?_append, hbefore, Option.none_or,
    List.findIdx?_cons]
  simp [patch, refersTo?, OpCode.controlTransfer]

end Module

namespace Program

open Instruction

variable {p : Program} {t : Ty}

/-- The labels that the code of a program marks are all different. -/
theorem WellTyped.labels_nodup (h : p.WellTyped t) :
    (p.functions.map Function.name ++ [Module.mainLabel]).Nodup := by
  refine List.nodup_append.mpr ⟨h.nodup, by simp, fun a ha b hb hab => ?_⟩
  rw [List.mem_singleton.mp hb] at hab
  exact h.mainLabel (hab ▸ ha)

theorem function_inner (h : p.WellTyped t) {f : Function} (hf : f ∈ p.functions) :
    ∀ i ∈ f.code.tail, Inner p.signatures i := by
  have hbody := Expr.code_inner (h.functions f hf).1 (.forFunction f.params) 1
  rw [Scopes.params_lifted] at hbody
  simp only [Function.code, List.cons_append, List.nil_append, List.tail_cons,
    List.forall_mem_cons, List.forall_mem_append, List.not_mem_nil, false_implies, implies_true,
    inner_lval, inner_store, true_and, and_true]
  exact ⟨inner_mk (by decide) rfl, hbody, inner_mk (by decide) rfl, inner_mk (by decide) rfl⟩

theorem main_inner (h : p.WellTyped t) : ∀ i ∈ p.mainCode.tail, Inner p.signatures i := by
  simp only [mainCode, List.cons_append, List.tail_cons, List.forall_mem_append,
    List.forall_mem_cons, List.not_mem_nil, false_implies, implies_true, and_true]
  exact ⟨Expr.code_inner h.main.1 .forMain 0, inner_mk (by decide) rfl⟩

theorem functions_marks (h : p.WellTyped t) :
    (p.functions.flatMap Function.code).filterMap marks? = p.functions.map Function.name := by
  have hmap : p.functions.map (fun f => f.code.filterMap marks?) =
      p.functions.map fun f => [f.name] :=
    List.map_congr_left fun f hf => marks_labelled (function_inner h hf)
  rw [List.filterMap_flatMap, List.flatMap_def, hmap, ← List.flatMap_def, List.map_eq_flatMap]

theorem code_marks (h : p.WellTyped t) :
    p.code.filterMap marks? = p.functions.map Function.name ++ [mainLabel] := by
  rw [code, List.filterMap_append, functions_marks h]
  exact congrArg _ (marks_labelled (main_inner h))

/-- Calls refer to functions of the program. -/
theorem code_refers (h : p.WellTyped t) : ∀ i ∈ p.code, ∀ name, refersTo? i = some name →
    ∃ f ∈ p.functions, f.name = name := by
  have hinner : ∀ i, Inner p.signatures i → ∀ name, refersTo? i = some name →
      ∃ f ∈ p.functions, f.name = name := by
    intro i hi name hname
    obtain ⟨sig, hsig⟩ := hi.2 name hname
    obtain ⟨f, hf, -⟩ := h.functionsTyped name sig hsig
    exact ⟨f, List.mem_reverse.mp (List.mem_of_find?_eq_some hf), by simpa using List.find?_some hf⟩
  have hlabel : ∀ name, refersTo? ⟨.label, .label name⟩ = none := fun _ => rfl
  intro i hi
  rcases List.mem_append.mp hi with hi | hi
  · obtain ⟨f, hf, hi⟩ := List.mem_flatMap.mp hi
    rcases List.mem_cons.mp hi with rfl | hi
    · simp [hlabel]
    · exact hinner i (function_inner h hf i hi)
  · rcases List.mem_cons.mp hi with rfl | hi
    · simp [hlabel]
    · exact hinner i (main_inner h i hi)

/-- The linked module holds the program: its functions where their labels say, and the main
expression at the entry point. -/
structure Linked (p : Program) (m : Module) (labels : Labels) : Prop where
  function : ∀ f ∈ p.functions, ∃ a, labels.lookup f.name = some a ∧ m.Placed labels a f.code
  main : ∃ a, m.entry? = some a ∧ m.Placed labels a p.mainCode

/-- Linking a well-typed program succeeds. -/
theorem link_code (h : p.WellTyped t) :
    ∃ m labels n, link ⟨p.code.toArray⟩ = (m, .ok n) ∧ p.Linked m labels := by
  have hnodup : (p.code.filterMap marks?).Nodup := code_marks h ▸ h.labels_nodup
  obtain ⟨labels, hcollect, hlabels⟩ : ∃ labels, collectLabels [] 0 p.code = .ok labels ∧
      Collected p.code labels :=
    (collectLabels_cases .nil p.code).resolve_right fun ⟨name, _, htwice⟩ =>
      not_markedTwice_of_nodup hnodup name htwice
  have hfunction : ∀ f ∈ p.functions, ∃ before after,
      p.code = before ++ (f.code ++ after) ∧ labels.lookup f.name = some before.length := by
    intro f hf
    -- the code of `f` stands behind that of the functions `fs`
    obtain ⟨fs, gs, hsplit⟩ := List.append_of_mem hf
    have hcode : p.code = fs.flatMap Function.code ++ (f.code ++ (gs.flatMap Function.code ++
        p.mainCode)) := by
      simp [code, hsplit]
    refine ⟨_, _, hcode, ?_⟩
    have hfirst : p.code[(fs.flatMap Function.code).length]? = some ⟨.label, .label f.name⟩ := by
      rw [hcode, List.getElem?_append_right (Nat.le_refl _), Nat.sub_self]
      rfl
    exact (hlabels _ _).mpr hfirst
  have hrefers : Resolves labels p.code := by
    intro i hi name hname
    obtain ⟨f, hf, rfl⟩ := code_refers h i hi name hname
    obtain ⟨before, -, -, hbefore⟩ := hfunction f hf
    exact ⟨_, hbefore⟩
  refine ⟨_, labels, _, link_eq_ok hcollect hrefers, ?_, ?_⟩
  · intro f hf
    obtain ⟨before, after, hcode, hbefore⟩ := hfunction f hf
    exact ⟨_, hbefore, hcode ▸ placed_middle labels before f.code after⟩
  · refine ⟨(p.functions.flatMap Function.code).length, ?_, ?_⟩
    · exact labelIndex?_patch labels (functions_marks h ▸ h.mainLabel)
    · simpa [code] using placed_middle labels (p.functions.flatMap Function.code) p.mainCode []

end Program

end LetStack
