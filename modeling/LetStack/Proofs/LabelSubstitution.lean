import LetStack.Proofs.Linking

namespace LetStack.Module

def MarkAt (m : Module) (name : String) (a : Nat) : Prop :=
  m.get? a = some ⟨.label, .label name⟩

def References (i : Instruction) (name : String) : Prop :=
  (i.op = .bsr ∨ i.op = .bra ∨ i.op = .brf) ∧ i.operand = .label name

instance (i : Instruction) : Decidable (∃ name, References i name) :=
  decidable_of_iff ((i.op = .bsr ∨ i.op = .bra ∨ i.op = .brf) ∧ i.label?.isSome) <| by
    rcases i with ⟨op, operand⟩
    cases operand <;> simp [References, Instruction.label?]

def DanglesAt (m : Module) (k : Nat) (name : String) : Prop :=
  ∃ i, m.get? k = some i ∧ References i name ∧ ∀ a, ¬m.MarkAt name a

def Anchored (m : Module) (i : Instruction) : Prop :=
  ∀ name, References i name → ∃ a, m.MarkAt name a

/-- What substitution makes of an instruction of the module. -/
inductive Substituted (m : Module) (i : Instruction) : Instruction → Prop
  | reference {name : String} {a : Nat} (h : References i name) (hmark : m.MarkAt name a)
      (honly : ∀ b, m.MarkAt name b → b = a) (hlt : a < m.size) : Substituted m i ⟨i.op, .address a⟩
  | other (h : ∀ name, ¬References i name) : Substituted m i i

/-- The modules differ below address `k` alone, and there by substitution. -/
structure SubstitutedBelow (m : Module) (k : Nat) (linked : Module) : Prop where
  size : linked.size = m.size
  below : ∀ j < k, ∀ i, m.get? j = some i → ∃ i', linked.get? j = some i' ∧ m.Substituted i i'
  above : ∀ j, k ≤ j → linked.get? j = m.get? j

theorem refersTo?_eq_some {i : Instruction} {name : String} :
    refersTo? i = some name ↔ References i name := by
  rcases i with ⟨op, operand⟩
  cases op <;> cases operand <;>
    simp [refersTo?, References, OpCode.controlTransfer, Instruction.label?]

section

variable {m : Module} {labels : Labels}

theorem get?_eq_toList (m : Module) (k : Nat) : m.get? k = m.code.toList[k]? := by
  simp [get?]

theorem lookup_iff_markAt (h : Collected m.code.toList labels) {name : String} {a : Nat} :
    labels.lookup name = some a ↔ m.MarkAt name a := by
  rw [h name a, MarkAt, get?_eq_toList]

theorem lookup_eq_none_iff (h : Collected m.code.toList labels) {name : String} :
    labels.lookup name = none ↔ ∀ a, ¬m.MarkAt name a := by
  simp only [Option.eq_none_iff_forall_ne_some, ne_eq, lookup_iff_markAt h]

/-- With the addresses of all marks at hand, an instruction is patched by substitution. -/
theorem substituted_patch (h : Collected m.code.toList labels) {i : Instruction}
    (hi : m.Anchored i) : m.Substituted i (patch labels i) := by
  cases hrefers : refersTo? i with
  | none =>
    rw [patch_of_refersTo?_eq_none hrefers]
    refine .other fun name hname => ?_
    simp [refersTo?_eq_some.mpr hname] at hrefers
  | some name =>
    have hname := refersTo?_eq_some.mp hrefers
    obtain ⟨a, ha⟩ := hi name hname
    have hlookup := (lookup_iff_markAt h).mpr ha
    have hpatch : patch labels i = ⟨i.op, .address a⟩ := by simp [patch, hrefers, hlookup]
    rw [hpatch]
    refine .reference hname ha (fun b hb => ?_) (Array.getElem?_eq_some_iff.mp ha).1
    exact Option.some.inj (((lookup_iff_markAt h).mpr hb).symm.trans hlookup)

theorem resolves_of_anchored (h : Collected m.code.toList labels) {is : List Instruction}
    (his : ∀ i ∈ is, m.Anchored i) : Resolves labels is := by
  intro i hi name hname
  obtain ⟨a, ha⟩ := his i hi name (refersTo?_eq_some.mp hname)
  exact ⟨a, (lookup_iff_markAt h).mpr ha⟩

/-- The code is patched in its first part, where all references are to marks. -/
theorem substitutedBelow_patch (h : Collected m.code.toList labels) {before after : List Instruction}
    (hcode : m.code.toList = before ++ after) (hbefore : ∀ i ∈ before, m.Anchored i) :
    m.SubstitutedBelow before.length ⟨(before.map (patch labels) ++ after).toArray⟩ := by
  refine ⟨?_, fun j hj i hi => ⟨patch labels i, ?_, ?_⟩, fun j hj => ?_⟩
  · simp [size, ← Array.length_toList, hcode]
  · rw [get?_eq_toList, hcode, List.getElem?_append_left hj] at hi
    rw [get?_eq_toList, List.getElem?_append_left (by simpa using hj), List.getElem?_map, hi,
      Option.map_some]
  · rw [get?_eq_toList, hcode, List.getElem?_append_left hj] at hi
    exact substituted_patch h (hbefore i (List.mem_of_getElem? hi))
  · rw [get?_eq_toList, get?_eq_toList, hcode, List.getElem?_append_right hj,
      List.getElem?_append_right (by simpa using hj), List.length_map]

/-- Substitution makes no marks. -/
theorem SubstitutedBelow.markAt {linked : Module} {k : Nat} (h : m.SubstitutedBelow k linked)
    {name : String} {a : Nat} (ha : linked.MarkAt name a) : m.MarkAt name a := by
  by_cases hk : a < k
  · have hlt : a < m.size := h.size ▸ (Array.getElem?_eq_some_iff.mp ha).1
    have hget : m.get? a = some m.code[a] := Array.getElem?_eq_getElem hlt
    obtain ⟨i', hi', hsubst⟩ := h.below a hk _ hget
    obtain rfl : i' = ⟨.label, .label name⟩ := Option.some.inj (hi'.symm.trans ha)
    -- an address is no label, so the instruction is the one that was there
    generalize hmark : (⟨.label, .label name⟩ : Instruction) = mark at hsubst
    cases hsubst with
    | reference => simp at hmark
    | other => rw [MarkAt, hget, hmark]
  · exact (h.above a (Nat.le_of_not_lt hk)).symm.trans ha

theorem SubstitutedBelow.markedTwice {linked : Module} {k : Nat} (h : m.SubstitutedBelow k linked)
    {name : String} (htwice : MarkedTwice linked.code.toList name) :
    MarkedTwice m.code.toList name := by
  obtain ⟨a, b, hlt, ha, hb⟩ := htwice
  simp only [← get?_eq_toList] at ha hb
  refine ⟨a, b, hlt, ?_, ?_⟩ <;> rw [← get?_eq_toList]
  · exact h.markAt ha
  · exact h.markAt hb

theorem SubstitutedBelow.not_references {linked : Module} (h : m.SubstitutedBelow m.size linked)
    {i : Instruction} (hi : i ∈ linked.code.toList) (name : String) : ¬References i name := by
  obtain ⟨a, ha⟩ := List.getElem?_of_mem hi
  rw [← get?_eq_toList] at ha
  have hlt : a < m.size := h.size ▸ (Array.getElem?_eq_some_iff.mp ha).1
  obtain ⟨i', hi', hsubst⟩ := h.below a hlt _ (Array.getElem?_eq_getElem hlt)
  obtain rfl : i' = i := Option.some.inj (hi'.symm.trans ha)
  cases hsubst with
  | reference => simp [References]
  | other hnone => exact hnone name

end

/-- The one way for linking to go, told by the first fault of the module. -/
inductive Links (m : Module) : Module × Except Fault Nat → Prop
  | duplicate {name : String} (htwice : MarkedTwice m.code.toList name) :
      Links m (m, .error (.duplicateLabel name))
  | unresolved {k : Nat} {name : String} {linked : Module}
      (honce : ∀ name, ¬MarkedTwice m.code.toList name) (hk : m.DanglesAt k name)
      (hfirst : ∀ j < k, ∀ name, ¬m.DanglesAt j name) (hlinked : m.SubstitutedBelow k linked) :
      Links m (linked, .error (.unresolvedLabel name))
  | done {linked : Module} (honce : ∀ name, ¬MarkedTwice m.code.toList name)
      (hnone : ∀ k name, ¬m.DanglesAt k name) (hlinked : m.SubstitutedBelow m.size linked) :
      Links m (linked, .ok (m.code.toList.countP fun i => ∃ name, References i name))

/-- A reference to an unmarked label is met behind anchored instructions only. -/
theorem links_substitute {m : Module} {labels : Labels} (h : Collected m.code.toList labels)
    {before after : List Instruction} {i : Instruction}
    (hcode : m.code.toList = before ++ i :: after)
    (hbefore : ∀ j ∈ before, m.Anchored j) (hi : ¬m.Anchored i) :
    m.Links (⟨(substitute labels m.code.toList).1.toArray⟩,
      (substitute labels m.code.toList).2) := by
  obtain ⟨name, hname, hunmarked⟩ : ∃ name, References i name ∧ ∀ a, ¬m.MarkAt name a := by
    simpa [Anchored] using hi
  rw [hcode, substitute_stops (resolves_of_anchored h hbefore) (refersTo?_eq_some.mpr hname)
    ((lookup_eq_none_iff h).mpr hunmarked)]
  refine .unresolved h.not_markedTwice (k := before.length) ⟨i, ?_, hname, hunmarked⟩
    (fun j hj name' hdangles => ?_) (substitutedBelow_patch h hcode hbefore)
  · rw [get?_eq_toList, hcode, List.getElem?_append_right (Nat.le_refl _), Nat.sub_self]
    rfl
  · obtain ⟨i', hi', hname', hunmarked'⟩ := hdangles
    rw [get?_eq_toList, hcode, List.getElem?_append_left hj] at hi'
    obtain ⟨a, ha⟩ := hbefore i' (List.mem_of_getElem? hi') name' hname'
    exact hunmarked' a ha

/-- Where all instructions are anchored, all references are replaced. -/
theorem links_patch {m : Module} {labels : Labels} (h : Collected m.code.toList labels)
    (hall : ∀ i ∈ m.code.toList, m.Anchored i) :
    m.Links (⟨(m.code.toList.map (patch labels)).toArray⟩,
      .ok (m.code.toList.countP fun i => (refersTo? i).isSome)) := by
  have hcount : (m.code.toList.countP fun i => (refersTo? i).isSome) =
      m.code.toList.countP fun i => ∃ name, References i name := by
    refine List.countP_congr fun i _ => ?_
    simp only [decide_eq_true_eq, Option.isSome_iff_exists, refersTo?_eq_some]
  have hlinked := substitutedBelow_patch h (List.append_nil _).symm hall
  rw [List.append_nil] at hlinked
  rw [hcount]
  refine .done h.not_markedTwice (fun k name ⟨i, hi, hname, hunmarked⟩ => ?_) hlinked
  rw [get?_eq_toList] at hi
  obtain ⟨a, ha⟩ := hall i (List.mem_of_getElem? hi) name hname
  exact hunmarked a ha

theorem links_link (m : Module) : m.Links m.link := by
  rcases collectLabels_cases .nil m.code.toList with ⟨labels, hcollect, hlabels⟩ |
    ⟨name, hcollect, htwice⟩
  · have hfrom : collectLabels [] 0 m.code.toList = .ok labels := hcollect
    classical
    cases hfind : m.code.toList.find? fun i => ¬m.Anchored i with
    | none =>
      have hall : ∀ i ∈ m.code.toList, m.Anchored i := by simpa using hfind
      rw [link_eq_ok hfrom (resolves_of_anchored hlabels hall)]
      exact links_patch hlabels hall
    | some i =>
      obtain ⟨hi, before, after, hcode, hbefore⟩ := List.find?_eq_some_iff_append.mp hfind
      simp only [link, hfrom]
      exact links_substitute hlabels hcode (by simpa using hbefore) (by simpa using hi)
  · have hfrom : collectLabels [] 0 m.code.toList = .error (.duplicateLabel name) := hcollect
    rw [link, hfrom]
    exact .duplicate htwice

/-- Code without references is left as it is. -/
theorem link_of_not_references {m : Module} (honce : ∀ name, ¬MarkedTwice m.code.toList name)
    (h : ∀ i ∈ m.code.toList, ∀ name, ¬References i name) : m.link = (m, .ok 0) := by
  have hnone : ∀ i ∈ m.code.toList, refersTo? i = none := fun i hi =>
    Option.eq_none_iff_forall_ne_some.mpr fun name hname => h i hi name (refersTo?_eq_some.mp hname)
  obtain ⟨labels, hcollect, -⟩ := (collectLabels_cases .nil m.code.toList).resolve_right
    fun ⟨name, _, htwice⟩ => honce name htwice
  have hresolves : Resolves labels m.code.toList :=
    fun i hi name hname => by simp [hnone i hi] at hname
  have hmap : m.code.toList.map (patch labels) = m.code.toList :=
    (List.map_congr_left fun i hi => patch_of_refersTo?_eq_none (hnone i hi)).trans (List.map_id _)
  have hcount : (m.code.toList.countP fun i => (refersTo? i).isSome) = 0 :=
    List.countP_eq_zero.mpr fun i hi => by simp [hnone i hi]
  rw [link_eq_ok hcollect hresolves, hmap, hcount, Array.toArray_toList]

/-- Linking is label substitution. It reports a label twice exactly if one is marked twice, and
leaves that module alone. Otherwise it reports an unresolved label exactly if a reference dangles,
and then it has substituted in front of the first such reference. Otherwise it has substituted
everywhere, counted the references, and finds nothing to do in the module it gives. -/
theorem link_substitutes_labels (m : Module) :
    ((∃ name, m.link.2 = .error (.duplicateLabel name)) ↔
      ∃ name, MarkedTwice m.code.toList name) ∧
    (∀ name, m.link.2 = .error (.duplicateLabel name) →
      MarkedTwice m.code.toList name ∧ m.link.1 = m) ∧
    ((∀ name, ¬MarkedTwice m.code.toList name) →
      ((∃ name, m.link.2 = .error (.unresolvedLabel name)) ↔ ∃ k name, m.DanglesAt k name) ∧
      (∀ name, m.link.2 = .error (.unresolvedLabel name) → ∃ k, m.DanglesAt k name ∧
        (∀ j < k, ∀ name, ¬m.DanglesAt j name) ∧ m.SubstitutedBelow k m.link.1) ∧
      ((∀ k name, ¬m.DanglesAt k name) →
        m.link.2 = .ok (m.code.toList.countP fun i => ∃ name, References i name) ∧
        m.SubstitutedBelow m.size m.link.1 ∧ m.link.1.link = (m.link.1, .ok 0))) := by
  have hlinks := links_link m
  -- `Links` has one case for each way the pass can end; the three parts are read off them.
  generalize m.link = outcome at hlinks ⊢
  cases hlinks with
  | @duplicate name htwice =>
    refine ⟨⟨fun _ => ⟨name, htwice⟩, fun _ => ⟨name, rfl⟩⟩, ?_, fun honce =>
      absurd htwice (honce name)⟩
    rintro _ ⟨⟩
    exact ⟨htwice, rfl⟩
  | @unresolved k name linked honce hk hfirst hlinked =>
    refine ⟨⟨by simp, fun ⟨name, htwice⟩ => absurd htwice (honce name)⟩, by simp, fun _ =>
      ⟨⟨fun _ => ⟨k, name, hk⟩, fun _ => ⟨name, rfl⟩⟩, ?_, fun hnone => absurd hk (hnone k name)⟩⟩
    rintro _ ⟨⟩
    exact ⟨k, hk, hfirst, hlinked⟩
  | @done linked honce hnone hlinked =>
    refine ⟨⟨by simp, fun ⟨name, htwice⟩ => absurd htwice (honce name)⟩, by simp, fun _ =>
      ⟨⟨by simp, fun ⟨k, name, hk⟩ => absurd hk (hnone k name)⟩, by simp, fun _ =>
        ⟨rfl, hlinked, ?_⟩⟩⟩
    refine link_of_not_references (fun name htwice => honce name ?_) fun i hi =>
      hlinked.not_references hi
    exact hlinked.markedTwice htwice

-- the call in front of the dangling jump is linked, the one behind it is not
example :
    link ⟨#[⟨.bsr, .label "g"⟩, ⟨.bra, .label "h"⟩, ⟨.label, .label "g"⟩, ⟨.bsr, .label "g"⟩]⟩ =
      (⟨#[⟨.bsr, .address 2⟩, ⟨.bra, .label "h"⟩, ⟨.label, .label "g"⟩, ⟨.bsr, .label "g"⟩]⟩,
        .error (.unresolvedLabel "h")) := by
  rfl

end LetStack.Module
