import Mathlib
import LetStack.Code.SlotTable
import LetStack.Proofs.Generation

namespace LetStack

inductive Change where
  | declare (name : String) (slot : Slot)
  | release
deriving DecidableEq, Repr

namespace Change

def releases (changes : List Change) : Nat := changes.count .release

def declarations (changes : List Change) : Nat := changes.countP (· ≠ .release)

section

variable (l : List Change) (name : String) (slot : Slot)

@[simp] theorem releases_nil : releases [] = 0 := rfl

@[simp] theorem declarations_nil : declarations [] = 0 := rfl

@[simp] theorem releases_release : releases (l ++ [.release]) = releases l + 1 := by
  simp [releases]

@[simp] theorem declarations_release : declarations (l ++ [.release]) = declarations l := by
  simp [declarations]

@[simp] theorem releases_declare : releases (l ++ [.declare name slot]) = releases l := by
  simp [releases]

@[simp] theorem declarations_declare :
    declarations (l ++ [.declare name slot]) = declarations l + 1 := by
  simp [declarations]

end

end Change

namespace Frame

def change (f : Frame) : Change → Frame
  | .declare name slot => f.declare name slot.ty slot.offset
  | .release => f.release

def after (f : Frame) (changes : List Change) : Frame := changes.foldl change f

theorem after_concat (f : Frame) (cs : List Change) (c : Change) :
    f.after (cs ++ [c]) = (f.after cs).change c := by
  simp [after]

theorem after_params (f : Frame) (cs : List Change) : (f.after cs).params = f.params := by
  induction cs using List.reverseRecOn with
  | nil => rfl
  | append_singleton cs c ih =>
    rw [after_concat, ← ih]
    cases c <;> rfl

theorem after_releases (f : Frame) (n : Nat) :
    (f.after (List.replicate n .release)).locals = f.locals.drop n := by
  induction n with
  | zero => rfl
  | succ n ih =>
    rw [List.replicate_succ', after_concat]
    change (f.after (List.replicate n .release)).locals.tail = _
    rw [ih, List.tail_drop]

theorem get?_eq (f : Frame) (x : String) :
    f.get? x = (f.locals.lookup x).or (f.params.lookup x) := List.lookup_append

/-- The cells that the locals hide, each found below its local. -/
def hidden (params : Slots) : Slots → List (String × Option Slot)
  | [] => []
  | (x, _) :: locals => (x, (locals ++ params).lookup x) :: hidden params locals

theorem length_hidden (params locals : Slots) : (hidden params locals).length = locals.length := by
  induction locals with
  | nil => rfl
  | cons entry locals ih => rw [hidden, List.length_cons, ih, List.length_cons]

end Frame

namespace SlotTable

def change (t : SlotTable) : Change → SlotTable
  | .declare name slot => t.declare name slot.ty slot.offset
  | .release => t.release

def after (t : SlotTable) (changes : List Change) : SlotTable := changes.foldl change t

theorem get?_declare (t : SlotTable) (x y : String) (ty : Ty) (offset : Int) :
    (t.declare x ty offset).get? y = if y = x then some ⟨offset, ty⟩ else t.get? y :=
  Table.lookup_put t.slots x y ⟨offset, ty⟩

theorem get?_release {t : SlotTable} {x : String} {hid : Option Slot}
    {locals : List (String × Option Slot)} (h : t.locals = (x, hid) :: locals) (y : String) :
    t.release.get? y = if y = x then hid else t.get? y := by
  cases hid with
  | none => simp only [get?, release, h, Table.lookup_remove]
  | some slot => simp only [get?, release, h, Table.lookup_put]

theorem locals_release (t : SlotTable) : t.release.locals = t.locals.tail := by
  rcases h : t.locals with _ | ⟨⟨x, _ | slot⟩, locals⟩ <;> simp [release, h]

/-- The table shows the cells of the frame and remembers those that the frame's locals hide. -/
structure Stores (t : SlotTable) (f : Frame) : Prop where
  get? : ∀ x, t.get? x = f.get? x
  locals : t.locals = Frame.hidden f.params f.locals

namespace Stores

variable {t : SlotTable} {f : Frame}

theorem declare (h : t.Stores f) (x : String) (ty : Ty) (offset : Int) :
    (t.declare x ty offset).Stores (f.declare x ty offset) := by
  constructor
  · intro y
    rw [SlotTable.get?_declare, Frame.get?_declare, h.get? y]
  · change (x, t.get? x) :: t.locals = (x, f.get? x) :: Frame.hidden f.params f.locals
    rw [h.get? x, h.locals]

/-- What the newest local hid is what its name stands for without it. -/
theorem release (h : t.Stores f) : t.release.Stores f.release := by
  obtain ⟨params, locals, returnOffset?⟩ := f
  have hlocals := h.locals
  cases locals with
  | nil =>
    have hempty : t.release = t := by
      rw [SlotTable.release, hlocals]
      rfl
    rw [hempty]
    exact h
  | cons entry locals =>
    obtain ⟨x, slot⟩ := entry
    change t.locals = (x, (locals ++ params).lookup x) :: Frame.hidden params locals at hlocals
    constructor
    · intro y
      change _ = (locals ++ params).lookup y
      rw [get?_release hlocals]
      split
      next hy => rw [hy]
      next hy => exact (h.get? y).trans (lookup_cons_of_ne hy)
    · rw [locals_release, hlocals]
      rfl

theorem after (h : t.Stores f) (changes : List Change) :
    (t.after changes).Stores (f.after changes) := by
  induction changes generalizing t f with
  | nil => exact h
  | cons c changes ih =>
    cases c with
    | declare name slot => exact ih (h.declare name slot.ty slot.offset)
    | release => exact ih h.release

theorem length_locals (h : t.Stores f) : t.locals.length = f.locals.length := by
  rw [h.locals, Frame.length_hidden]

end Stores

theorem lookup_placeParams (offset : Int) (ps : List Param) (slots : Slots) (x : String) :
    (placeParams offset ps slots).lookup x = (Frame.paramSlots offset ps ++ slots).lookup x := by
  induction ps generalizing offset slots with
  | nil => rfl
  | cons p ps ih =>
    rw [placeParams, ih, Frame.paramSlots, List.append_assoc, List.lookup_append, List.lookup_append,
      Table.lookup_put]
    congr 1
    split
    next hx => simp [hx]
    next hx => rw [List.singleton_append, lookup_cons_of_ne hx]

theorem forFunction_stores (ps : List Param) : (forFunction ps).Stores (.forFunction ps) := by
  refine ⟨fun x => ?_, rfl⟩
  change (placeParams Frame.firstParam ps []).lookup x = _
  rw [lookup_placeParams, List.append_nil]
  rfl

theorem forMain_stores : forMain.Stores .forMain := ⟨fun _ => rfl, rfl⟩

end SlotTable

/-- The changes release no local that was there before them: however far one reads, there are no
more releases than new locals. -/
def SparesEarlier (changes : List Change) : Prop :=
  ∀ p, p <+: changes → Change.releases p ≤ Change.declarations p

def Unreleased (cs : List Change) (i : Nat) (name : String) (slot : Slot) : Prop :=
  cs[i]? = some (.declare name slot) ∧ SparesEarlier (cs.drop (i + 1))

/-- What a name stands for after the changes: its newest local that is not released, else its last
parameter, else nothing. -/
inductive InSight (ps : List Param) (cs : List Change) (name : String) : Option Slot → Prop
  | newest {i : Nat} {slot : Slot} (hslot : Unreleased cs i name slot)
      (hlast : ∀ j slot', Unreleased cs j name slot' → j ≤ i) : InSight ps cs name (some slot)
  | param {k : Nat} {p : Param} (hnone : ∀ i slot, ¬ Unreleased cs i name slot)
      (hp : ps[k]? = some p) (hname : p.name = name)
      (hlast : ∀ j q, ps[j]? = some q → q.name = name → j ≤ k) :
      InSight ps cs name (some ⟨2 + k, p.ty⟩)
  | nothing (hnone : ∀ i slot, ¬ Unreleased cs i name slot) (hps : ∀ p ∈ ps, p.name ≠ name) :
      InSight ps cs name none

theorem InSight.unique {ps : List Param} {cs : List Change} {name : String} {a b : Option Slot}
    (ha : InSight ps cs name a) (hb : InSight ps cs name b) : a = b := by
  cases ha with
  | newest hslot hlast =>
    cases hb with
    | newest hslot' hlast' =>
      obtain rfl := Nat.le_antisymm (hlast' _ _ hslot) (hlast _ _ hslot')
      cases hslot.1.symm.trans hslot'.1
      rfl
    | param hnone => exact absurd hslot (hnone _ _)
    | nothing hnone => exact absurd hslot (hnone _ _)
  | param hnone hp hname hlast =>
    cases hb with
    | newest hslot => exact absurd hslot (hnone _ _)
    | param _ hp' hname' hlast' =>
      obtain rfl := Nat.le_antisymm (hlast' _ _ hp hname) (hlast _ _ hp' hname')
      cases hp.symm.trans hp'
      rfl
    | nothing _ hps => exact absurd hname (hps _ (List.mem_of_getElem? hp))
  | nothing hnone hps =>
    cases hb with
    | newest hslot => exact absurd hslot (hnone _ _)
    | param _ hp hname => exact absurd hname (hps _ (List.mem_of_getElem? hp))
    | nothing => rfl

theorem sparesEarlier_concat {l : List Change} {c : Change} :
    SparesEarlier (l ++ [c]) ↔
      SparesEarlier l ∧ Change.releases (l ++ [c]) ≤ Change.declarations (l ++ [c]) := by
  simp only [SparesEarlier, List.prefix_concat_iff]
  constructor
  · intro h
    exact ⟨fun p hp => h p (.inr hp), h _ (.inl rfl)⟩
  · rintro ⟨hl, hall⟩ p (rfl | hp)
    · exact hall
    · exact hl p hp

def Outlasts (n : Nat) (changes : List Change) : Prop :=
  SparesEarlier changes ∧ Change.releases changes + n ≤ Change.declarations changes

theorem outlasts_zero {l : List Change} : Outlasts 0 l ↔ SparesEarlier l :=
  ⟨And.left, fun h => ⟨h, h l List.prefix_rfl⟩⟩

theorem outlasts_nil {n : Nat} : Outlasts n [] ↔ n = 0 := by
  simp [Outlasts, SparesEarlier]

theorem outlasts_release {n : Nat} {l : List Change} :
    Outlasts n (l ++ [.release]) ↔ Outlasts (n + 1) l := by
  rw [Outlasts, sparesEarlier_concat, Outlasts, and_assoc]
  refine and_congr_right fun _ => ?_
  rw [Change.releases_release, Change.declarations_release]
  omega

theorem outlasts_declare_succ {n : Nat} {l : List Change} {name : String} {slot : Slot} :
    Outlasts (n + 1) (l ++ [.declare name slot]) ↔ Outlasts n l := by
  rw [Outlasts, sparesEarlier_concat, Outlasts, and_assoc]
  refine and_congr_right fun _ => ?_
  rw [Change.releases_declare, Change.declarations_declare]
  omega

theorem outlasts_declare_zero {l : List Change} {name : String} {slot : Slot} :
    Outlasts 0 (l ++ [.declare name slot]) ↔ Outlasts 0 l := by
  rw [outlasts_zero, outlasts_zero, sparesEarlier_concat, and_iff_left_iff_imp]
  intro h
  rw [Change.releases_declare, Change.declarations_declare]
  exact Nat.le_succ_of_le (h l List.prefix_rfl)

def Standing (n : Nat) (cs : List Change) (i : Nat) (name : String) (slot : Slot) : Prop :=
  cs[i]? = some (.declare name slot) ∧ Outlasts n (cs.drop (i + 1))

def Newest (n : Nat) (cs : List Change) (name : String) : Option Slot → Prop
  | some slot => ∃ i, Standing n cs i name slot ∧ ∀ j slot', Standing n cs j name slot' → j ≤ i
  | none => ∀ i slot, ¬ Standing n cs i name slot

theorem standing_concat {n : Nat} {cs : List Change} {c : Change} {i : Nat} {x : String}
    {slot : Slot} :
    Standing n (cs ++ [c]) i x slot ↔
      cs[i]? = some (.declare x slot) ∧ Outlasts n (cs.drop (i + 1) ++ [c]) ∨
        i = cs.length ∧ c = .declare x slot ∧ n = 0 := by
  unfold Standing
  rcases Nat.lt_trichotomy i cs.length with hi | rfl | hi
  · rw [List.getElem?_append_left hi, List.drop_append_of_le_length hi]
    simp [Nat.ne_of_lt hi]
  · simp [outlasts_nil]
  · have hlen : (cs ++ [c]).length ≤ i := by simpa using hi
    simp [List.getElem?_eq_none hlen, List.getElem?_eq_none (Nat.le_of_lt hi), Nat.ne_of_gt hi]

theorem Newest.congr {n n' : Nat} {cs cs' : List Change} {x : String} {answer : Option Slot}
    (hiff : ∀ i slot, Standing n cs i x slot ↔ Standing n' cs' i x slot)
    (hn : Newest n cs x answer) :
    Newest n' cs' x answer := by
  cases answer with
  | none => exact fun i slot hs => hn i slot ((hiff i slot).mpr hs)
  | some slot =>
    obtain ⟨i, hi, hlast⟩ := hn
    exact ⟨i, (hiff i slot).mp hi, fun j slot' hj => hlast j slot' ((hiff j slot').mpr hj)⟩

theorem newest_concat {cs : List Change} (x : String) (slot : Slot) :
    Newest 0 (cs ++ [.declare x slot]) x (some slot) := by
  refine ⟨cs.length, standing_concat.mpr (.inr ⟨rfl, rfl, rfl⟩), fun j slot' hj => ?_⟩
  obtain ⟨hj, -⟩ | ⟨rfl, -⟩ := standing_concat.mp hj
  · exact Nat.le_of_lt (List.getElem?_eq_some_iff.mp hj).1
  · exact Nat.le_refl _

/-- The stack of locals holds those that are not released, the newest on top. Without its `n` top
entries it holds those that would outlast `n` releases. -/
theorem newest_locals {f : Frame} (hf : f.locals = []) (cs : List Change) (n : Nat) (x : String) :
    Newest n cs x (((f.after cs).locals.drop n).lookup x) := by
  -- a release leaves the locals that one more release would spare, so `n` stays general
  induction cs using List.reverseRecOn generalizing n with
  | nil =>
    have hempty : (f.after []).locals = [] := hf
    rw [hempty, List.drop_nil]
    intro i slot hs
    cases hs.1
  | append_singleton cs c ih =>
    rw [Frame.after_concat]
    cases c with
    | release =>
      change Newest n _ x (((f.after cs).locals.tail.drop n).lookup x)
      rw [List.drop_tail]
      refine (ih (n + 1)).congr fun i slot => ?_
      rw [standing_concat, outlasts_release]
      simp [Standing]
    | declare y slot =>
      cases n with
      | succ n =>
        refine (ih n).congr fun i slot => ?_
        rw [standing_concat, outlasts_declare_succ]
        simp [Standing]
      | zero =>
        change Newest 0 _ x (((y, slot) :: (f.after cs).locals).lookup x)
        by_cases hx : x = y
        · subst hx
          rw [List.lookup_cons_self]
          exact newest_concat x slot
        · rw [lookup_cons_of_ne hx]
          refine (ih 0).congr fun i slot => ?_
          rw [standing_concat, outlasts_declare_zero]
          simp [Standing, Ne.symm hx]

theorem standing_zero {cs : List Change} {i : Nat} {x : String} {slot : Slot} :
    Standing 0 cs i x slot ↔ Unreleased cs i x slot :=
  and_congr_right fun _ => outlasts_zero

/-- The cell found among those of the parameters belongs to the last parameter of the name. -/
theorem last_of_lookup_paramSlots {ps : List Param} {offset : Int} {x : String} {slot : Slot}
    (h : (Frame.paramSlots offset ps).lookup x = some slot) :
    ∃ (k : Nat) (p : Param), ps[k]? = some p ∧ p.name = x ∧ slot = ⟨offset + k, p.ty⟩ ∧
      ∀ j q, ps[j]? = some q → q.name = x → j ≤ k := by
  induction ps generalizing offset with
  | nil => cases h
  | cons p ps ih =>
    rw [Frame.paramSlots, List.lookup_append] at h
    cases hrest : (Frame.paramSlots (offset + 1) ps).lookup x with
    | some slot' =>
      rw [hrest] at h
      obtain rfl : slot' = slot := by simpa using h
      obtain ⟨k, q, hq, hname, rfl, hlast⟩ := ih hrest
      refine ⟨k + 1, q, hq, hname, ?_, fun j q' hq' hname' => ?_⟩
      · congr 1
        push_cast
        omega
      · cases j with
        | zero => omega
        | succ j => exact Nat.succ_le_succ (hlast j q' hq' hname')
    | none =>
      rw [hrest, Option.none_or] at h
      by_cases hx : x = p.name
      · subst hx
        obtain rfl : (⟨offset, p.ty⟩ : Slot) = slot := by simpa using h
        refine ⟨0, p, rfl, rfl, by simp, fun j q hq hname => ?_⟩
        cases j with
        | zero => exact Nat.le_refl 0
        | succ j =>
          -- a later parameter of the name would have been found first
          have hmem : p.name ∈ ps.map Param.name :=
            List.mem_map.mpr ⟨q, List.mem_of_getElem? hq, hname⟩
          obtain ⟨slot, hslot⟩ := Frame.lookup_paramSlots hmem (offset + 1)
          rw [hrest] at hslot
          cases hslot
      · rw [lookup_cons_of_ne hx] at h
        cases h

namespace Frame

variable {f : Frame} {ps : List Param}

theorem inSight_get? (hlocals : f.locals = []) (hparams : f.params = paramSlots firstParam ps)
    (cs : List Change) (x : String) : InSight ps cs x ((f.after cs).get? x) := by
  have hnewest : Newest 0 cs x ((f.after cs).locals.lookup x) := newest_locals hlocals cs 0 x
  rw [get?_eq, after_params, hparams]
  cases hlocal : (f.after cs).locals.lookup x with
  | some slot =>
    rw [hlocal] at hnewest
    obtain ⟨i, hi, hlast⟩ := hnewest
    exact .newest (standing_zero.mp hi) fun j slot' hj => hlast j slot' (standing_zero.mpr hj)
  | none =>
    rw [hlocal] at hnewest
    have hnone (i : Nat) (slot : Slot) : ¬ Unreleased cs i x slot :=
      fun hs => hnewest i slot (standing_zero.mpr hs)
    cases hparam : (paramSlots firstParam ps).lookup x with
    | some slot =>
      obtain ⟨k, p, hp, hname, rfl, hlast⟩ := last_of_lookup_paramSlots hparam
      exact .param hnone hp hname hlast
    | none =>
      refine .nothing hnone fun p hp hname => ?_
      obtain ⟨slot, hslot⟩ := lookup_paramSlots (List.mem_map.mpr ⟨p, hp, hname⟩) firstParam
      rw [hparam] at hslot
      cases hslot

theorem get?_after_of_released (hlocals : f.locals = []) {cs : List Change}
    (hnone : ∀ i x slot, ¬ Unreleased cs i x slot) (x : String) :
    (f.after cs).get? x = f.get? x := by
  have hnewest : Newest 0 cs x ((f.after cs).locals.lookup x) := newest_locals hlocals cs 0 x
  have hlocal : (f.after cs).locals.lookup x = none := by
    cases hlocal : (f.after cs).locals.lookup x with
    | none => rfl
    | some slot =>
      rw [hlocal] at hnewest
      obtain ⟨i, hi, -⟩ := hnewest
      exact absurd (standing_zero.mp hi) (hnone i x slot)
  rw [get?_eq, get?_eq, hlocal, after_params, hlocals]
  rfl

theorem get?_after_releases (hlocals : f.locals = []) {cs : List Change} {n : Nat}
    (hn : (f.after cs).locals.length ≤ n) (x : String) :
    ((f.after cs).after (List.replicate n .release)).get? x = f.get? x := by
  rw [get?_eq, after_releases, List.drop_of_length_le hn, after_params, after_params,
    get?_eq, hlocals]

end Frame

/-- After any declarations and releases, releases without a local included, a name stands for its
newest local that is not released, else for its last parameter, which lies at offset 2 plus its
place, else for nothing. With every local released each name stands for what it stood for at the
start. A frame that keeps its locals on a stack answers in the same way. -/
theorem lookup_after_changes (ps? : Option (List Param)) (cs : List Change) :
    let start := ps?.elim SlotTable.forMain SlotTable.forFunction
    let table := start.after cs
    (∀ x answer, table.get? x = answer ↔ InSight (ps?.getD []) cs x answer) ∧
    ((∀ i x slot, ¬ Unreleased cs i x slot) → ∀ x, table.get? x = start.get? x) ∧
    (∀ n, table.locals.length ≤ n →
      ∀ x, (table.after (List.replicate n .release)).get? x = start.get? x) ∧
    ∀ x, ((ps?.elim Frame.forMain Frame.forFunction).after cs).get? x = table.get? x := by
  intro start table
  let f := ps?.elim Frame.forMain Frame.forFunction
  -- The table answers as the list of locals does, and each part is shown of the list.
  have hstart : start.Stores f := by
    cases ps? with
    | none => exact SlotTable.forMain_stores
    | some ps => exact SlotTable.forFunction_stores ps
  have hlocals : f.locals = [] := by cases ps? <;> rfl
  have hparams : f.params = Frame.paramSlots Frame.firstParam (ps?.getD []) := by cases ps? <;> rfl
  have htable : table.Stores (f.after cs) := hstart.after cs
  refine ⟨fun x answer => ?_, fun hnone x => ?_, fun n hn x => ?_, fun x => (htable.get? x).symm⟩
  · have hsight := Frame.inSight_get? hlocals hparams cs x
    rw [← htable.get? x] at hsight
    exact ⟨fun heq => heq ▸ hsight, fun hanswer => hsight.unique hanswer⟩
  · rw [htable.get? x, hstart.get? x]
    exact Frame.get?_after_of_released hlocals hnone x
  · rw [htable.length_locals] at hn
    rw [(htable.after _).get? x, hstart.get? x]
    exact Frame.get?_after_releases hlocals hn x

/-- A name with two parameters and two locals, behind a release that finds no local. -/
theorem lookup_after_changes_hiddenTwice :
    let ps : List Param := [⟨"x", "x", .num⟩, ⟨"y", "y", .bool⟩, ⟨"x", "x", .bool⟩]
    let outer : List Change :=
      [.release, .declare "x" ⟨-2, .num⟩, .declare "x" ⟨-4, .bool⟩, .release]
    let table := (SlotTable.forFunction ps).after outer
    InSight ps outer "x" (some ⟨-2, .num⟩) ∧ InSight ps outer "y" (some ⟨3, .bool⟩) ∧
      table.locals.length ≤ 2 ∧
      (∀ x, (table.after [.release, .release]).get? x = (SlotTable.forFunction ps).get? x) ∧
      (∀ i x slot, ¬ Unreleased [.declare "x" ⟨-2, .num⟩, .release] i x slot) ∧
      ∀ x, ((SlotTable.forFunction ps).after [.declare "x" ⟨-2, .num⟩, .release]).get? x =
        (SlotTable.forFunction ps).get? x := by
  intro ps outer table
  obtain ⟨hlookup, -, hreleases, -⟩ := lookup_after_changes (some ps) outer
  obtain ⟨-, hreleased, -⟩ :=
    lookup_after_changes (some ps) [.declare "x" ⟨-2, .num⟩, .release]
  have hlength : table.locals.length ≤ 2 := by decide
  have hnone : ∀ i x slot, ¬ Unreleased [.declare "x" ⟨-2, .num⟩, .release] i x slot := by
    rintro (_ | _ | i) x slot ⟨hdeclared, hspared⟩
    · exact absurd (hspared [.release] List.prefix_rfl) (by decide)
    · cases hdeclared
    · cases hdeclared
  exact ⟨(hlookup "x" _).mp (by decide), (hlookup "y" _).mp (by decide), hlength,
    hreleases 2 hlength, hnone, hreleased hnone⟩

end LetStack
