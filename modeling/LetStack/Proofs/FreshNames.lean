import Mathlib
import LetStack.Program.Lifting
import LetStack.Proofs.Renaming

namespace LetStack

namespace Text

/-- `Ends turn k result`: a loop that starts at `k` ends with `result`. Each turn gives the result
or the number to go on with, and nothing bounds their number. -/
inductive Ends (turn : Nat → (String × Nat) ⊕ Nat) : Nat → String × Nat → Prop
  | done {k : Nat} {result : String × Nat} (h : turn k = .inl result) : Ends turn k result
  | again {k j : Nat} {result : String × Nat} (h : turn k = .inr j) (hrest : Ends turn j result) :
      Ends turn k result

def giveNames {σ : Type} (fresh : String → σ → String × σ) : List String → σ → List String × σ
  | [], s => ([], s)
  | base :: bases, s =>
    let (name, s) := fresh base s
    let (names, s) := giveNames fresh bases s
    (name :: names, s)

/-- A loop that passes over the spellings in use, and no others, ends where the bounded search ends,
as that comes to a free one. -/
theorem ends_firstFree {turn : Nat → (String × Nat) ⊕ Nat} {used : List String} {base : String}
    {budget k : Nat} (hpass : ∀ j, k ≤ j → numbered base j ∈ used → turn j = .inr (j + 1))
    (hgive : ∀ j, k ≤ j → numbered base j ∉ used → turn j = .inl (numbered base j, j + 1))
    (hfree : numbered base (firstFree used base budget k) ∉ used) :
    Ends turn k
      (numbered base (firstFree used base budget k), firstFree used base budget k + 1) := by
  induction budget generalizing k with
  | zero => exact .done (hgive k (Nat.le_refl k) hfree)
  | succ budget ih =>
    unfold firstFree at hfree ⊢
    split
    next hmem =>
      rw [if_pos hmem] at hfree
      refine .again (hpass k (Nat.le_refl k) hmem) (ih ?_ ?_ hfree)
      · exact fun j hj => hpass j (Nat.le_of_succ_le hj)
      · exact fun j hj => hgive j (Nat.le_of_succ_le hj)
    next hnew => exact .done (hgive k (Nat.le_refl k) hnew)

theorem firstFree_le_add (used : List String) (base : String) (budget k : Nat) :
    firstFree used base budget k ≤ k + budget := by
  induction budget generalizing k with
  | zero => exact Nat.le_refl k
  | succ budget ih =>
    unfold firstFree
    split
    · have := ih (k + 1)
      omega
    · omega

end Text

namespace Renaming

/-- One turn of the search. Number zero gives the spelling itself; any other is given if it spells
no reserved name. The counter moves on in either case. -/
def turn (r : Renaming) (base : String) (k : Nat) : (String × Nat) ⊕ Nat :=
  if k = 0 then .inl (base, k + 1)
  else if Text.numbered base k ∈ r.reserved then .inr (k + 1)
  else .inl (Text.numbered base k, k + 1)

theorem turns_end (r : Renaming) (base : String) :
    ∃ name next, Text.Ends (r.turn base) (r.counters.count base) (name, next) ∧
      next ≤ r.counters.count base + r.reserved.length + 1 ∧
      r.fresh base = (name, { r with counters := r.counters.set base next }) := by
  unfold fresh
  split
  next hcount =>
    rw [hcount]
    exact ⟨base, 1, .done rfl, Nat.le_add_left 1 _, rfl⟩
  next k hcount =>
    rw [hcount]
    have hpass (j : Nat) (hj : k + 1 ≤ j) (hmem : Text.numbered base j ∈ r.reserved) :
        r.turn base j = .inr (j + 1) := by
      rw [turn, if_neg (by omega), if_pos hmem]
    have hgive (j : Nat) (hj : k + 1 ≤ j) (hnew : Text.numbered base j ∉ r.reserved) :
        r.turn base j = .inl (Text.numbered base j, j + 1) := by
      rw [turn, if_neg (by omega), if_neg hnew]
    have hfree := Text.numbered_nextFree_notMem r.reserved base (k + 1)
    have hbound := Text.firstFree_le_add r.reserved base r.reserved.length (k + 1)
    exact ⟨_, _, Text.ends_firstFree hpass hgive hfree, Nat.succ_le_succ hbound, rfl⟩

theorem giveNames_fresh {bases : List String} {r : Renaming}
    (h : ∀ base ∈ bases, base ∈ r.reserved) :
    Fresh r (Text.giveNames fresh bases r).2 (Text.giveNames fresh bases r).1 := by
  induction bases generalizing r with
  | nil => exact .nil r
  | cons base bases ih =>
    have hbase := fresh_fresh (h base (by simp))
    refine hbase.append (ih fun b hb => ?_)
    rw [fresh_reserved]
    exact h b (by simp [hb])

end Renaming

namespace Lifter

def turn (l : Lifter) (base : String) (k : Nat) : (String × Nat) ⊕ Nat :=
  if Text.numbered base k ∈ l.used then .inr (k + 1) else .inl (Text.numbered base k, k + 1)

theorem turns_end (l : Lifter) (base : String) :
    ∃ name next, Text.Ends (l.turn base) (l.counters.count base) (name, next) ∧
      next ≤ l.counters.count base + l.used.length + 1 ∧
      l.fresh base =
        (name, { l with used := name :: l.used, counters := l.counters.set base next }) := by
  have hfree := Text.numbered_nextFree_notMem l.used base (l.counters.count base)
  have hbound := Text.firstFree_le_add l.used base l.used.length (l.counters.count base)
  exact ⟨_, _, Text.ends_firstFree (fun _ _ hmem => if_pos hmem) (fun _ _ hnew => if_neg hnew) hfree,
    Nat.succ_le_succ hbound, rfl⟩

theorem giveNames_new (bases : List String) (l : Lifter) :
    (Text.giveNames fresh bases l).1.Nodup ∧
      ∀ name ∈ (Text.giveNames fresh bases l).1, name ∉ l.used := by
  induction bases generalizing l with
  | nil => exact ⟨List.nodup_nil, by simp [Text.giveNames]⟩
  | cons base bases ih =>
    have hnew : (fresh base l).1 ∉ l.used := Text.numbered_nextFree_notMem l.used base _
    have hused : (fresh base l).2.used = (fresh base l).1 :: l.used := rfl
    obtain ⟨hnodup, hrest⟩ := ih (fresh base l).2
    rw [hused] at hrest
    constructor
    · exact List.nodup_cons.mpr ⟨fun hmem => hrest _ hmem List.mem_cons_self, hnodup⟩
    · intro name hname
      rcases List.mem_cons.mp hname with rfl | hname
      · exact hnew
      · exact fun hmem => hrest name hname (List.mem_cons_of_mem _ hmem)

end Lifter

/-- The search for a fresh name ends, whatever is reserved or given out and wherever its counter
stands, and passes over no more numbers than there are names to avoid; `fresh` gives the name and
the counter that it ends with. A renaming that is only asked for reserved spellings gives each name
once. A lifter gives each name once whatever it is asked for, and none that was given out before. -/
theorem fresh_ends_with_new_name :
    (∀ (r : Renaming) (base : String), ∃ name next,
      Text.Ends (r.turn base) (r.counters.count base) (name, next) ∧
      next ≤ r.counters.count base + r.reserved.length + 1 ∧
      r.fresh base = (name, { r with counters := r.counters.set base next })) ∧
    (∀ (r : Renaming) (bases : List String), (∀ base ∈ bases, base ∈ r.reserved) →
      (Text.giveNames Renaming.fresh bases r).1.Nodup) ∧
    (∀ (l : Lifter) (base : String), ∃ name next,
      Text.Ends (l.turn base) (l.counters.count base) (name, next) ∧
      next ≤ l.counters.count base + l.used.length + 1 ∧
      l.fresh base =
        (name, { l with used := name :: l.used, counters := l.counters.set base next })) ∧
    ∀ (l : Lifter) (bases : List String), (Text.giveNames Lifter.fresh bases l).1.Nodup ∧
      ∀ name ∈ (Text.giveNames Lifter.fresh bases l).1, name ∉ l.used := by
  refine ⟨Renaming.turns_end, ?_, Lifter.turns_end, ?_⟩
  · intro r bases hreserved
    exact (Renaming.giveNames_fresh hreserved).nodup
  · intro l bases
    exact Lifter.giveNames_new bases l

/-- Spellings that look like numbered ones, asked for in between. -/
theorem fresh_ends_with_new_name_alikeSpellings :
    let r : Renaming := { reserved := ["f", "f_1", "f_1_1"] }
    let l : Lifter := { used := ["f_0", "f_0_0"] }
    (∀ base ∈ ["f", "f", "f_1", "f_1", "f"], base ∈ r.reserved) ∧
      (Text.giveNames Renaming.fresh ["f", "f", "f_1", "f_1", "f"] r).1 =
        ["f", "f_2", "f_1", "f_1_2", "f_3"] ∧
      (Text.giveNames Renaming.fresh ["f", "f", "f_1", "f_1", "f"] r).1.Nodup ∧
      (Text.giveNames Lifter.fresh ["f", "f_0", "f_0_0", "f_0"] l).1 =
        ["f_1", "f_0_1", "f_0_0_0", "f_0_2"] ∧
      (Text.giveNames Lifter.fresh ["f", "f_0", "f_0_0", "f_0"] l).1.Nodup := by
  intro r l
  obtain ⟨-, hrenaming, -, hlifter⟩ := fresh_ends_with_new_name
  have hreserved : ∀ base ∈ ["f", "f", "f_1", "f_1", "f"], base ∈ r.reserved := by decide
  exact ⟨hreserved, by cbv, hrenaming r _ hreserved, by cbv, (hlifter l _).1⟩

/-- A spelling that is not reserved can come up twice: once numbered and once as asked for. -/
example : (Text.giveNames Renaming.fresh ["x", "x", "x_1"] { reserved := ["x"] }).1 =
    ["x", "x_1", "x_1"] := by cbv

end LetStack
