import LetStack.Text.Numbered

namespace LetStack.Text

theorem toList_numbered (base : String) (k : Nat) :
    (numbered base k).toList = base.toList ++ '_' :: Nat.toDigits 10 k := by
  simp [numbered]

theorem numbered_ne_of_notMem {base s : String} {k : Nat} (h : '_' ∉ s.toList) :
    numbered base k ≠ s := by
  intro he
  rw [← he, toList_numbered] at h
  simp at h

/-- The first `c` splits a list in one way only. -/
theorem append_cons_inj {c : Char} {l l' r r' : List Char} (hl : c ∉ l) (hl' : c ∉ l')
    (h : l ++ c :: r = l' ++ c :: r') : l = l' ∧ r = r' := by
  induction l generalizing l' with
  | nil =>
    cases l' with
    | nil => simpa using h
    | cons d l' =>
      simp only [List.nil_append, List.cons_append, List.cons.injEq] at h
      simp [h.1] at hl'
  | cons d l ih =>
    cases l' with
    | nil =>
      simp only [List.nil_append, List.cons_append, List.cons.injEq] at h
      simp [h.1] at hl
    | cons d' l' =>
      simp only [List.cons_append, List.cons.injEq, List.mem_cons, not_or] at h hl hl'
      obtain ⟨hd, hr⟩ := ih hl.2 hl'.2 h.2
      exact ⟨by rw [h.1, hd], hr⟩

/-- The digits behind the last underscore are the number, so nothing is lost. -/
theorem numbered_inj {a b : String} {j k : Nat} :
    numbered a j = numbered b k ↔ a = b ∧ j = k := by
  refine ⟨fun h => ?_, fun h => by rw [h.1, h.2]⟩
  have hl := congrArg (fun s => s.toList.reverse) h
  simp only [toList_numbered, List.reverse_append, List.reverse_cons, List.append_assoc,
    List.singleton_append] at hl
  have hj : '_' ∉ (Nat.toDigits 10 j).reverse := by simp
  have hk : '_' ∉ (Nat.toDigits 10 k).reverse := by simp
  obtain ⟨hd, hb⟩ := append_cons_inj hj hk hl
  have hdigits := congrArg (Nat.ofDigitChars 10 · 0) (List.reverse_inj.mp hd)
  simp only [Nat.ofDigitChars_ten_toDigits] at hdigits
  exact ⟨String.toList_inj.mp (List.reverse_inj.mp hb), hdigits⟩

theorem firstFree_le {used : List String} {base : String} {budget k : Nat} :
    k ≤ firstFree used base budget k := by
  induction budget generalizing k with
  | zero => exact Nat.le_refl k
  | succ budget ih =>
    unfold firstFree
    split
    · exact Nat.le_of_succ_le ih
    · exact Nat.le_refl k

theorem le_nextFree (used : List String) (base : String) (k : Nat) :
    k ≤ nextFree used base k := firstFree_le

/-- A search that ends at a spelling in use found all its candidates in use. -/
theorem firstFree_mem {used : List String} {base : String} {budget k : Nat}
    (h : numbered base (firstFree used base budget k) ∈ used) :
    ∀ j ≤ budget, numbered base (k + j) ∈ used := by
  induction budget generalizing k with
  | zero =>
    intro j hj
    rw [Nat.le_zero.mp hj]
    exact h
  | succ budget ih =>
    unfold firstFree at h
    split at h
    · intro j hj
      cases j with
      | zero => assumption
      | succ j =>
        have := ih h j (Nat.le_of_succ_le_succ hj)
        rwa [Nat.succ_add_eq_add_succ] at this
    · contradiction

/-- One of `used.length + 1` different spellings is not among those in use. -/
theorem numbered_nextFree_notMem (used : List String) (base : String) (k : Nat) :
    numbered base (nextFree used base k) ∉ used := by
  intro h
  have hall := firstFree_mem h
  -- more different candidates than spellings in use
  let candidates := (List.range (used.length + 1)).map fun j => numbered base (k + j)
  have hnodup : candidates.Nodup := by
    refine List.pairwise_map.mpr (List.nodup_range.imp ?_)
    intro i j hne hij
    have := (numbered_inj.mp hij).2
    omega
  have hsub : candidates ⊆ used := by
    intro s hs
    obtain ⟨j, hj, rfl⟩ := List.mem_map.mp hs
    exact hall j (Nat.le_of_lt_succ (List.mem_range.mp hj))
  have hlen := hnodup.length_le_of_subset hsub
  simp only [candidates, List.length_map, List.length_range] at hlen
  omega

@[simp] theorem Counters.count_set (c : Counters) (base b : String) (n : Nat) :
    (c.set base n).count b = if b = base then n else c.count b := by
  unfold Counters.set Counters.count
  by_cases h : b = base
  · simp [h]
  · have hb : (b == base) = false := by simpa using h
    simp [h, List.lookup_cons, hb]

end LetStack.Text
