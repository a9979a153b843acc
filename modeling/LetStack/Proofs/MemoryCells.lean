import LetStack.Memory

namespace LetStack.Memory

variable {m : Memory} {a b : Nat} {w : Word}

theorem getElem?_eq (m : Memory) (a : Nat) :
    m[a]? = if a < m.size then some (m.filled.getD (m.place a) 0) else none := rfl

theorem getElem?_eq_some_iff : m[a]? = some w ↔ a < m.size ∧ m.filled.getD (m.place a) 0 = w := by
  rw [getElem?_eq]
  split
  next h => simp [h]
  next h => simp [h]

theorem getD_eq_getElem (h : a < m.size) (v : Word) : m.getD a v = m[a] := if_pos h

theorem getD_of_getElem? (h : m[a]? = some w) (v : Word) : m.getD a v = w := by
  obtain ⟨hlt, hw⟩ := getElem?_eq_some_iff.mp h
  rw [getD, if_pos hlt, hw]

@[simp] theorem size_zeros (size : Nat) : (zeros size).size = size := rfl

@[simp] theorem size_set (m : Memory) (a : Nat) (w : Word) : (m.set a w).size = m.size := by
  unfold set
  split <;> rfl

theorem getD_fill (filled : Array Word) (k j : Nat) (w : Word) :
    (fill filled k w).getD j 0 = if j = k then w else filled.getD j 0 := by
  have hlt : k < (filled ++ Array.replicate (k + 1 - filled.size) 0).size := by
    rw [Array.size_append, Array.size_replicate]
    omega
  rw [fill, Array.getD_eq_getD_getElem?, Array.getD_eq_getD_getElem?]
  split
  next h => rw [h, Array.getElem?_setIfInBounds_self_of_lt hlt, Option.getD_some]
  next h =>
    rw [Array.getElem?_setIfInBounds_ne (Ne.symm h), Array.getElem?_append]
    split
    next => rfl
    next hj =>
      -- a zero that is kept now stands for one that was not
      rw [Array.getElem?_eq_none (Nat.not_lt.mp hj), Array.getElem?_replicate]
      split <;> rfl

theorem getElem?_set_self (h : a < m.size) (w : Word) : (m.set a w)[a]? = some w := by
  rw [getElem?_eq, size_set, if_pos h, set, if_pos h, place]
  exact congrArg some ((getD_fill _ _ _ w).trans (if_pos rfl))

theorem getElem?_set_ne (h : a ≠ b) (w : Word) : (m.set a w)[b]? = m[b]? := by
  rw [getElem?_eq, getElem?_eq, size_set]
  split
  next hb =>
    unfold set
    split
    next ha =>
      have hplace : m.place b ≠ m.place a := by
        unfold place
        omega
      exact congrArg some ((getD_fill _ _ _ w).trans (if_neg hplace))
    next => rfl
  next => rfl

end LetStack.Memory
