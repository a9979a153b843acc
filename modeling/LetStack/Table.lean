namespace LetStack

/-- Entries by name, at most one for each. -/
abbrev Table (α : Type) := List (String × α)

section

variable {α : Type} {l : List (String × α)} {x y : String} {a : α}

theorem lookup_cons_of_ne (h : x ≠ y) : ((y, a) :: l).lookup x = l.lookup x := by
  have hb : (x == y) = false := by simpa using h
  rw [List.lookup_cons, hb]

theorem mem_keys_of_lookup (h : l.lookup x = some a) : x ∈ l.map Prod.fst := by
  obtain ⟨before, after, rfl, -⟩ := List.lookup_eq_some_iff.mp h
  simp

end

namespace Table

variable {α : Type}

def remove (t : Table α) (name : String) : Table α := t.filter fun entry => entry.1 ≠ name

/-- Overwrites the entry that the name had before. -/
def put (t : Table α) (name : String) (a : α) : Table α := (name, a) :: t.remove name

theorem lookup_remove (t : Table α) (x y : String) :
    (t.remove x).lookup y = if y = x then none else t.lookup y := by
  unfold remove
  induction t with
  | nil => simp
  | cons entry t ih =>
    obtain ⟨z, a⟩ := entry
    by_cases hz : z = x
    · subst hz
      by_cases hy : y = z
      · simpa [hy] using ih
      · simpa [hy, lookup_cons_of_ne hy] using ih
    · by_cases hy : y = z
      · subst hy
        simp [hz]
      · simpa [hz, lookup_cons_of_ne hy] using ih

theorem lookup_put (t : Table α) (x y : String) (a : α) :
    (t.put x a).lookup y = if y = x then some a else t.lookup y := by
  by_cases h : y = x
  · simp [put, h]
  · rw [put, lookup_cons_of_ne h, lookup_remove, if_neg h, if_neg h]

end Table

end LetStack
