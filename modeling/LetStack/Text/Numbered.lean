namespace LetStack.Text

/-- How often each spelling has been handed out; the newest entry of a spelling counts. -/
abbrev Counters := List (String × Nat)

def Counters.count (c : Counters) (base : String) : Nat := (c.lookup base).getD 0

def Counters.set (c : Counters) (base : String) (n : Nat) : Counters := (base, n) :: c

def numbered (base : String) (k : Nat) : String := base ++ "_" ++ toString k

/-- The first number from `k` on whose spelling is not in use, looking at `budget` candidates. -/
def firstFree (used : List String) (base : String) : (budget k : Nat) → Nat
  | 0, k => k
  | budget + 1, k =>
    if numbered base k ∈ used then firstFree used base budget (k + 1) else k

/-- Of `used.length + 1` different spellings one is free, so the last candidate needs no look. -/
def nextFree (used : List String) (base : String) (k : Nat) : Nat :=
  firstFree used base used.length k

end LetStack.Text
