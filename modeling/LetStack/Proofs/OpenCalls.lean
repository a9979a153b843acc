import LetStack.Proofs.CodeRuns

namespace LetStack

namespace Machine

variable {code : Module}

/-- `Nested code n d m m'`: in `n` steps the machine gets from `m` to `m'`, where `d` calls are
open, and it does not return from the call that it was in. -/
inductive Nested (code : Module) : Nat → Nat → Machine → Machine → Prop
  | refl (m : Machine) : Nested code 0 0 m m
  | plain {n d : Nat} {m m' m'' : Machine} (hrun : Nested code n d m m')
      (hbsr : m'.op? code ≠ some .bsr) (hrts : m'.op? code ≠ some .rts)
      (hcycle : cycle code m' = .ok none m'') : Nested code (n + 1) d m m''
  | bsr {n d : Nat} {m m' m'' : Machine} (hrun : Nested code n d m m')
      (hop : m'.op? code = some .bsr) (hcycle : cycle code m' = .ok none m'') :
      Nested code (n + 1) (d + 1) m m''
  | rts {n d : Nat} {m m' m'' : Machine} (hrun : Nested code n (d + 1) m m')
      (hop : m'.op? code = some .rts) (hcycle : cycle code m' = .ok none m'') :
      Nested code (n + 1) d m m''

/-- The call that the machine makes at `m` is about to return at `m'`. -/
structure ReturnsAt (code : Module) (m m' : Machine) : Prop where
  bsr : m.op? code = some .bsr
  inside : ∃ n m₁, cycle code m = .ok none m₁ ∧ Nested code n 0 m₁ m'
  rts : m'.op? code = some .rts

theorem Nested.callsAfter_of_plain {m : Machine} (d : Nat) (hbsr : m.op? code ≠ some .bsr)
    (hrts : m.op? code ≠ some .rts) : m.callsAfter code d = d := by
  unfold callsAfter
  split
  next h => exact absurd h hbsr
  next h => exact absurd h hrts
  · rfl

/-- A run that goes on while it may not return has not come to the property yet, if that is one of
returns. -/
theorem Until.of_nested {ok : Nat → Machine → Prop} {post : Machine → Prop} {n k d : Nat}
    {m m' : Machine} (h : Until code ok post n 0 m) (hrun : Nested code k d m m') (hk : k ≤ n)
    (hpost : ∀ m₁, post m₁ → m₁.op? code = some .rts) : Until code ok post (n - k) d m' := by
  induction hrun with
  | refl => exact h
  | @plain k d _ m₁ _ _ hbsr hrts hcycle ih =>
    cases ih h (by omega) with
    | done hm₁ => exact absurd (hpost m₁ hm₁) hrts
    | step _ _ hnext =>
      have hrest := hnext (n - (k + 1)) (by omega) _ hcycle
      rwa [Nested.callsAfter_of_plain d hbsr hrts] at hrest
  | @bsr k d _ m₁ _ _ hop hcycle ih =>
    cases ih h (by omega) with
    | done hm₁ => simp [hpost m₁ hm₁] at hop
    | step _ _ hnext => simpa [callsAfter, hop] using hnext (n - (k + 1)) (by omega) _ hcycle
  | @rts k d _ m₁ _ _ hop hcycle ih =>
    cases ih h (by omega) with
    | step _ _ hnext => simpa [callsAfter, hop] using hnext (n - (k + 1)) (by omega) _ hcycle

/-- Where such a run may not go on because of a return, it has come to the property. -/
theorem Until.of_nested_rts {ok : Nat → Machine → Prop} {post : Machine → Prop} {n : Nat}
    {m m' : Machine} (h : Until code ok post n 0 m) (hrun : Nested code n 0 m m')
    (hpost : ∀ m₁, post m₁ → m₁.op? code = some .rts) (hrts : m'.op? code = some .rts) :
    post m' := by
  cases h.of_nested hrun (Nat.le_refl n) hpost with
  | done h => exact h
  | step _ hne => exact absurd hrts (hne rfl)

def advance (code : Module) : Nat → Machine → Option Machine
  | 0, m => some m
  | n + 1, m =>
    match cycle code m with
    | .ok none m' => advance code n m'
    | _ => none

theorem reaches_of_advance {n : Nat} {m m' : Machine} (h : advance code n m = some m') :
    Reaches code n m m' := by
  induction n generalizing m with
  | zero =>
    cases h
    exact .refl _
  | succ n ih =>
    simp only [advance] at h
    split at h
    next m₁ hcycle => exact .cons hcycle (ih h)
    next => cases h

/-- Looks for the return from the call that the machine is in, where `d` more calls are open. -/
def returnFrom (code : Module) : Nat → Nat → Machine → Option Machine
  | 0, _, _ => none
  | n + 1, d, m =>
    if m.op? code = some .rts ∧ d = 0 then some m
    else
      match cycle code m with
      | .ok none m' =>
        if m.op? code = some .bsr then returnFrom code n (d + 1) m'
        else if m.op? code = some .rts then returnFrom code n (d - 1) m'
        else returnFrom code n d m'
      | _ => none

theorem exists_of_returnFrom {n k d : Nat} {m m₁ m' : Machine} (hrun : Nested code k d m m₁)
    (h : returnFrom code n d m₁ = some m') :
    ∃ j, Nested code j 0 m m' ∧ m'.op? code = some .rts := by
  induction n generalizing k d m₁ with
  | zero => cases h
  | succ n ih =>
    simp only [returnFrom] at h
    split at h
    next hend =>
      cases h
      exact ⟨k, hend.2 ▸ hrun, hend.1⟩
    next hend =>
      split at h
      next m₂ hcycle =>
        split at h
        next hbsr => exact ih (hrun.bsr hbsr hcycle) h
        next hbsr =>
          split at h
          next hrts =>
            obtain ⟨d, rfl⟩ := Nat.exists_eq_succ_of_ne_zero fun hd => hend ⟨hrts, hd⟩
            exact ih (hrun.rts hrts hcycle) h
          next hrts => exact ih (hrun.plain hbsr hrts hcycle) h
      next => cases h

def returnPoint? (code : Module) (n : Nat) (m : Machine) : Option Machine :=
  if m.op? code = some .bsr then
    match cycle code m with
    | .ok none m₁ => returnFrom code n 0 m₁
    | _ => none
  else none

theorem returnsAt_of_returnPoint? {n : Nat} {m m' : Machine} (h : returnPoint? code n m = some m') :
    ReturnsAt code m m' := by
  unfold returnPoint? at h
  split at h
  next hbsr =>
    split at h
    next m₁ hcycle =>
      obtain ⟨j, hinner, hrts⟩ := exists_of_returnFrom (.refl m₁) h
      exact ⟨hbsr, ⟨j, m₁, hcycle, hinner⟩, hrts⟩
    next => cases h
  next => cases h

end Machine

end LetStack
