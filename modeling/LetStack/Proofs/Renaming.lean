import LetStack.Proofs.Spellings
import LetStack.Proofs.Trees

namespace LetStack

namespace Renaming

def spelling (base : String) : Nat → String
  | 0 => base
  | k + 1 => Text.numbered base (k + 1)

/-- Two spellings of reserved bases agree only if base and number do, as a numbered one is never
reserved itself. -/
theorem spelling_inj {reserved : List String} {a b : String} {j k : Nat}
    (ha : a ∈ reserved) (hb : b ∈ reserved) (hj : j ≠ 0 → spelling a j ∉ reserved)
    (hk : k ≠ 0 → spelling b k ∉ reserved) (h : spelling a j = spelling b k) : a = b ∧ j = k := by
  cases j with
  | zero =>
    cases k with
    | zero => exact ⟨h, rfl⟩
    | succ k => exact absurd (h ▸ ha) (hk (by omega))
  | succ j =>
    cases k with
    | zero => exact absurd (h ▸ hb) (hj (by omega))
    | succ k => exact Text.numbered_inj.mp h

/-- What a renaming never takes back. -/
structure Progress (r r' : Renaming) : Prop where
  reserved : r'.reserved = r.reserved
  counters : ∀ base, r.counters.count base ≤ r'.counters.count base

theorem Progress.refl (r : Renaming) : Progress r r := ⟨rfl, fun _ => Nat.le_refl _⟩

theorem Progress.trans {r₁ r₂ r₃ : Renaming} (h : Progress r₁ r₂) (h' : Progress r₂ r₃) :
    Progress r₁ r₃ :=
  ⟨h'.reserved.trans h.reserved, fun base => Nat.le_trans (h.counters base) (h'.counters base)⟩

def Issued (r r' : Renaming) (id : String) : Prop :=
  ∃ base k, base ∈ r.reserved ∧ id = spelling base k ∧ (k ≠ 0 → id ∉ r.reserved) ∧
    r.counters.count base ≤ k ∧ k < r'.counters.count base

theorem Issued.mono {r₁ r₂ r₃ r₄ : Renaming} {id : String} (h₁ : Progress r₁ r₂)
    (h : Issued r₂ r₃ id) (h₃ : Progress r₃ r₄) : Issued r₁ r₄ id := by
  obtain ⟨base, k, hbase, hid, hfree, hle, hlt⟩ := h
  rw [h₁.reserved] at hbase hfree
  exact ⟨base, k, hbase, hid, hfree, Nat.le_trans (h₁.counters base) hle,
    Nat.lt_of_lt_of_le hlt (h₃.counters base)⟩

theorem Issued.ne {r₁ r₂ r₃ : Renaming} {id id' : String} (h₁ : Progress r₁ r₂)
    (h : Issued r₁ r₂ id) (h' : Issued r₂ r₃ id') : id ≠ id' := by
  obtain ⟨base, k, hbase, rfl, hfree, -, hlt⟩ := h
  obtain ⟨base', k', hbase', rfl, hfree', hle', -⟩ := h'
  rw [h₁.reserved] at hbase' hfree'
  intro heq
  obtain ⟨rfl, rfl⟩ := spelling_inj hbase hbase' hfree hfree' heq
  omega

/-- Names of their own that were given out between two states. -/
structure Fresh (r r' : Renaming) (ids : List String) : Prop where
  progress : Progress r r'
  issued : ∀ id ∈ ids, Issued r r' id
  nodup : ids.Nodup

namespace Fresh

theorem nil (r : Renaming) : Fresh r r [] := ⟨.refl r, by simp, List.nodup_nil⟩

theorem append {r₁ r₂ r₃ : Renaming} {ids ids' : List String} (h : Fresh r₁ r₂ ids)
    (h' : Fresh r₂ r₃ ids') : Fresh r₁ r₃ (ids ++ ids') := by
  refine ⟨h.progress.trans h'.progress, ?_, List.nodup_append.mpr ⟨h.nodup, h'.nodup, ?_⟩⟩
  · intro id hid
    rcases List.mem_append.mp hid with hid | hid
    · exact (h.issued id hid).mono (.refl r₁) h'.progress
    · exact (h'.issued id hid).mono h.progress (.refl r₃)
  · intro id hid id' hid'
    exact (h.issued id hid).ne h.progress (h'.issued id' hid')

theorem perm {r r' : Renaming} {ids ids' : List String} (h : Fresh r r' ids)
    (hp : ids.Perm ids') : Fresh r r' ids' :=
  ⟨h.progress, fun id hid => h.issued id (hp.mem_iff.mpr hid), hp.nodup_iff.mp h.nodup⟩

end Fresh

theorem fresh_fresh {base : String} {r : Renaming} (h : base ∈ r.reserved) :
    Fresh r (fresh base r).2 [(fresh base r).1] := by
  have hone (id : String) : [id].Nodup := by simp
  unfold fresh
  split
  next hcount =>
    -- the first binder of a spelling keeps it
    refine ⟨⟨rfl, fun b => ?_⟩, ?_, hone _⟩
    · rw [Text.Counters.count_set]
      split
      next hb => rw [hb, hcount]; omega
      next => exact Nat.le_refl _
    · simp only [List.mem_singleton, forall_eq]
      exact ⟨base, 0, h, rfl, fun h => absurd rfl h, by omega, by simp⟩
  next k hcount =>
    -- a later one gets a number that the counter has not passed
    have hle := Text.le_nextFree r.reserved base (k + 1)
    obtain ⟨j, hj⟩ : ∃ j, Text.nextFree r.reserved base (k + 1) = j + 1 :=
      ⟨Text.nextFree r.reserved base (k + 1) - 1, by omega⟩
    refine ⟨⟨rfl, fun b => ?_⟩, ?_, hone _⟩
    · rw [Text.Counters.count_set]
      split
      next hb => rw [hb, hcount]; omega
      next => exact Nat.le_refl _
    · simp only [List.mem_singleton, forall_eq, hj]
      refine ⟨base, j + 1, h, rfl, fun _ => ?_, by omega, by simp⟩
      rw [← hj]
      exact Text.numbered_nextFree_notMem r.reserved base (k + 1)

theorem bind_fresh {x : Name} {r : Renaming} (h : x.display ∈ r.reserved) :
    Fresh r (bind x r).2 [(bind x r).1.id] := by
  obtain ⟨progress, issued, nodup⟩ := fresh_fresh h
  by_cases hid : (fresh x.display r).1 = x.display
  · simp only [bind, if_pos hid]
    exact ⟨progress, issued, nodup⟩
  · simp only [bind, if_neg hid]
    exact ⟨⟨progress.reserved, progress.counters⟩, issued, nodup⟩

theorem walkAll_fresh {es : List Expr} {scope : Scope} {r : Renaming}
    (hwalk : ∀ e ∈ es, ∀ r : Renaming, (∀ b ∈ e.binders, b ∈ r.reserved) →
      Fresh r (walk scope e r).2 (walk scope e r).1.binderIds)
    (h : ∀ b ∈ Expr.bindersOf es, b ∈ r.reserved) :
    Fresh r (walkAll scope es r).2 (Expr.binderIdsOf (walkAll scope es r).1) := by
  induction es generalizing r with
  | nil => exact .nil r
  | cons e es ih =>
    simp only [Expr.bindersOf, List.mem_append] at h
    have he := hwalk e (by simp) r fun b hb => h b (.inl hb)
    refine he.append (ih (fun a ha => hwalk a (by simp [ha])) fun b hb => ?_)
    rw [he.progress.reserved]
    exact h b (.inr hb)

/-- The binders of a renamed tree get names of their own, provided their spellings are reserved. -/
theorem walk_fresh (e : Expr) (scope : Scope) (r : Renaming)
    (h : ∀ b ∈ e.binders, b ∈ r.reserved) :
    Fresh r (walk scope e r).2 (walk scope e r).1.binderIds := by
  induction e generalizing scope r with
  | letIn i x value body ihv ihb =>
    simp only [Expr.binders, List.mem_cons, List.mem_append] at h
    have hv := ihv scope r fun b hb => h b (.inr (.inl hb))
    let r₁ := (walk scope value r).2
    have hx : Fresh r₁ (bind x r₁).2 [(bind x r₁).1.id] := bind_fresh (by
      rw [hv.progress.reserved]
      exact h _ (.inl rfl))
    have hvx := hv.append hx
    have hb := ihb (see (bind x r₁).1 scope) (bind x r₁).2 (by
      intro b hb
      rw [hvx.progress.reserved]
      exact h b (.inr (.inr hb)))
    -- the value is renamed before the binder that stands in front of it
    refine (hvx.append hb).perm ?_
    simp only [walk, Expr.binderIds, List.append_assoc, List.singleton_append]
    exact List.perm_middle
  | letFun i f x paramTy resultTy body rest ihb ihr =>
    simp only [Expr.binders, List.mem_cons, List.mem_append] at h
    have hf : Fresh r (bind f r).2 [(bind f r).1.id] := bind_fresh (h _ (.inl rfl))
    let r₁ := (bind f r).2
    have hx : Fresh r₁ (bind x r₁).2 [(bind x r₁).1.id] := bind_fresh (by
      rw [hf.progress.reserved]
      exact h _ (.inr (.inl rfl)))
    have hfx := hf.append hx
    have hb := ihb (see (bind x r₁).1 (see (bind f r).1 scope)) (bind x r₁).2 (by
      intro b hb
      rw [hfx.progress.reserved]
      exact h b (.inr (.inr (.inl hb))))
    have hfxb := hfx.append hb
    refine hfxb.append (ihr (see (bind f r).1 scope) _ ?_)
    intro b hb
    rw [hfxb.progress.reserved]
    exact h b (.inr (.inr (.inr hb)))
  | apply i f arg ih => exact ih scope r h
  | call i f args ih => exact walkAll_fresh (fun a ha => ih a ha scope) h
  | seq i a b iha ihb | binary i op a b iha ihb =>
    simp only [Expr.binders, List.mem_append] at h
    have ha := iha scope r fun s hs => h s (.inl hs)
    refine ha.append (ihb scope _ fun s hs => ?_)
    rw [ha.progress.reserved]
    exact h s (.inr hs)
  | var | num | bool => exact .nil r

theorem fresh_reserved (base : String) (r : Renaming) : (fresh base r).2.reserved = r.reserved := by
  unfold fresh
  split <;> rfl

theorem bind_reserved (x : Name) (r : Renaming) : (bind x r).2.reserved = r.reserved := by
  by_cases hid : (fresh x.display r).1 = x.display
  · simp only [bind, if_pos hid, fresh_reserved]
  · simp only [bind, if_neg hid, fresh_reserved]

theorem walkAll_reserved {es : List Expr} {scope : Scope} {r : Renaming}
    (hwalk : ∀ e ∈ es, ∀ r : Renaming, (walk scope e r).2.reserved = r.reserved) :
    (walkAll scope es r).2.reserved = r.reserved := by
  induction es generalizing r with
  | nil => rfl
  | cons e es ih =>
    simp only [walkAll, ih fun a ha => hwalk a (by simp [ha]), hwalk e (by simp)]

theorem walk_reserved (e : Expr) (scope : Scope) (r : Renaming) :
    (walk scope e r).2.reserved = r.reserved := by
  induction e generalizing scope r with
  | letIn i x value body ihv ihb => simp only [walk, ihb, bind_reserved, ihv]
  | letFun i f x paramTy resultTy body rest ihb ihr => simp only [walk, ihr, ihb, bind_reserved]
  | apply i f arg ih => exact ih scope r
  | call i f args ih => exact walkAll_reserved fun a ha => ih a ha scope
  | seq i a b iha ihb | binary i op a b iha ihb => simp only [walk, ihb, iha]
  | var | num | bool => rfl

/-- Each of several trees is renamed by itself, with the same spellings reserved. -/
theorem mem_walkAll {es : List Expr} {scope : Scope} {r : Renaming} {e' : Expr}
    (h : e' ∈ (walkAll scope es r).1) :
    ∃ e ∈ es, ∃ r' : Renaming, r'.reserved = r.reserved ∧ e' = (walk scope e r').1 := by
  induction es generalizing r with
  | nil => cases h
  | cons e es ih =>
    rcases List.mem_cons.mp h with rfl | h
    · exact ⟨e, by simp, r, rfl, rfl⟩
    · obtain ⟨a, ha, r', hr', heq⟩ := ih h
      exact ⟨a, by simp [ha], r', hr'.trans (walk_reserved e scope r), heq⟩

/-- All binders of a renamed tree have different names, whatever was renamed before. -/
theorem resolve_binderIds_nodup (r : Renaming) (e : Expr) : (r.resolve e).1.binderIds.Nodup :=
  (walk_fresh e [] _ fun b hb => by simp [hb]).nodup

end Renaming

theorem Expr.resolve_noShadow (e : Expr) : e.resolve.NoShadow [] :=
  noShadow_of_nodup _ _ (by simp) (Renaming.resolve_binderIds_nodup {} e)

end LetStack
