import Mathlib
import LetStack.Proofs.Compilation
import LetStack.Proofs.OpenCalls

namespace LetStack

open Machine LetStack.Module

/-- Only the word behind the arguments differs. -/
theorem Machine.Above.memory_eq {base m m' : Machine} {args : List Word} {w w' : Word}
    {fp pc fp' pc' : Nat} (h : Above base (args ++ [w]) fp pc m)
    (h' : Above base (args ++ [w']) fp' pc' m') {a : Nat} (ha : m.sp ≤ a)
    (hne : a ≠ m.sp + args.length) : m'.memory[a]? = m.memory[a]? := by
  have hsp := h.sp
  have hsp' := h'.sp
  simp only [List.length_append, List.length_cons, List.length_nil] at hsp hsp'
  by_cases hlt : a < m.sp + args.length
  · obtain ⟨k, rfl⟩ : ∃ k, a = m.sp + k := ⟨a - m.sp, by omega⟩
    have hk : k < args.length := by omega
    have hget (u : Word) : (args ++ [u])[k]? = some args[k] := by
      rw [List.getElem?_append_left hk, List.getElem?_eq_getElem hk]
    rw [h.top k _ (hget w), show m.sp + k = m'.sp + k by omega, h'.top k _ (hget w')]
  · rw [h.below a (by omega), h'.below a (by omega)]

/-- Calls keep the frame of their caller. Once a call in a run of compiled code has come to its
return, the return goes through: control is behind the call, both pointers are as they were, and so
is every word from the stack pointer on except the cell behind the arguments; that holds the value
of the function for these arguments. -/
theorem call_keeps_caller_frame {e : Expr} {keepStages : Bool} {build : Build}
    (h : compile e keepStages = .ok build) (hsize : build.module.size < 2 ^ 31) {config : Config}
    (hstack : config.stackSize ≤ 2147483647) {entry n : Nat} {m m₂ : Machine}
    (hentry : build.module.entry? = some entry)
    (hreach : Reaches build.module n (start config entry) m) (hmatch : ReturnsAt build.module m m₂) :
    ∃ m', cycle build.module m₂ = .ok none m' ∧ m'.pc = m.pc + 1 ∧ m'.sp = m.sp ∧ m'.fp = m.fp ∧
      ∃ g ∈ build.program.functions, ∃ target vs v depth,
        build.module.get? m.pc = some ⟨.bsr, .address target⟩ ∧
        build.module.get? target = some ⟨.label, .label g.name⟩ ∧
        vs.length = g.arity ∧ (∀ k u, vs[k]? = some u → m.memory[m.sp + k]? = some u.word) ∧
        (∀ a, m.sp ≤ a → a ≠ m.sp + g.arity → m'.memory[a]? = m.memory[a]?) ∧
        m'.memory[m.sp + g.arity]? = some v.word ∧
        ((g.body.eval build.program.callees depth (.ofArgs g.params vs)).run 0).1 = .ok v := by
  obtain ⟨labels, hstands⟩ := stands_of_compile h
  have hsize : build.module.size ≤ Word.greatest := Nat.le_of_lt_succ hsize
  obtain ⟨steps, m₁, hcycle, hinner⟩ := hmatch.inside
  have hparks := Program.parks_of_reaches hstands.wellTyped hstands.linked hsize hstack hentry hreach
    (steps + 1)
  have huntil := hparks.bsr hmatch.bsr m₁ hcycle steps (Nat.lt_succ_self steps)
  obtain ⟨m', hreturn, g, vs, w, base, v, depth, hsite, hv, hafter⟩ :=
    (huntil.of_nested_rts hinner (fun _ h => h.op) hmatch.rts).back
  have hlen : g.arity = vs.length := hsite.length_eq.symm
  have hsp := hsite.stack.sp
  have hsp' := hafter.sp
  simp only [List.length_append, List.length_map, List.length_cons, List.length_nil] at hsp hsp'
  obtain ⟨target, hlookup, hbsr⟩ := hsite.bsr
  obtain ⟨target', hlookup', hplaced⟩ := hstands.linked.function g hsite.mem
  obtain rfl : target' = target := Option.some.inj (hlookup'.symm.trans hlookup)
  refine ⟨m', hreturn, hafter.pc, by omega, hafter.fp, g, hsite.mem, target', vs, v, depth, hbsr, ?_,
    hlen.symm, ?_, ?_, ?_, hv.run 0⟩
  · exact hplaced 0 _ rfl
  · intro k u hk
    have hlt : k < vs.length := (List.getElem?_eq_some_iff.mp hk).1
    refine hsite.stack.top k u.word ?_
    rw [List.getElem?_append_left (by simpa using hlt), List.getElem?_map, hk]
    rfl
  · intro a ha hne
    exact hsite.stack.memory_eq hafter ha (by simpa [← hlen] using hne)
  · rw [show m.sp + g.arity = m'.sp + vs.length by omega]
    exact hafter.top vs.length v.word (by simp)

/-- While the call of `f` is open, `g` is called twice and returns. -/
def innerCalls : String :=
  "let g y : num -> num = y + 1 in let f x : num -> num = g (x + 2) - g x in let a = 7 in f a"

theorem call_keeps_caller_frame_innerCalls : ∃ e build m m₂ m',
    parse innerCalls = .ok e ∧ compile e = .ok build ∧ build.module.size < 2 ^ 31 ∧
      build.module.entry? = some 26 ∧ Reaches build.module 9 (start ⟨40, 1000⟩ 26) m ∧
      ReturnsAt build.module m m₂ ∧ (m.pc, m.sp, m.fp) = (35, 35, 40) ∧
      cycle build.module m₂ = .ok none m' ∧ (m'.pc, m'.sp, m'.fp) = (36, 35, 40) ∧
      ∃ g ∈ build.program.functions,
        (∀ a, 35 ≤ a → a ≠ 35 + g.arity → m'.memory[a]? = m.memory[a]?) ∧
          ∃ v : Value, m'.memory[35 + g.arity]? = some v.word := by
  have hresults : (parse innerCalls).toOption.map (fun e => (compile e).toOption.bind fun build =>
      (advance build.module 9 (start ⟨40, 1000⟩ 26)).bind fun m =>
        (returnPoint? build.module 100 m).map fun _ =>
          (build.module.size, build.module.entry?, m.pc, m.sp, m.fp)) =
      some (some (40, some 26, 35, 35, 40)) := by cbv
  obtain ⟨e, hparse, hresults⟩ := exists_of_parse hresults
  obtain ⟨build, hbuild, hresults⟩ := Option.bind_eq_some_iff.mp hresults
  obtain ⟨m, hm, hresults⟩ := Option.bind_eq_some_iff.mp hresults
  obtain ⟨m₂, hm₂, hresults⟩ := Option.map_eq_some_iff.mp hresults
  simp only [Prod.mk.injEq] at hresults
  obtain ⟨hsize, hentry, hpc, hsp, hfp⟩ := hresults
  have hcompile := ok_of_toOption hbuild
  have hsize : build.module.size < 2 ^ 31 := by rw [hsize]; decide
  have hreach := reaches_of_advance hm
  have hreturns := returnsAt_of_returnPoint? hm₂
  obtain ⟨m', hcycle, hpc', hsp', hfp', g, hg, -, -, v, -, -, -, -, -, hkept, hresult, -⟩ :=
    call_keeps_caller_frame hcompile hsize (by decide) hentry hreach hreturns
  exact ⟨e, build, m, m₂, m', hparse, hcompile, hsize, hentry, hreach, hreturns,
    by simp [hpc, hsp, hfp], hcycle, by simp [hpc', hsp', hfp', hpc, hsp, hfp], g, hg, hsp ▸ hkept,
    v, hsp ▸ hresult⟩

end LetStack
