import Mathlib
import LetStack.Proofs.ContinuedTexts
import LetStack.Proofs.Recognizer

namespace LetStack

/-- Some text that parses has tokens that begin with these, as far as `view` shows them. -/
def Viable {α : Type} (view : Token → α) (ts : List Token) : Prop :=
  ∃ source tokens e, tokenize source = .ok tokens ∧ parse source = .ok e ∧
    ts.map view <+: tokens.map view

/-- The error is about this token, and it is the end of the text that was not expected exactly if
the token stands for that. -/
structure ParseError.PointsAt (e : ParseError) (t : Token) : Prop where
  span : e.span = t.span
  atEnd : e.kind = .unexpectedEof ↔ t.kind = .eof
  lexed : e.kind ≠ .invalidToken

theorem ParseError.unexpected_pointsAt {kind : Kind} (hend : kind ≠ .unexpectedEof)
    (hlexed : kind ≠ .invalidToken) (expected : String) (t : Token) :
    (unexpected kind expected t).PointsAt t := by
  refine ⟨rfl, ?_, ?_⟩ <;> by_cases ht : t.kind = .eof <;> simp [unexpected, ht, hend, hlexed]

namespace Parser

open Recognizer

def Blames (e : ParseError) (st : State) (ts : List Token) : Prop :=
  ∃ before t after st', ts = before ++ t :: after ∧ run st (before.map Token.kind) = some st' ∧
    step st' t.kind = none ∧ e.PointsAt t

/-- The recognizer takes what was read, to a state that fits what is left; or an error points at the
token that it does not take. -/
def Follows {α : Type} (eof : Token) (ts : List Token) (st : State) (Q : State → List Token → Prop) :
    EStateM.Result ParseError Stream α → Prop
  | .ok _ s => ∃ us rest st', ts = us ++ rest ∧ s = .of eof rest ∧
      run st (us.map Token.kind) = some st' ∧ Q st' rest
  | .error e _ => Blames e st (ts ++ [eof])

def Walks {α : Type} (eof : Token) (p : Parser α) (ts : List Token) (st : State)
    (Q : State → List Token → Prop) : Prop :=
  Follows eof ts st Q (p (.of eof ts))

def Reached (st : State) (ts : List Token) (st' : State) (rest : List Token) : Prop :=
  st' = st ∧ rest.length < ts.length

section

variable {α β : Type} {eof t : Token} {ts us rest : List Token} {st st' : State}
  {Q R : State → List Token → Prop}

theorem Follows.shift {r : EStateM.Result ParseError Stream α}
    (hrun : run st (us.map Token.kind) = some st') (h : Follows eof rest st' Q r) :
    Follows eof (us ++ rest) st Q r := by
  have happend (vs : List Token) :
      run st ((us ++ vs).map Token.kind) = run st' (vs.map Token.kind) := by
    rw [List.map_append, run_append, hrun, Option.bind_some]
  cases r with
  | ok a s =>
    obtain ⟨vs, rest', st'', rfl, rfl, hvs, hQ⟩ := h
    exact ⟨us ++ vs, rest', st'', by rw [List.append_assoc], rfl, (happend vs).trans hvs, hQ⟩
  | error e s =>
    obtain ⟨before, t, after, st'', hts, hbefore, hstep, he⟩ := h
    exact ⟨us ++ before, t, after, st'', by rw [List.append_assoc, hts, List.append_assoc],
      (happend before).trans hbefore, hstep, he⟩

theorem Walks.pure {a : α} (h : Q st ts) : Walks eof (pure a) ts st Q :=
  ⟨[], ts, st, rfl, rfl, rfl, h⟩

theorem Walks.bind {p : Parser α} {k : α → Parser β} (hp : Walks eof p ts st Q)
    (hk : ∀ a st' rest, rest.length ≤ ts.length → Q st' rest → Walks eof (k a) rest st' R) :
    Walks eof (p >>= k) ts st R := by
  unfold Walks at hp ⊢
  cases h : p (.of eof ts) with
  | ok a s =>
    rw [h] at hp
    obtain ⟨us, rest, st', rfl, rfl, hrun, hQ⟩ := hp
    rw [bind_ok h]
    exact (hk a st' rest (by simp) hQ).shift hrun
  | error e s =>
    rw [h] at hp
    simp only [Bind.bind, EStateM.bind, h]
    exact hp

theorem Walks.mono {p : Parser α} (h : Walks eof p ts st Q)
    (hQ : ∀ st' rest, Q st' rest → R st' rest) : Walks eof p ts st R := by
  unfold Walks at h ⊢
  cases hp : p (.of eof ts) with
  | ok a s =>
    rw [hp] at h
    obtain ⟨us, rest, st', hts, hs, hrun, h⟩ := h
    exact ⟨us, rest, st', hts, hs, hrun, hQ st' rest h⟩
  | error e s =>
    rw [hp] at h
    exact h

theorem Walks.then {p : Parser α} {k : α → Parser β} (hp : Walks eof p ts st (Reached st' ts))
    (hk : ∀ a rest, rest.length < ts.length → Walks eof (k a) rest st' R) :
    Walks eof (p >>= k) ts st R := by
  refine hp.bind ?_
  rintro a _ rest - ⟨rfl, hlt⟩
  exact hk a rest hlt

theorem Walks.peek {k : Token → Parser β} (h : Walks eof (k (ts.headD eof)) ts st Q) :
    Walks eof (peek >>= k) ts st Q := by
  unfold Walks
  rw [bind_ok (peek_of eof ts)]
  exact h

theorem Walks.next {k : Token → Parser β} (hstep : step st t.kind = some st')
    (h : Walks eof (k t) rest st' Q) : Walks eof (next >>= k) (t :: rest) st Q := by
  unfold Walks
  rw [bind_ok (next_of eof t rest)]
  have hrun : run st ([t].map Token.kind) = some st' := by simp [run, hstep]
  exact Follows.shift hrun h

theorem Walks.throw {e : ParseError} (hstep : step st (following eof ts) = none)
    (he : e.PointsAt (ts.headD eof)) : Walks eof (throw e : Parser α) ts st Q := by
  cases ts with
  | nil => exact ⟨[], eof, [], st, rfl, rfl, hstep, he⟩
  | cons t ts => exact ⟨[], t, ts ++ [eof], st, rfl, rfl, hstep, he⟩

theorem Walks.noExpression (hstep : step st (following eof ts) = none) :
    Walks eof (noExpression (ts.headD eof)) ts st Q :=
  .throw hstep (ParseError.unexpected_pointsAt (by decide) (by decide) _ _)

theorem cons_of_following (heof : eof.kind = .eof) {kind : Token.Kind} (hkind : kind ≠ .eof)
    (h : following eof ts = kind) : ∃ t rest, ts = t :: rest ∧ t.kind = kind := by
  cases ts with
  | nil => exact absurd (h.symm.trans heof) hkind
  | cons t rest => exact ⟨t, rest, rfl, h⟩

theorem Walks.take (heof : eof.kind = .eof) {kind : Token.Kind} (hkind : kind ≠ .eof)
    {otherwise : ParseError.Kind} (hend : otherwise ≠ .unexpectedEof)
    (hlexed : otherwise ≠ .invalidToken)
    (hstep : step st (following eof ts) = only kind st' (following eof ts)) :
    Walks eof (take kind otherwise) ts st (Reached st' ts) := by
  unfold Parser.take
  refine .peek ?_
  unfold only at hstep
  split at hstep
  next h =>
    rw [if_pos h]
    obtain ⟨t, rest, rfl, -⟩ := cons_of_following heof hkind h
    have hstep : step st t.kind = some st' := hstep
    exact ⟨[t], rest, st', rfl, rfl, by simp [run, hstep], rfl, by simp⟩
  next h =>
    rw [if_neg h]
    exact .throw hstep (ParseError.unexpected_pointsAt hend hlexed _ _)

theorem Walks.expect (heof : eof.kind = .eof) {kind : Token.Kind} (hkind : kind ≠ .eof)
    (hstep : step st (following eof ts) = only kind st' (following eof ts)) :
    Walks eof (expect kind) ts st (Reached st' ts) :=
  .take heof hkind (by decide) (by decide) hstep

theorem Walks.identifier (heof : eof.kind = .eof)
    (hstep : step st (following eof ts) = only .ident st' (following eof ts)) :
    Walks eof identifier ts st (Reached st' ts) :=
  Walks.bind (.take heof (by decide) (by decide) (by decide) hstep) fun _ _ _ _ h => .pure h

theorem Walks.type (heof : eof.kind = .eof)
    (hstep : step st (following eof ts) =
      if (following eof ts).ty?.isSome then some st' else none) :
    Walks eof type ts st (Reached st' ts) := by
  unfold Parser.type
  refine .peek ?_
  split
  next ty hty =>
    have hty : (following eof ts).ty? = some ty := hty
    obtain ⟨t, rest, rfl, -⟩ := cons_of_following heof (by cases ty <;> decide) (Ty.kind_of_ty? hty)
    rw [hty] at hstep
    exact .next hstep (.pure ⟨rfl, by simp⟩)
  next hty =>
    have hty : (following eof ts).ty? = none := hty
    rw [hty] at hstep
    exact .throw hstep (ParseError.unexpected_pointsAt (by decide) (by decide) _ _)

end

def Past (eof : Token) (opened : List Opener) (st : State) (rest : List Token) : Prop :=
  step st (following eof rest) = follow opened (following eof rest)

theorem Past.cons {eof t : Token} {opened : List Opener} {st : State} {rest : List Token}
    (h : Past eof opened st (t :: rest)) : step st t.kind = follow opened t.kind := h

theorem Past.done {eof : Token} {opened : List Opener} {rest : List Token} :
    Past eof opened ⟨.done, opened⟩ rest := rfl

theorem Past.callee {eof : Token} {opened : List Opener} {rest : List Token}
    (h : (following eof rest).startsAtom = false) : Past eof opened ⟨.callee, opened⟩ rest :=
  if_neg (Bool.eq_false_iff.mp h)

structure PastTerm (eof : Token) (opened : List Opener) (st : State) (rest : List Token) : Prop where
  past : Past eof opened st rest
  binOp? : (following eof rest).binOp? = none

structure PastSequence (eof : Token) (opened : List Opener) (st : State) (rest : List Token) : Prop
    extends PastTerm eof opened st rest where
  ne_comma : following eof rest ≠ .comma

/-- A chain of operators has been read: an operator that follows binds less tightly than `least`. -/
structure PastChain (eof : Token) (opened : List Opener) (least : Nat) (st : State)
    (rest : List Token) : Prop where
  past : Past eof opened st rest
  looser : ∀ op, (following eof rest).binOp? = some op → op.bindingPower.1 < least

/-- At this depth, each function of the parser goes along with the recognizer, if the depth is great
enough for the tokens that are left. -/
structure WalksAt (eof : Token) (n : Nat) : Prop where
  sequence {ts : List Token} {opened : List Opener} (hn : 6 * ts.length + 5 ≤ n)
    (hopened : opened.head? ≠ some .binding) :
    Walks eof (sequence n) ts ⟨.start, opened⟩ (PastSequence eof opened)
  term {ts : List Token} {opened : List Opener} (hn : 6 * ts.length + 4 ≤ n) :
    Walks eof (term n) ts ⟨.start, opened⟩ (PastTerm eof opened)
  letForm {ts : List Token} {opened : List Opener} (hn : 6 * ts.length + 1 ≤ n)
    (hlet : following eof ts = .letKw) :
    Walks eof (letForm n) ts ⟨.start, opened⟩ (PastTerm eof opened)
  operators {ts : List Token} {opened : List Opener} {least : Nat} (hn : 6 * ts.length + 3 ≤ n) :
    Walks eof (operators n least) ts ⟨.start, opened⟩ (PastChain eof opened least)
  extend {ts : List Token} {opened : List Opener} {least : Nat} {left : Expr} {st : State}
    (hn : 6 * ts.length + 1 ≤ n) (hpast : Past eof opened st ts) :
    Walks eof (extend n least left) ts st (PastChain eof opened least)
  operand {ts : List Token} {opened : List Opener} (hn : 6 * ts.length + 2 ≤ n) :
    Walks eof (operand n) ts ⟨.start, opened⟩ (Past eof opened)
  atom {ts : List Token} {opened : List Opener} {st : State} (hn : 6 * ts.length + 1 ≤ n)
    (hfirst : step st (following eof ts) = first opened (following eof ts)) :
    Walks eof (atom n) ts st (Past eof opened)

section

variable {n : Nat} {eof : Token} {ts : List Token} {opened : List Opener} {st : State}

theorem sequence_walks (heof : eof.kind = .eof) (ih : WalksAt eof n) (hn : 6 * ts.length + 5 ≤ n + 1)
    (hopened : opened.head? ≠ some .binding) :
    Walks eof (sequence (n + 1)) ts ⟨.start, opened⟩ (PastSequence eof opened) := by
  rw [sequence]
  refine (ih.term (by omega)).bind fun e st rest hlen hterm => .peek ?_
  split
  next hcomma =>
    obtain ⟨t, rest, rfl, hkind⟩ := cons_of_following heof (by decide) hcomma
    have hstep : step st t.kind = some ⟨.start, opened⟩ := by
      rw [hterm.past.cons, hkind, follow_comma hopened]
    refine .next hstep ((ih.sequence ?_ hopened).bind fun _ _ _ _ h => .pure h)
    simp only [List.length_cons] at hlen
    omega
  next hcomma => exact .pure ⟨hterm, hcomma⟩

theorem term_walks (ih : WalksAt eof n) (hn : 6 * ts.length + 4 ≤ n + 1) :
    Walks eof (term (n + 1)) ts ⟨.start, opened⟩ (PastTerm eof opened) := by
  rw [term]
  refine .peek ?_
  split
  next hlet => exact ih.letForm (by omega) hlet
  next =>
    refine (ih.operators (by omega)).mono fun st rest h => ⟨h.past, ?_⟩
    exact Option.eq_none_iff_forall_ne_some.mpr fun op hop => Nat.not_lt_zero _ (h.looser op hop)

/-- The bound expression and what stands behind `in`, of a function or not. -/
theorem bound_walks {α : Type} (heof : eof.kind = .eof) (ih : WalksAt eof n)
    (hn : 6 * ts.length + 4 ≤ n) (make : Expr → Expr → α) :
    Walks eof (do
      let bound ← term n
      let _ ← expect .inKw
      let body ← term n
      return make bound body) ts ⟨.start, .binding :: opened⟩ (PastTerm eof opened) := by
  refine (ih.term hn).bind fun bound st rest hlen hbound => ?_
  refine (Walks.expect heof (by decide) (hbound.past.trans (follow_binding hbound.binOp?))).then ?_
  intro _ rest' hlt
  exact (ih.term (by omega)).bind fun _ _ _ _ h => .pure h

theorem letForm_walks (heof : eof.kind = .eof) (ih : WalksAt eof n) (hn : 6 * ts.length + 1 ≤ n + 1)
    (hlet : following eof ts = .letKw) :
    Walks eof (letForm (n + 1)) ts ⟨.start, opened⟩ (PastTerm eof opened) := by
  rw [letForm]
  have hstart : Walks eof (expect .letKw) ts ⟨.start, opened⟩ (Reached ⟨.letName, opened⟩ ts) :=
    .expect heof (by decide) (by rw [hlet]; rfl)
  refine hstart.then fun start ts₁ h₁ => (Walks.identifier heof rfl).then fun name ts₂ h₂ => .peek ?_
  split
  next hident =>
    have hparam : Walks eof identifier ts₂ ⟨.bound, opened⟩ (Reached ⟨.colon, opened⟩ ts₂) :=
      .identifier heof (by rw [following, hident]; rfl)
    refine hparam.then fun param ts₃ h₃ => ?_
    refine (Walks.expect heof (by decide) rfl).then fun _ ts₄ h₄ => ?_
    refine (Walks.type heof rfl).then fun paramTy ts₅ h₅ => ?_
    refine (Walks.expect heof (by decide) rfl).then fun _ ts₆ h₆ => ?_
    refine (Walks.type heof rfl).then fun resultTy ts₇ h₇ => ?_
    refine (Walks.expect heof (by decide) rfl).then fun _ ts₈ h₈ => ?_
    exact bound_walks heof ih (by omega) _
  next hident =>
    have hequal : Walks eof (expect .equal) ts₂ ⟨.bound, opened⟩
        (Reached ⟨.start, .binding :: opened⟩ ts₂) :=
      .expect heof (by decide) (if_neg hident)
    refine hequal.then fun _ ts₃ h₃ => ?_
    exact bound_walks heof ih (by omega) _

theorem operators_walks {least : Nat} (ih : WalksAt eof n) (hn : 6 * ts.length + 3 ≤ n + 1) :
    Walks eof (operators (n + 1) least) ts ⟨.start, opened⟩ (PastChain eof opened least) := by
  rw [operators]
  exact (ih.operand (by omega)).bind fun left st rest hlen hpast => ih.extend (by omega) hpast

theorem extend_walks {least : Nat} {left : Expr} (heof : eof.kind = .eof) (ih : WalksAt eof n)
    (hn : 6 * ts.length + 1 ≤ n + 1) (hpast : Past eof opened st ts) :
    Walks eof (extend (n + 1) least left) ts st (PastChain eof opened least) := by
  rw [extend]
  refine .peek ?_
  split
  next hop => exact .pure ⟨hpast, fun op h => by simp [hop] at h⟩
  next op hop =>
    split
    next hlt =>
      refine .pure ⟨hpast, fun op' h => ?_⟩
      obtain rfl := Option.some.inj (hop.symm.trans h)
      exact hlt
    next hlt =>
      obtain ⟨t, rest, rfl, -⟩ :=
        cons_of_following heof (by cases op <;> decide) (BinOp.kind_of_binOp? hop)
      have hstep : step st t.kind = some ⟨.start, opened⟩ := hpast.trans (follow_operator hop)
      simp only [List.length_cons] at hn
      refine .next hstep ((ih.operators (by omega)).bind fun right st' rest' hlen h => ?_)
      exact ih.extend (by omega) h.past

theorem atom_walks (heof : eof.kind = .eof) (ih : WalksAt eof n) (hn : 6 * ts.length + 1 ≤ n + 1)
    (hfirst : step st (following eof ts) = first opened (following eof ts)) :
    Walks eof (atom (n + 1)) ts st (Past eof opened) := by
  rw [atom]
  refine .peek ?_
  have htake {kind : Token.Kind} {st' : State} (hkind : following eof ts = kind) (hne : kind ≠ .eof)
      (hstep : first opened kind = some st') :
      ∃ t rest, ts = t :: rest ∧ step st t.kind = some st' := by
    obtain ⟨t, rest, rfl, -⟩ := cons_of_following heof hne hkind
    exact ⟨t, rest, rfl, hfirst.trans (hkind ▸ hstep)⟩
  -- Number, `true`, `false` and name all take one token and are done.
  have hleaf {kind : Token.Kind} (hkind : following eof ts = kind) (hne : kind ≠ .eof)
      (hdone : first opened kind = some ⟨.done, opened⟩) (e : Expr) :
      Walks eof (do let _ ← next; return e) ts st (Past eof opened) := by
    obtain ⟨t, rest, rfl, hstep⟩ := htake hkind hne hdone
    exact .next hstep (.pure .done)
  split
  next h => exact hleaf h (by decide) rfl _
  next h => exact hleaf h (by decide) rfl _
  next h => exact hleaf h (by decide) rfl _
  next h => exact hleaf h (by decide) rfl _
  next h =>
    obtain ⟨t, rest, rfl, hstep⟩ := htake h (by decide) rfl
    simp only [List.length_cons] at hn
    refine .next hstep ((ih.sequence (by omega) (by simp)).bind ?_)
    intro inner st' rest' hlen hinner
    have hclose := hinner.past.trans (follow_paren hinner.binOp? hinner.ne_comma)
    exact (Walks.expect heof (by decide) hclose).then fun _ _ _ => .pure .done
  next h₁ h₂ h₃ h₄ h₅ =>
    refine .noExpression (hfirst.trans (first_eq_none ?_ opened))
    simp only [Token.Kind.startsAtom]

theorem operand_walks (heof : eof.kind = .eof) (ih : WalksAt eof n)
    (hn : 6 * ts.length + 2 ≤ n + 1) :
    Walks eof (operand (n + 1)) ts ⟨.start, opened⟩ (Past eof opened) := by
  rw [operand]
  refine .peek ?_
  split
  next hlet => exact (ih.letForm (by omega) hlet).mono fun _ _ h => h.past
  next hident =>
    obtain ⟨t, rest, rfl, hkind⟩ := cons_of_following heof (by decide) hident
    have hstep : step ⟨.start, opened⟩ t.kind = some ⟨.callee, opened⟩ := by rw [hkind]; rfl
    simp only [List.length_cons] at hn
    -- the token behind the identifier tells a call from a variable, for the recognizer too
    unfold Walks
    rw [bind_ok (peekAt_one eof t rest)]
    split
    next harg =>
      have hfirst : step ⟨.callee, opened⟩ (following eof rest) =
          first opened (following eof rest) :=
        if_pos harg
      exact Walks.next hstep ((ih.atom (by omega) hfirst).bind fun _ _ _ _ h => .pure h)
    next harg =>
      obtain ⟨n, rfl⟩ : ∃ k, n = k + 1 := ⟨n - 1, by omega⟩
      rw [atom]
      refine Walks.peek ?_
      simp only [List.headD_cons, hkind]
      exact .next hstep (.pure (.callee (Bool.eq_false_iff.mpr harg)))
  next hlet hident =>
    refine ih.atom (by omega) ?_
    simp only [step]

/-- Each function of the parser goes along with the recognizer. -/
theorem walksAt (heof : eof.kind = .eof) : ∀ n, WalksAt eof n
  -- every function asks for a depth of at least one
  | 0 => by constructor <;> omega
  | n + 1 =>
    have ih := walksAt heof n
    { sequence := sequence_walks heof ih
      term := term_walks ih
      letForm := letForm_walks heof ih
      operators := operators_walks ih
      extend := extend_walks heof ih
      operand := operand_walks heof ih
      atom := atom_walks heof ih }

theorem whole_walks (heof : eof.kind = .eof) :
    Walks eof whole ts ⟨.start, []⟩ fun st rest =>
      following eof rest = .eof ∧ step st .eof = some ⟨.done, []⟩ := by
  have hdepth : 6 * ts.length + 5 ≤ depthFor (.of eof ts) := by
    simp only [depthFor, Stream.of, List.length_map]
    omega
  have hexpr : Walks eof expression ts ⟨.start, []⟩ (PastSequence eof []) := by
    unfold Walks expression
    exact (walksAt heof _).sequence hdepth (by simp)
  refine hexpr.bind fun e st rest _ h => .peek ?_
  have hstep := h.past.trans (follow_nil h.binOp? h.ne_comma)
  split
  next hend =>
    have hend : following eof rest = .eof := hend
    rw [hend] at hstep
    exact .pure ⟨hend, hstep⟩
  next hend =>
    exact .throw (hstep.trans (if_neg hend)) ⟨rfl, iff_of_false (by simp) hend, by simp⟩

end

section

variable {source : String} {ts : List Token} {eof : Token}

theorem whole_follows (h : Stream.ofSource source = .of eof ts) :
    Follows eof ts ⟨.start, []⟩ (fun st rest => following eof rest = .eof ∧
      step st .eof = some ⟨.done, []⟩)
      (whole (Stream.ofSource source)) := by
  rw [h]
  exact whole_walks (by simpa [h, Stream.of] using ofSource_eof source)

theorem blames_of_parse (h : Stream.ofSource source = .of eof ts) {e : ParseError}
    (he : parse source = .error e) : Blames e ⟨.start, []⟩ (ts ++ [eof]) := by
  have hwhole := whole_follows h
  unfold parse at he
  split at he
  next => cases he
  next heq =>
    rw [heq] at hwhole
    exact Except.error.inj he ▸ hwhole

theorem run_of_parse (h : Stream.ofSource source = .of eof ts) {e : Expr}
    (he : parse source = .ok e) :
    run ⟨.start, []⟩ ((ts ++ [eof]).map Token.kind) = some ⟨.done, []⟩ := by
  have hwhole := whole_follows h
  have heof : eof.kind = .eof := by simpa [h, Stream.of] using ofSource_eof source
  unfold parse at he
  split at he
  next heq =>
    rw [heq] at hwhole
    obtain ⟨us, rest, st, rfl, -, hrun, hend, hstep⟩ := hwhole
    -- no token in front of the end stands for it, so nothing is left
    obtain rfl : rest = [] := by
      cases rest with
      | nil => rfl
      | cons t rest =>
        have hmem : .ok t ∈ (Stream.ofSource source).ahead := by simp [h, Stream.of]
        have hproper := ofSource_proper hmem
        simp [Symbol.Proper, show t.kind = .eof from hend] at hproper
    rw [List.append_nil, List.map_append, run_append, hrun]
    simp [run, heof, hstep]
  next => cases he

theorem parse_of_run (h : Stream.ofSource source = .of eof ts)
    (hrun : run ⟨.start, []⟩ ((ts ++ [eof]).map Token.kind) ≠ none) : ∃ e, parse source = .ok e := by
  cases he : parse source with
  | ok e => exact ⟨e, rfl⟩
  | error e =>
    obtain ⟨before, t, after, st, hts, hbefore, hstep, -⟩ := blames_of_parse h he
    rw [hts, List.map_append, List.map_cons] at hrun
    exact absurd (run_eq_none hbefore hstep _) hrun

/-- What the recognizer takes is the beginning of a text that parses. -/
theorem viable_of_run {us : List Token} {st : State}
    (h : Stream.ofSource source = .of eof (ts ++ us))
    (hrun : run ⟨.start, []⟩ (ts.map Token.kind) = some st) : Viable id ts := by
  obtain ⟨source', us', eof', hsource', hkinds⟩ := exists_continued h (eof_not_mem_completion st)
  have heof : eof'.kind = .eof := by simpa [hsource', Stream.of] using ofSource_eof source'
  have hcomplete : run ⟨.start, []⟩ ((ts ++ us' ++ [eof']).map Token.kind) = some ⟨.done, []⟩ := by
    rw [List.append_assoc, List.map_append, run_append, hrun, Option.bind_some,
      List.map_append, hkinds, List.map_singleton, heof, run_completion]
  obtain ⟨e, he⟩ := parse_of_run hsource' (hcomplete ▸ Option.some_ne_none _)
  refine ⟨source', _, e, tokenize_of_ofSource hsource', he, ?_⟩
  rw [List.map_id, List.map_id, List.append_assoc]
  exact List.prefix_append _ _

theorem not_viable_of_run (h : run ⟨.start, []⟩ (ts.map Token.kind) = none) :
    ¬ Viable Token.kind ts := by
  rintro ⟨source, tokens, e, htokens, he, more, hmore⟩
  obtain ⟨us, eof, rfl, hsource⟩ := ofSource_of_tokenize htokens
  have hrun := run_of_parse hsource he
  rw [← hmore, run_append, h] at hrun
  cases hrun

end

end Parser

/-- A parse error points at the first impossible token. What stands in front of that token is the
beginning of a text that parses; with the token it is not, wherever its tokens are placed and
however they are spelled, where the end counts as a token. The error is about the end of the text
exactly if the token is that, and it is never about a token that could not be read. -/
theorem parse_error_at_first_impossible {source : String} {tokens : List Token} {e : ParseError}
    (h : tokenize source = .ok tokens) (he : parse source = .error e) :
    ∃ before t after, tokens = before ++ t :: after ∧ Viable id before ∧
      ¬ Viable Token.kind (before ++ [t]) ∧ e.PointsAt t := by
  obtain ⟨ts, eof, rfl, hsource⟩ := ofSource_of_tokenize h
  obtain ⟨before, t, after, st, hts, hrun, hstep, hpoints⟩ := Parser.blames_of_parse hsource he
  refine ⟨before, t, after, hts, ?_, Parser.not_viable_of_run ?_, hpoints⟩
  · have hlen := congrArg List.length hts
    simp only [List.length_append, List.length_cons, List.length_nil] at hlen
    obtain ⟨us, rfl⟩ : before <+: ts :=
      List.prefix_of_prefix_length_le ⟨_, hts.symm⟩ (List.prefix_append ts [eof]) (by omega)
    exact Parser.viable_of_run hsource hrun
  · rw [List.map_append]
    exact Recognizer.run_eq_none hrun hstep []

/-- Behind the call in the parenthesis `in` is impossible, though it closes what stands around. -/
theorem parse_error_at_first_impossible_openParen :
    ∃ tokens e, tokenize "let x = f (1, g 2 in x" = .ok tokens ∧
      parse "let x = f (1, g 2 in x" = .error e ∧ e.span = ⟨1, 19, 2⟩ ∧
      ∃ before t after, tokens = before ++ t :: after ∧ Viable id before ∧
        ¬ Viable Token.kind (before ++ [t]) ∧ e.PointsAt t := by
  have h : tokenize "let x = f (1, g 2 in x" =
      .ok [⟨.letKw, "let", ⟨1, 1, 3⟩⟩, ⟨.ident, "x", ⟨1, 5, 1⟩⟩,
      ⟨.equal, "=", ⟨1, 7, 1⟩⟩, ⟨.ident, "f", ⟨1, 9, 1⟩⟩, ⟨.leftParen, "(", ⟨1, 11, 1⟩⟩,
      ⟨.number, "1", ⟨1, 12, 1⟩⟩, ⟨.comma, ",", ⟨1, 13, 1⟩⟩, ⟨.ident, "g", ⟨1, 15, 1⟩⟩,
      ⟨.number, "2", ⟨1, 17, 1⟩⟩, ⟨.inKw, "in", ⟨1, 19, 2⟩⟩, ⟨.ident, "x", ⟨1, 22, 1⟩⟩,
      ⟨.eof, "", ⟨1, 23, 0⟩⟩] := by cbv
  have he : parse "let x = f (1, g 2 in x" =
      .error ⟨.expectedToken, ⟨1, 19, 2⟩, "expected ')', found 'in'"⟩ := by cbv
  exact ⟨_, _, h, he, rfl, parse_error_at_first_impossible h he⟩

end LetStack
