import LetStack.Token

namespace LetStack

namespace Recognizer

inductive Opener where
  | binding
  | paren
deriving DecidableEq, Repr

/-- What has been read last, as far as it matters for what may follow. Behind an identifier that
starts an operand an atom may follow, which is `callee`; behind any other complete operand none may.
-/
inductive Phase where
  | start
  | callee
  | done
  | letName
  | bound
  | colon
  | paramTy
  | arrow
  | resultTy
  | equal
deriving DecidableEq, Repr

structure State where
  phase : Phase
  opened : List Opener
deriving DecidableEq, Repr

def first (opened : List Opener) : Token.Kind → Option State
  | .number | .trueLit | .falseLit | .ident => some ⟨.done, opened⟩
  | .leftParen => some ⟨.start, .paren :: opened⟩
  | _ => none

/-- The token behind a complete operand. The elements of a sequence stand in a parenthesis, or at
the top: a bound expression has no comma. -/
def follow : List Opener → Token.Kind → Option State
  | opened, .plus | opened, .minus | opened, .equalEqual | opened, .less => some ⟨.start, opened⟩
  | .binding :: _, .comma => none
  | opened, .comma => some ⟨.start, opened⟩
  | .binding :: opened, .inKw => some ⟨.start, opened⟩
  | .paren :: opened, .rightParen => some ⟨.done, opened⟩
  | [], .eof => some ⟨.done, []⟩
  | _, _ => none

def only (expected : Token.Kind) (st : State) (kind : Token.Kind) : Option State :=
  if kind = expected then some st else none

def step (st : State) (kind : Token.Kind) : Option State :=
  match st.phase with
  | .start =>
    match kind with
    | .letKw => some ⟨.letName, st.opened⟩
    | .ident => some ⟨.callee, st.opened⟩
    | _ => first st.opened kind
  | .callee => if kind.startsAtom then first st.opened kind else follow st.opened kind
  | .done => follow st.opened kind
  | .letName => only .ident ⟨.bound, st.opened⟩ kind
  | .bound =>
    if kind = .ident then some ⟨.colon, st.opened⟩
    else only .equal ⟨.start, .binding :: st.opened⟩ kind
  | .colon => only .colon ⟨.paramTy, st.opened⟩ kind
  | .paramTy => if kind.ty?.isSome then some ⟨.arrow, st.opened⟩ else none
  | .arrow => only .arrow ⟨.resultTy, st.opened⟩ kind
  | .resultTy => if kind.ty?.isSome then some ⟨.equal, st.opened⟩ else none
  | .equal => only .equal ⟨.start, .binding :: st.opened⟩ kind

def run : State → List Token.Kind → Option State
  | st, [] => some st
  | st, kind :: kinds => (step st kind).bind (run · kinds)

theorem first_eq_none {kind : Token.Kind} (h : kind.startsAtom = false) (opened : List Opener) :
    first opened kind = none := by
  cases kind <;> first | rfl | cases h

section

variable {kind : Token.Kind} {opened : List Opener}

theorem follow_operator {op : BinOp} (h : kind.binOp? = some op) :
    follow opened kind = some ⟨.start, opened⟩ := by
  cases kind <;> first | rfl | cases h

theorem follow_comma (h : opened.head? ≠ some .binding) :
    follow opened .comma = some ⟨.start, opened⟩ := by
  rcases opened with _ | ⟨_ | _, opened⟩
  · rfl
  · exact absurd rfl h
  · rfl

theorem follow_binding (h : kind.binOp? = none) :
    follow (.binding :: opened) kind = only .inKw ⟨.start, opened⟩ kind := by
  cases kind <;> first | rfl | cases h

theorem follow_paren (h : kind.binOp? = none) (hcomma : kind ≠ .comma) :
    follow (.paren :: opened) kind = only .rightParen ⟨.done, opened⟩ kind := by
  cases kind <;> first | rfl | exact absurd rfl hcomma | cases h

theorem follow_nil (h : kind.binOp? = none) (hcomma : kind ≠ .comma) :
    follow [] kind = only .eof ⟨.done, []⟩ kind := by
  cases kind <;> first | rfl | exact absurd rfl hcomma | cases h

end

theorem run_append (st : State) (kinds more : List Token.Kind) :
    run st (kinds ++ more) = (run st kinds).bind (run · more) := by
  induction kinds generalizing st with
  | nil => rfl
  | cons kind kinds ih =>
    rw [List.cons_append, run, run]
    cases step st kind with
    | none => rfl
    | some st' => exact ih st'

theorem run_eq_none {st st' : State} {kinds : List Token.Kind} {kind : Token.Kind}
    (hrun : run st kinds = some st') (hstep : step st' kind = none) (more : List Token.Kind) :
    run st (kinds ++ kind :: more) = none := by
  rw [run_append, hrun, Option.bind_some, run, hstep, Option.bind_none]

def closing : List Opener → List Token.Kind
  | [] => []
  | .binding :: opened => .inKw :: .number :: closing opened
  | .paren :: opened => .rightParen :: closing opened

def Phase.missing : Phase → List Token.Kind
  | start => [.number]
  | callee | done => []
  | letName => [.ident, .equal, .number, .inKw, .number]
  | bound | equal => [.equal, .number, .inKw, .number]
  | colon => [.colon, .numTy, .arrow, .numTy, .equal, .number, .inKw, .number]
  | paramTy => [.numTy, .arrow, .numTy, .equal, .number, .inKw, .number]
  | arrow => [.arrow, .numTy, .equal, .number, .inKw, .number]
  | resultTy => [.numTy, .equal, .number, .inKw, .number]

def State.completion (st : State) : List Token.Kind := st.phase.missing ++ closing st.opened

theorem eof_not_mem_closing (opened : List Opener) : .eof ∉ closing opened := by
  induction opened with
  | nil => simp [closing]
  | cons opener opened ih => cases opener <;> simp [closing, ih]

theorem eof_not_mem_completion (st : State) : .eof ∉ st.completion := by
  obtain ⟨phase, opened⟩ := st
  cases phase <;> simp [State.completion, Phase.missing, eof_not_mem_closing]

theorem run_closing (opened : List Opener) :
    run ⟨.done, opened⟩ (closing opened ++ [.eof]) = some ⟨.done, []⟩ := by
  induction opened with
  | nil => rfl
  | cons opener opened ih => cases opener <;> exact ih

/-- No closing token starts an atom, so it makes no difference whether one could follow. -/
theorem run_callee_closing (opened : List Opener) :
    run ⟨.callee, opened⟩ (closing opened ++ [.eof]) =
      run ⟨.done, opened⟩ (closing opened ++ [.eof]) := by
  rcases opened with _ | ⟨_ | _, opened⟩ <;> rfl

/-- Every state can be left with a whole text. -/
theorem run_completion (st : State) : run st (st.completion ++ [.eof]) = some ⟨.done, []⟩ := by
  obtain ⟨phase, opened⟩ := st
  cases phase with
  | callee => exact (run_callee_closing opened).trans (run_closing opened)
  | _ => exact run_closing opened

end Recognizer

end LetStack
