import Mathlib
import LetStack.Proofs.Lexing
import LetStack.Proofs.ParserSoundness

namespace LetStack

def Stream.of (eof : Token) (ts : List Token) : Stream := ⟨ts.map .ok, eof⟩

theorem Stream.of_inj {eof eof' : Token} {ts ts' : List Token} (h : of eof ts = of eof' ts') :
    ts = ts' :=
  List.map_injective_iff.mpr (fun _ _ => Except.ok.inj) (congrArg ahead h)

namespace Parser

section

variable {α β : Type} {eof t : Token} {ts : List Token}

theorem bind_ok {p : Parser α} {k : α → Parser β} {s s₁ : Stream} {a : α} (h : p s = .ok a s₁) :
    (p >>= k) s = k a s₁ := by
  simp only [Bind.bind, EStateM.bind, h]

theorem peek_of (eof : Token) (ts : List Token) :
    peek (.of eof ts) = .ok (ts.headD eof) (.of eof ts) := by
  cases ts <;> rfl

theorem peekAt_one (eof t : Token) (ts : List Token) :
    peekAt 1 (.of eof (t :: ts)) = .ok (ts.headD eof) (.of eof (t :: ts)) := by
  cases ts <;> rfl

theorem next_of (eof t : Token) (ts : List Token) :
    next (.of eof (t :: ts)) = .ok t (.of eof ts) := rfl

theorem take_of {kind : Token.Kind} (h : t.kind = kind) (otherwise : ParseError.Kind) :
    take kind otherwise (.of eof (t :: ts)) = .ok t (.of eof ts) := by
  rw [take, bind_ok (peek_of eof (t :: ts)), List.headD_cons, if_pos h]
  rfl

theorem expect_of {kind : Token.Kind} (h : t.symbol = .of kind) :
    expect kind (.of eof (t :: ts)) = .ok t (.of eof ts) :=
  take_of (Token.kind_eq h) _

theorem identifier_of {x : String} (h : t.symbol = ⟨.ident, x⟩) :
    identifier (.of eof (t :: ts)) = .ok (.plain x) (.of eof ts) := by
  rw [identifier, bind_ok (take_of (Token.kind_eq h) _), Token.lexeme_of_symbol (.inl rfl) h]
  rfl

theorem type_of {ty : Ty} (h : t.symbol = .of ty.kind) :
    type (.of eof (t :: ts)) = .ok ty (.of eof ts) := by
  rw [type, bind_ok (peek_of eof (t :: ts))]
  simp only [List.headD_cons, Token.kind_eq h, Symbol.of_kind, Ty.ty?_kind]
  rfl

end

abbrev following (eof : Token) (rest : List Token) : Token.Kind := (rest.headD eof).kind

structure Stops (kind : Token.Kind) : Prop where
  startsAtom : kind.startsAtom = false
  binOp? : kind.binOp? = none

variable {c : Category}

/-- A token of this kind does not belong to the operand in front of it: it starts no atom, and if
the operand ends in a `let` it is no operator. -/
structure Ends (inLet : Bool) (kind : Token.Kind) : Prop where
  startsAtom : kind.startsAtom = false
  binOp? : inLet = true → kind.binOp? = none

theorem Stops.ends {kind : Token.Kind} (h : Stops kind) (inLet : Bool) : Ends inLet kind :=
  ⟨h.startsAtom, fun _ => h.binOp?⟩

theorem Ends.operator {inLet : Bool} (h : inLet = false) (op : BinOp) : Ends inLet op.kind :=
  ⟨by cases op <;> rfl, by simp [h]⟩

/-- A token of this kind follows a whole sum: the operators that it may be are comparisons. -/
structure EndsSum (inLet : Bool) (kind : Token.Kind) : Prop extends Ends inLet kind where
  compares : ∀ op, kind.binOp? = some op → op = .eq ∨ op = .lt

/-- In front of what it allows to follow, the parser reads the derived text and gives the derived
tree, at every depth that is great enough for the text. -/
def ReadsTo (p : Nat → Parser Expr) (slack : Nat) (d : Derivation c)
    (follow : Token.Kind → Prop) : Prop :=
  ∀ ts rest eof n, ts.map Token.symbol = d.yield → 6 * ts.length ≤ n + slack →
    follow (following eof rest) →
      ∃ e, p n (.of eof (ts ++ rest)) = .ok e (.of eof rest) ∧ e.unplace = d.tree

/-- The parser reads the derived text up to the point where it looks for a further operator. -/
def LoopsTo (least : Nat) (d : Derivation c) (follow : Token.Kind → Prop) : Prop :=
  ∀ ts rest eof n, ts.map Token.symbol = d.yield → 6 * ts.length ≤ n + 2 →
    follow (following eof rest) → ∃ e m, n ≤ m + ts.length ∧
      operators n least (.of eof (ts ++ rest)) = extend m least e (.of eof rest) ∧ e.unplace = d.tree

def ReadBack : {c : Category} → Derivation c → Prop
  | .sequence, d => ReadsTo sequence 0 d fun kind => Stops kind ∧ kind ≠ .comma
  | .comparison, d => LoopsTo 0 d (EndsSum d.endsInLet) ∧ ReadsTo term 1 d Stops
  | .sum, d => (∀ least ≤ 6, LoopsTo least d (Ends d.endsInLet)) ∧ ReadsTo term 1 d Stops
  | .operand, d =>
    ReadsTo operand 3 d (Ends d.endsInLet) ∧ (d.endsInLet = true → ReadsTo letForm 4 d Stops)
  | .atom, d => ReadsTo atom 4 d fun _ => True

theorem extend_stop {m least : Nat} {e : Expr} {eof : Token} {rest : List Token} (hm : 0 < m)
    (hop : ∀ op, (following eof rest).binOp? = some op → op.bindingPower.1 < least) :
    extend m least e (.of eof rest) = .ok e (.of eof rest) := by
  obtain ⟨m, rfl⟩ := Nat.exists_eq_succ_of_ne_zero (Nat.ne_of_gt hm)
  rw [extend, bind_ok (peek_of eof rest)]
  cases h : (following eof rest).binOp? with
  | none => rfl
  | some op =>
    simp only [hop op h, if_true]
    rfl

theorem yield_length_pos (d : Derivation c) : 0 < d.yield.length := by
  induction d with
  | last d ih | sum d ih | operand d ih | atom d ih => exact ih
  | comma | compare | add =>
    simp only [Derivation.yield, List.length_append, List.length_cons]
    omega
  | letIn | letFun | call | number | bool | name | paren =>
    simp [Derivation.yield, Derivation.letHead, Derivation.letFunHead]

theorem length_of_symbols {d : Derivation c} {ts : List Token} (h : ts.map Token.symbol = d.yield) :
    0 < ts.length := by
  rw [← List.length_map (f := Token.symbol), h]
  exact yield_length_pos d

/-- A text without a `let` at its end does not start with one either. -/
theorem head_ne_let (d : Derivation c) (hc : c ≠ .sequence) (hd : d.Greedy)
    (hlet : d.endsInLet = false) : ∃ x w, d.yield = x :: w ∧ x.kind ≠ .letKw := by
  induction d with
  | last | comma => simp at hc
  | sum d ih | operand d ih | atom d ih => exact ih (by simp) hd hlet
  | compare op hop left right ihl | add op hop left right ihl =>
    obtain ⟨x, w, hw, hx⟩ := ihl (by simp) hd.1 hd.2.1
    exact ⟨x, _, by rw [Derivation.yield, hw]; rfl, hx⟩
  | letIn | letFun => cases hlet
  | call f arg => exact ⟨_, _, rfl, by simp⟩
  | number | name => exact ⟨_, _, rfl, by simp⟩
  | bool b => exact ⟨_, _, rfl, by cases b <;> simp [Symbol.of]⟩
  | paren inner => exact ⟨_, _, rfl, by simp [Symbol.of]⟩

theorem last_reads {d : Derivation .comparison} (h : ReadsTo term 1 d Stops) :
    ReadBack (.last d) := by
  intro ts rest eof n hts hn hstops
  have hpos := length_of_symbols hts
  obtain ⟨n, rfl⟩ : ∃ k, n = k + 1 := ⟨n - 1, by omega⟩
  obtain ⟨e, hterm, htree⟩ := h ts rest eof n hts (by omega) hstops.1
  refine ⟨e, ?_, htree⟩
  rw [sequence, bind_ok hterm, bind_ok (peek_of eof rest), if_neg hstops.2]
  rfl

theorem comma_reads {a : Derivation .comparison} {b : Derivation .sequence}
    (ha : ReadsTo term 1 a Stops) (hb : ReadBack b) : ReadBack (.comma a b) := by
  intro ts rest eof n hts hn hstops
  obtain ⟨us, vs, rfl, hus, hvs⟩ := List.map_eq_append_iff.mp hts
  obtain ⟨t, vs, rfl, ht, hvs⟩ := List.map_eq_cons_iff.mp hvs
  have hkind : t.kind = .comma := Token.kind_eq ht
  simp only [List.length_append, List.length_cons] at hn
  obtain ⟨n, rfl⟩ : ∃ k, n = k + 1 := ⟨n - 1, by omega⟩
  have hcomma : Stops t.kind := by rw [hkind]; exact ⟨rfl, rfl⟩
  obtain ⟨e, hfirst, hetree⟩ := ha us (t :: (vs ++ rest)) eof n hus (by omega) hcomma
  obtain ⟨e', hsecond, hetree'⟩ := hb vs rest eof n hvs (by omega) hstops
  refine ⟨.seq (.untyped (e.span.merge e'.span)) e e', ?_, ?_⟩
  · rw [List.append_assoc, List.cons_append, sequence, bind_ok hfirst, bind_ok (peek_of eof _),
      List.headD_cons, if_pos hkind, bind_ok (next_of eof t _), bind_ok hsecond]
    rfl
  · rw [Derivation.tree, ← hetree, ← hetree']
    rfl

/-- An operator of the loop, and what is read behind it. -/
theorem extend_step {m least : Nat} {op : BinOp} {t eof : Token} {ts : List Token} {e e' : Expr}
    {s : Stream} (hkind : t.kind = op.kind) (hleast : least ≤ op.bindingPower.1)
    (hright : operators m op.bindingPower.2 (.of eof ts) = .ok e' s) :
    extend (m + 1) least e (.of eof (t :: ts)) =
      extend m least (.binary (.untyped (e.span.merge e'.span)) op e e') s := by
  rw [extend, bind_ok (peek_of eof _)]
  simp only [List.headD_cons, hkind, BinOp.binOp?_kind]
  rw [if_neg (Nat.not_lt.mpr hleast), bind_ok (next_of eof t ts), bind_ok hright]

/-- The loop goes once round: behind the left side it finds the operator, and reads the right side.
-/
theorem step_loops {c₁ c₂ : Category} {op : BinOp} {a : Derivation c₁} {b : Derivation c₂}
    {d : Derivation c} {least : Nat} {follow follow' : Token.Kind → Prop}
    (hyield : d.yield = a.yield ++ .of op.kind :: b.yield)
    (htree : d.tree = .binary .nowhere op a.tree b.tree) (hleast : least ≤ op.bindingPower.1)
    (ha : LoopsTo least a follow) (hop : follow op.kind)
    (hb : ReadsTo (operators · op.bindingPower.2) 2 b follow') : LoopsTo least d follow' := by
  intro ts rest eof n hts hn hfollow
  obtain ⟨us, vs, rfl, hus, hvs⟩ := List.map_eq_append_iff.mp (hts.trans hyield)
  obtain ⟨t, vs, rfl, ht, hvs⟩ := List.map_eq_cons_iff.mp hvs
  have hkind : t.kind = op.kind := Token.kind_eq ht
  simp only [List.length_append, List.length_cons] at hn ⊢
  obtain ⟨e, m, hm, hloop, hetree⟩ := ha us (t :: (vs ++ rest)) eof n hus (by omega)
    (by simpa only [following, List.headD_cons, hkind] using hop)
  obtain ⟨m, rfl⟩ : ∃ k, m = k + 1 := ⟨m - 1, by omega⟩
  obtain ⟨e', hright, hetree'⟩ := hb vs rest eof m hvs (by omega) hfollow
  refine ⟨.binary (.untyped (e.span.merge e'.span)) op e e', m, by omega, ?_, ?_⟩
  · rw [List.append_assoc, List.cons_append, hloop, extend_step hkind hleast hright]
  · rw [htree, ← hetree, ← hetree']
    rfl

theorem operand_loops {d : Derivation .operand} (h : ReadsTo operand 3 d (Ends d.endsInLet))
    (least : Nat) : LoopsTo least (.operand d) (Ends d.endsInLet) := by
  intro ts rest eof n hts hn hends
  have hpos := length_of_symbols hts
  obtain ⟨n, rfl⟩ : ∃ k, n = k + 1 := ⟨n - 1, by omega⟩
  obtain ⟨e, hoperand, htree⟩ := h ts rest eof n hts (by omega) hends
  refine ⟨e, n, by omega, ?_, htree⟩
  rw [operators, bind_ok hoperand]

/-- Where no operator that follows is tight enough, the loop ends. -/
theorem reads_of_loops {d : Derivation c} {least : Nat} {follow : Token.Kind → Prop}
    (h : LoopsTo least d follow)
    (hloose : ∀ kind, follow kind → ∀ op, kind.binOp? = some op → op.bindingPower.1 < least) :
    ReadsTo (operators · least) 2 d follow := by
  intro ts rest eof n hts hn hfollow
  have hpos := length_of_symbols hts
  obtain ⟨e, m, hm, hloop, htree⟩ := h ts rest eof n hts hn hfollow
  exact ⟨e, hloop.trans (extend_stop (by omega) (hloose _ hfollow)), htree⟩

/-- Where no `let` comes first, a term is a chain of operators. -/
theorem term_of_loops {d : Derivation c} {follow : Token.Kind → Prop} (h : LoopsTo 0 d follow)
    (hfollow : ∀ kind, Stops kind → follow kind)
    (hhead : ∃ x w, d.yield = x :: w ∧ x.kind ≠ .letKw) : ReadsTo term 1 d Stops := by
  intro ts rest eof n hts hn hstops
  have hpos := length_of_symbols hts
  obtain ⟨n, rfl⟩ : ∃ k, n = k + 1 := ⟨n - 1, by omega⟩
  obtain ⟨e, m, hm, hloop, htree⟩ := h ts rest eof n hts (by omega) (hfollow _ hstops)
  refine ⟨e, ?_, htree⟩
  have hstop : extend m 0 e (.of eof rest) = .ok e (.of eof rest) :=
    extend_stop (by omega) (by simp [hstops.binOp?])
  obtain ⟨x, w, hw, hx⟩ := hhead
  obtain ⟨t, us, rfl, rfl, -⟩ := List.map_eq_cons_iff.mp (hts.trans hw)
  rw [term, bind_ok (peek_of eof _), if_neg (by simpa using hx), hloop, hstop]

/-- The right side of a sum is one operand, whatever operator follows. -/
theorem add_loops {op : BinOp} (hop : op = .add ∨ op = .sub) {a : Derivation .sum}
    {b : Derivation .operand} {least : Nat} (hleast : least ≤ 6) (hclosed : a.endsInLet = false)
    (ha : LoopsTo least a (Ends a.endsInLet)) (hb : ReadsTo operand 3 b (Ends b.endsInLet)) :
    LoopsTo least (.add op hop a b) (Ends b.endsInLet) := by
  have hpower : op.bindingPower = (6, 7) := by rcases hop with rfl | rfl <;> rfl
  refine step_loops rfl rfl (by rw [hpower]; exact hleast) ha (.operator hclosed op) ?_
  rw [hpower]
  exact reads_of_loops (operand_loops hb 7) fun kind _ op _ => by cases op <;> decide

/-- The right side of a comparison is a whole sum. -/
theorem compare_loops {op : BinOp} (hop : op = .eq ∨ op = .lt) {a : Derivation .comparison}
    {b : Derivation .sum} (hclosed : a.endsInLet = false) (ha : ReadBack a) (hb : ReadBack b) :
    LoopsTo 0 (.compare op hop a b) (EndsSum b.endsInLet) := by
  have hpower : op.bindingPower = (4, 5) := by rcases hop with rfl | rfl <;> rfl
  have hcompares : EndsSum a.endsInLet op.kind :=
    ⟨.operator hclosed op, by simpa [BinOp.binOp?_kind] using hop⟩
  refine step_loops rfl rfl (Nat.zero_le _) ha.1 hcompares ?_
  rw [hpower]
  refine reads_of_loops (fun ts rest eof n hts hn h => hb.1 5 (by omega) ts rest eof n hts hn h.1) ?_
  intro kind hkind op hop
  rcases hkind.compares op hop with rfl | rfl <;> decide

/-- A bound expression, `in`, and the expression behind it. -/
theorem bound_reads {a b : Derivation .comparison} (ha : ReadBack a) (hb : ReadBack b)
    {ts rest : List Token} {eof : Token} {n : Nat}
    (hts : ts.map Token.symbol = a.yield ++ .of .inKw :: b.yield) (hn : 6 * ts.length ≤ n)
    (hstops : Stops (following eof rest)) :
    ∃ e e', e.unplace = a.tree ∧ e'.unplace = b.tree ∧ ∀ k : Expr → Expr → Parser Expr,
      (do let value ← term n
          let _ ← expect .inKw
          let body ← term n
          k value body) (.of eof (ts ++ rest)) = k e e' (.of eof rest) := by
  obtain ⟨us, vs, rfl, hus, hvs⟩ := List.map_eq_append_iff.mp hts
  obtain ⟨t, vs, rfl, ht, hvs⟩ := List.map_eq_cons_iff.mp hvs
  have hkind : t.kind = .inKw := Token.kind_eq ht
  simp only [List.length_append, List.length_cons] at hn
  have hin : Stops t.kind := by rw [hkind]; exact ⟨rfl, rfl⟩
  obtain ⟨e, hvalue, hetree⟩ := ha.2 us (t :: (vs ++ rest)) eof n hus (by omega) hin
  obtain ⟨e', hbody, hetree'⟩ := hb.2 vs rest eof n hvs (by omega) hstops
  refine ⟨e, e', hetree, hetree', fun k => ?_⟩
  rw [List.append_assoc, List.cons_append, bind_ok hvalue, bind_ok (expect_of ht), bind_ok hbody]

theorem letIn_reads (x : String) {value body : Derivation .comparison} (hv : ReadBack value)
    (hb : ReadBack body) : ReadsTo letForm 4 (.letIn x value body) Stops := by
  intro ts rest eof n hts hn hstops
  simp only [Derivation.yield, Derivation.letHead, List.cons_append, List.nil_append,
    List.map_eq_cons_iff] at hts
  obtain ⟨t₁, _, rfl, h₁, t₂, _, rfl, h₂, t₃, ts, rfl, h₃, hts⟩ := hts
  simp only [List.length_cons] at hn
  obtain ⟨n, rfl⟩ : ∃ k, n = k + 1 := ⟨n - 1, by omega⟩
  obtain ⟨e, e', hetree, hetree', hrun⟩ := bound_reads hv hb hts (by omega : _ ≤ n) hstops
  refine ⟨.letIn (.untyped (t₁.span.merge e'.span)) (.plain x) e e', ?_, ?_⟩
  · simp only [List.cons_append]
    rw [letForm, bind_ok (expect_of h₁), bind_ok (identifier_of h₂),
      bind_ok (peek_of eof _), List.headD_cons, if_neg (by simp [Token.kind_eq h₃]),
      bind_ok (expect_of h₃), hrun]
    rfl
  · rw [Derivation.tree, ← hetree, ← hetree']
    rfl

theorem letFun_reads (f x : String) (paramTy resultTy : Ty) {body rest : Derivation .comparison}
    (hb : ReadBack body) (hr : ReadBack rest) :
    ReadsTo letForm 4 (.letFun f x paramTy resultTy body rest) Stops := by
  intro ts after eof n hts hn hstops
  simp only [Derivation.yield, Derivation.letFunHead, List.cons_append, List.nil_append,
    List.map_eq_cons_iff] at hts
  obtain ⟨t₁, _, rfl, h₁, t₂, _, rfl, h₂, t₃, _, rfl, h₃, t₄, _, rfl, h₄, t₅, _, rfl, h₅,
      t₆, _, rfl, h₆, t₇, _, rfl, h₇, t₈, ts, rfl, h₈, hts⟩ := hts
  simp only [List.length_cons] at hn
  obtain ⟨n, rfl⟩ : ∃ k, n = k + 1 := ⟨n - 1, by omega⟩
  obtain ⟨e, e', hetree, hetree', hrun⟩ := bound_reads hb hr hts (by omega : _ ≤ n) hstops
  refine ⟨.letFun (.untyped (t₁.span.merge e'.span)) (.plain f) (.plain x) paramTy
    resultTy e e', ?_, ?_⟩
  · simp only [List.cons_append]
    rw [letForm, bind_ok (expect_of h₁), bind_ok (identifier_of h₂),
      bind_ok (peek_of eof _), List.headD_cons, if_pos (Token.kind_eq h₃),
        bind_ok (identifier_of h₃), bind_ok (expect_of h₄), bind_ok (type_of h₅),
      bind_ok (expect_of h₆), bind_ok (type_of h₇),
      bind_ok (expect_of h₈), hrun]
    rfl
  · rw [Derivation.tree, ← hetree, ← hetree']
    rfl

theorem let_head {d : Derivation .operand} (h : d.endsInLet = true) :
    ∃ w, d.yield = .of .letKw :: w := by
  cases d with
  | letIn | letFun => exact ⟨_, rfl⟩
  | call f arg => exact absurd h (by simp [Derivation.endsInLet, Derivation.atom_endsInLet])
  | atom d => exact absurd h (by simp [Derivation.endsInLet, Derivation.atom_endsInLet])

theorem term_of_letForm {d : Derivation .operand} (hlet : d.endsInLet = true)
    (h : ReadsTo letForm 4 d Stops) : ReadsTo term 1 d Stops := by
  intro ts rest eof n hts hn hstops
  have hpos := length_of_symbols hts
  obtain ⟨n, rfl⟩ : ∃ k, n = k + 1 := ⟨n - 1, by omega⟩
  obtain ⟨e, hform, htree⟩ := h ts rest eof n hts (by omega) hstops
  refine ⟨e, ?_, htree⟩
  obtain ⟨w, hw⟩ := let_head hlet
  obtain ⟨t, us, rfl, ht, -⟩ := List.map_eq_cons_iff.mp (hts.trans hw)
  rw [term, bind_ok (peek_of eof _), if_pos (by simpa using Token.kind_eq ht), hform]

theorem operand_of_letForm {d : Derivation .operand} (hlet : d.endsInLet = true)
    (h : ReadsTo letForm 4 d Stops) : ReadsTo operand 3 d (Ends d.endsInLet) := by
  intro ts rest eof n hts hn hends
  have hpos := length_of_symbols hts
  obtain ⟨n, rfl⟩ : ∃ k, n = k + 1 := ⟨n - 1, by omega⟩
  obtain ⟨e, hform, htree⟩ := h ts rest eof n hts (by omega) ⟨hends.1, hends.2 hlet⟩
  refine ⟨e, ?_, htree⟩
  obtain ⟨w, hw⟩ := let_head hlet
  obtain ⟨t, us, rfl, ht, -⟩ := List.map_eq_cons_iff.mp (hts.trans hw)
  have hkind : t.kind = .letKw := Token.kind_eq ht
  rw [operand, bind_ok (peek_of eof _)]
  simp only [List.cons_append, List.headD_cons, hkind]
  exact hform

theorem atom_head (d : Derivation .atom) : ∃ x w, d.yield = x :: w ∧ x.kind.startsAtom = true := by
  cases d with
  | bool b => exact ⟨_, _, rfl, by cases b <;> rfl⟩
  | number | name | paren => exact ⟨_, _, rfl, rfl⟩

theorem call_reads {f : String} {arg : Derivation .atom} (h : ReadBack arg) :
    ReadsTo operand 3 (.call f arg) (Ends arg.endsInLet) := by
  intro ts rest eof n hts hn hends
  obtain ⟨t, ts, rfl, ht, hts⟩ := List.map_eq_cons_iff.mp hts
  simp only [List.length_cons] at hn
  obtain ⟨n, rfl⟩ : ∃ k, n = k + 1 := ⟨n - 1, by omega⟩
  obtain ⟨e, hatom, htree⟩ := h ts rest eof n hts (by omega) trivial
  obtain ⟨x, w, hw, hx⟩ := atom_head arg
  obtain ⟨u, us, rfl, rfl, -⟩ := List.map_eq_cons_iff.mp (hts.trans hw)
  refine ⟨.apply (.untyped (t.span.merge e.span)) (.plain f) e, ?_, ?_⟩
  · have hkind : t.kind = .ident := Token.kind_eq ht
    rw [List.cons_append, operand, bind_ok (peek_of eof _)]
    simp only [List.headD_cons, hkind]
    rw [bind_ok (peekAt_one eof t _), if_pos (by simpa using hx), bind_ok (next_of eof t _),
      bind_ok hatom, Token.lexeme_of_symbol (.inl rfl) ht]
    rfl
  · rw [Derivation.tree, ← htree]
    rfl

theorem operand_of_atom {d : Derivation .atom} (h : ReadBack d) :
    ReadsTo operand 3 (.atom d) (Ends d.endsInLet) := by
  intro ts rest eof n hts hn hends
  have hpos := length_of_symbols hts
  obtain ⟨n, rfl⟩ : ∃ k, n = k + 1 := ⟨n - 1, by omega⟩
  obtain ⟨e, hatom, htree⟩ := h ts rest eof n hts (by omega) trivial
  refine ⟨e, ?_, htree⟩
  cases d with
  | name x =>
    obtain ⟨t, ts, rfl, ht, hts⟩ := List.map_eq_cons_iff.mp hts
    obtain rfl := List.map_eq_nil_iff.mp hts
    have hkind : t.kind = .ident := Token.kind_eq ht
    rw [operand, bind_ok (peek_of eof _)]
    simp only [List.cons_append, List.nil_append, List.headD_cons, hkind]
    rw [bind_ok (peekAt_one eof t _), if_neg (Bool.eq_false_iff.mp hends.startsAtom)]
    exact hatom
  | bool b =>
    obtain ⟨t, us, rfl, ht, -⟩ := List.map_eq_cons_iff.mp hts
    rw [operand, bind_ok (peek_of eof _)]
    simp only [List.cons_append, List.headD_cons, Token.kind_eq ht, Symbol.of_kind]
    cases b <;> exact hatom
  | number | paren =>
    obtain ⟨t, us, rfl, ht, -⟩ := List.map_eq_cons_iff.mp hts
    rw [operand, bind_ok (peek_of eof _)]
    simp only [List.cons_append, List.headD_cons, Token.kind_eq ht]
    exact hatom

/-- An atom of one token. -/
theorem one_reads {d : Derivation .atom} {x : Symbol} (hyield : d.yield = [x])
    (h : ∀ (t eof : Token) (rest : List Token) (n : Nat), t.symbol = x →
      ∃ e, atom (n + 1) (.of eof (t :: rest)) = .ok e (.of eof rest) ∧ e.unplace = d.tree) :
    ReadBack d := by
  intro ts rest eof n hts hn _
  obtain ⟨t, ts, rfl, ht, hts⟩ := List.map_eq_cons_iff.mp (hts.trans hyield)
  obtain rfl := List.map_eq_nil_iff.mp hts
  obtain ⟨n, rfl⟩ : ∃ k, n = k + 1 := ⟨n - 1, by simp at hn; omega⟩
  exact h t eof rest n ht

theorem number_reads (lexeme : String) : ReadBack (.number lexeme) := by
  refine one_reads rfl fun t eof rest n ht => ?_
  have hkind : t.kind = .number := Token.kind_eq ht
  refine ⟨.num (.untyped t.span) (Int32.ofNat (Text.decimal lexeme.toList)), ?_, rfl⟩
  rw [atom, bind_ok (peek_of eof _)]
  simp only [List.headD_cons, hkind]
  rw [bind_ok (next_of eof t _), Token.lexeme_of_symbol (.inr rfl) ht]
  rfl

theorem name_reads (x : String) : ReadBack (.name x) := by
  refine one_reads rfl fun t eof rest n ht => ?_
  have hkind : t.kind = .ident := Token.kind_eq ht
  refine ⟨.var (.untyped t.span) (.plain x), ?_, rfl⟩
  rw [atom, bind_ok (peek_of eof _)]
  simp only [List.headD_cons, hkind]
  rw [bind_ok (next_of eof t _), Token.lexeme_of_symbol (.inl rfl) ht]
  rfl

theorem bool_reads (b : Bool) : ReadBack (.bool b) := by
  refine one_reads rfl fun t eof rest n ht => ?_
  refine ⟨.bool (.untyped t.span) b, ?_, rfl⟩
  rw [atom, bind_ok (peek_of eof _)]
  simp only [List.headD_cons, Token.kind_eq ht, Symbol.of_kind]
  cases b <;> rfl

theorem paren_reads {inner : Derivation .sequence} (h : ReadBack inner) :
    ReadBack (.paren inner) := by
  intro ts rest eof n hts hn _
  obtain ⟨t, ts, rfl, ht, hts⟩ := List.map_eq_cons_iff.mp hts
  obtain ⟨us, vs, rfl, hus, hvs⟩ := List.map_eq_append_iff.mp hts
  obtain ⟨t', vs, rfl, ht', hvs⟩ := List.map_eq_cons_iff.mp hvs
  obtain rfl := List.map_eq_nil_iff.mp hvs
  simp only [List.length_append, List.length_cons, List.length_nil] at hn
  obtain ⟨n, rfl⟩ : ∃ k, n = k + 1 := ⟨n - 1, by omega⟩
  have hclose : t'.kind = .rightParen := Token.kind_eq ht'
  have hstops : Stops t'.kind ∧ t'.kind ≠ .comma := by rw [hclose]; exact ⟨⟨rfl, rfl⟩, by decide⟩
  obtain ⟨e, hinner, htree⟩ := h us (t' :: rest) eof n hus (by omega) hstops
  refine ⟨e, ?_, htree⟩
  have hopen : t.kind = .leftParen := Token.kind_eq ht
  simp only [List.cons_append, List.append_assoc, List.nil_append]
  rw [atom, bind_ok (peek_of eof _)]
  simp only [List.headD_cons, hopen]
  rw [bind_ok (next_of eof t _), bind_ok hinner, bind_ok (expect_of ht')]
  rfl

theorem readBack (d : Derivation c) (hd : d.Greedy) : ReadBack d := by
  induction d with
  | last d ih => exact last_reads (ih hd).2
  | comma first second ihf ihs => exact comma_reads (ihf hd.1).2 (ihs hd.2)
  | sum d ih =>
    refine ⟨fun ts rest eof n hts hn hfollow => ?_, (ih hd).2⟩
    exact (ih hd).1 0 (by omega) ts rest eof n hts hn hfollow.1
  | compare op hop left right ihl ihr =>
    -- The loop reads the operator itself, as the left operand does not end in a `let`.
    have hloops := compare_loops hop hd.2.1 (ihl hd.1) (ihr hd.2.2)
    obtain ⟨x, w, hw, hx⟩ := head_ne_let left (by simp) hd.1 hd.2.1
    refine ⟨hloops, term_of_loops hloops (fun kind h => ⟨h.ends _, by simp [h.binOp?]⟩) ?_⟩
    exact ⟨x, _, by rw [Derivation.yield, hw]; rfl, hx⟩
  | operand d ih =>
    have hloops := operand_loops (ih hd).1
    refine ⟨fun least _ => hloops least, ?_⟩
    -- A `let` in front is read by its own function, everything else by the operator loop.
    cases hlet : d.endsInLet with
    | false => exact term_of_loops (hloops 0) (fun _ h => h.ends _) (head_ne_let d (by simp) hd hlet)
    | true => exact term_of_letForm hlet ((ih hd).2 hlet)
  | add op hop left right ihl ihr =>
    have hloops := fun least h => add_loops hop h hd.2.1 ((ihl hd.1).1 least h) (ihr hd.2.2).1
    obtain ⟨x, w, hw, hx⟩ := head_ne_let left (by simp) hd.1 hd.2.1
    refine ⟨hloops, term_of_loops (hloops 0 (by omega)) (fun _ h => h.ends _) ?_⟩
    exact ⟨x, _, by rw [Derivation.yield, hw]; rfl, hx⟩
  | letIn x value body ihv ihb =>
    have h := letIn_reads x (ihv hd.1) (ihb hd.2)
    exact ⟨operand_of_letForm rfl h, fun _ => h⟩
  | letFun f x paramTy resultTy body rest ihb ihr =>
    have h := letFun_reads f x paramTy resultTy (ihb hd.1) (ihr hd.2)
    exact ⟨operand_of_letForm rfl h, fun _ => h⟩
  | call f arg ih =>
    exact ⟨call_reads (ih hd), by simp [Derivation.endsInLet, Derivation.atom_endsInLet]⟩
  | atom d ih =>
    exact ⟨operand_of_atom (ih hd), by simp [Derivation.endsInLet, Derivation.atom_endsInLet]⟩
  | number lexeme => exact number_reads lexeme
  | bool b => exact bool_reads b
  | name x => exact name_reads x
  | paren inner ih => exact paren_reads (ih hd)

end Parser

theorem mapM_id_eq_ok {ε α : Type} {l : List (Except ε α)} {as : List α} (h : l.mapM id = .ok as) :
    l = as.map .ok := by
  induction l generalizing as with
  | nil =>
    cases h
    rfl
  | cons x l ih =>
    rw [List.mapM_cons] at h
    rcases x with e | a
    · cases h
    · cases hl : l.mapM id with
      | error e =>
        rw [hl] at h
        cases h
      | ok as' =>
        rw [hl] at h
        cases h
        rw [ih hl, List.map_cons]

theorem ofSource_of_tokenize {source : String} {tokens : List Token}
    (h : tokenize source = .ok tokens) :
    ∃ ts eof, tokens = ts ++ [eof] ∧ Stream.ofSource source = .of eof ts := by
  unfold tokenize at h
  unfold Stream.ofSource
  rcases hscan : Lexer.scanAll .start source.toList with ⟨scans, eof⟩
  rw [hscan] at h
  cases hmap : scans.mapM id with
  | error e =>
    simp only [hmap] at h
    cases h
  | ok ts =>
    simp only [hmap] at h
    cases h
    exact ⟨ts, eof, rfl, by rw [mapM_id_eq_ok hmap]; rfl⟩

theorem tokenize_of_ofSource {source : String} {ts : List Token} {eof : Token}
    (h : Stream.ofSource source = .of eof ts) : tokenize source = .ok (ts ++ [eof]) := by
  obtain ⟨hscans, heof⟩ := Stream.mk.injEq .. |>.mp h
  have hmap : (ts.map (Except.ok (ε := LexError))).mapM id = .ok ts := by
    rw [List.mapM_map]
    exact (List.mapM_pure (f := id)).trans (by simp; rfl)
  simp only [tokenize, hscans, heof, hmap]
  rfl

theorem ofSource_eof (source : String) : (Stream.ofSource source).eof.kind = .eof :=
  Lexer.scanAll_eof .start source.toList

theorem ofSource_proper {source : String} {t : Token} (ht : .ok t ∈ (Stream.ofSource source).ahead) :
    t.symbol.Proper :=
  Lexer.scanAll_proper ht

/-- A parsed text is read as an expression, and nothing is left. -/
theorem expression_of_parse {source : String} {e : Expr} (h : parse source = .ok e) :
    ∃ s, Parser.expression (Stream.ofSource source) = .ok e s ∧ s.front.kind = .eof ∧
      (s.ahead = [] ∨ ∃ rest, s.ahead = .ok s.front :: rest) := by
  unfold parse at h
  cases hwhole : Parser.whole (Stream.ofSource source) with
  | error error s => simp [hwhole] at h
  | ok e' s =>
    simp only [hwhole, Except.ok.injEq] at h
    subst h
    simp only [Parser.whole, Parser.bind_eq_ok] at hwhole
    obtain ⟨e, s₁, hexpr, t, s₂, hpeek, hdone⟩ := hwhole
    obtain ⟨rfl, rfl, hahead⟩ := Parser.peek_eq_ok hpeek
    split at hdone
    next hkind =>
      obtain ⟨rfl, -⟩ := Parser.pure_eq_ok.mp hdone
      exact ⟨s₂, hexpr, hkind, hahead⟩
    next => cases hdone

/-- The tokens that are read up to the end are all that there are. -/
theorem ofSource_of_reads {source : String} {ts : List Token} {s : Stream}
    (hreads : (Stream.ofSource source).Reads ts s) (hkind : s.front.kind = .eof)
    (hahead : s.ahead = [] ∨ ∃ rest, s.ahead = .ok s.front :: rest) :
    Stream.ofSource source = .of (Stream.ofSource source).eof ts := by
  rcases hahead with hahead | ⟨rest, hahead⟩
  · have := hreads.ahead
    rw [hahead, List.append_nil] at this
    rw [Stream.of, ← this]
  · have hmem : .ok s.front ∈ (Stream.ofSource source).ahead := by
      rw [hreads.ahead, hahead]
      simp
    have hproper := ofSource_proper hmem
    simp [Symbol.Proper, hkind] at hproper

/-- A text that parses has a greedy derivation, and that derivation's tree. -/
theorem derivation_of_parse {source : String} {e : Expr} (h : parse source = .ok e) :
    ∃ (ts : List Token) (eof : Token) (d : Derivation .sequence),
      Stream.ofSource source = .of eof ts ∧
      ts.map Token.symbol = d.yield ∧ d.Greedy ∧ e.unplace = d.tree := by
  obtain ⟨s, hexpr, hkind, hahead⟩ := expression_of_parse h
  obtain ⟨ts, d, hreads, hyield, htree, hgreedy, -⟩ :=
    (Parser.parsesAt _).sequence (ofSource_eof source) hexpr
  exact ⟨ts, _, d, ofSource_of_reads hreads hkind hahead, hyield, hgreedy, htree⟩

/-- A text with a greedy derivation parses, to the tree of the derivation. -/
theorem parse_of_derivation {source : String} {ts : List Token} {eof : Token}
    {d : Derivation .sequence} (hsource : Stream.ofSource source = .of eof ts)
    (hyield : ts.map Token.symbol = d.yield) (hd : d.Greedy) :
    ∃ e, parse source = .ok e ∧ e.unplace = d.tree := by
  have hend : eof.kind = .eof := by simpa [hsource, Stream.of] using ofSource_eof source
  have hdepth : 6 * ts.length ≤ Parser.depthFor (.of eof ts) := by
    simp only [Parser.depthFor, Stream.of, List.length_map]
    omega
  obtain ⟨e, hread, htree⟩ := Parser.readBack d hd ts [] eof _ hyield hdepth
    (by simp only [Parser.following, List.headD_nil, hend]; exact ⟨⟨rfl, rfl⟩, by decide⟩)
  rw [List.append_nil] at hread
  refine ⟨e, ?_, htree⟩
  have hexpr : Parser.expression (.of eof ts) = .ok e (.of eof []) := hread
  have hwhole : Parser.whole (.of eof ts) = .ok e (.of eof []) := by
    rw [Parser.whole, Parser.bind_ok hexpr, Parser.bind_ok (Parser.peek_of eof []), List.headD_nil,
      if_pos hend]
    rfl
  rw [parse, hsource, hwhole]

/-- The parser accepts exactly the texts of the grammar. The tree that it gives, apart from the
places, is that of the derivation in which every `let` reaches as far to the right as in any
derivation; there is one, and whichever one takes, its tree is that. -/
theorem parse_ok_iff_derivable {source : String} {tokens : List Token}
    (h : tokenize source = .ok tokens) :
    ((∃ e, parse source = .ok e) ↔
      ∃ d : Derivation .sequence, tokens.map Token.symbol = d.yield ++ [.of .eof]) ∧
    ∀ e, parse source = .ok e →
      (∃ d : Derivation .sequence, tokens.map Token.symbol = d.yield ++ [.of .eof] ∧ d.Rightmost) ∧
      ∀ d : Derivation .sequence, tokens.map Token.symbol = d.yield ++ [.of .eof] → d.Rightmost →
        d.tree = e.unplace := by
  obtain ⟨ts, eof, rfl, hsource⟩ := ofSource_of_tokenize h
  have heof : eof.kind = .eof := by simpa [hsource, Stream.of] using ofSource_eof source
  have hend : eof.symbol = .of .eof := Token.symbol_of_kind heof (by decide) (by decide)
  have htokens (d : Derivation .sequence) :
      (ts ++ [eof]).map Token.symbol = d.yield ++ [.of .eof] ↔ ts.map Token.symbol = d.yield := by
    rw [List.map_append, List.map_singleton, hend, List.append_cancel_right_eq]
  have hderived : ∀ e, parse source = .ok e →
      ∃ d : Derivation .sequence, ts.map Token.symbol = d.yield ∧ d.Greedy := by
    intro e he
    obtain ⟨ts', eof', d, hsource', hyield, hgreedy, -⟩ := derivation_of_parse he
    obtain rfl := Stream.of_inj (hsource.symm.trans hsource')
    exact ⟨d, hyield, hgreedy⟩
  simp only [htokens, Derivation.rightmost_iff_greedy]
  refine ⟨⟨fun ⟨e, he⟩ => ?_, fun ⟨d, hd⟩ => ?_⟩, fun e he =>
    ⟨hderived e he, fun d hd hgreedy => ?_⟩⟩
  · obtain ⟨d, hyield, -⟩ := hderived e he
    exact ⟨d, hyield⟩
  -- The parser finds the greedy derivation of these tokens, which need not be `d`.
  · obtain ⟨g, hg, hyield⟩ := d.exists_greedy
    obtain ⟨e, he, -⟩ := parse_of_derivation hsource (hd.trans hyield.symm) hg
    exact ⟨e, he⟩
  · obtain ⟨e', he', htree⟩ := parse_of_derivation hsource hd hgreedy
    rw [he] at he'
    rw [← htree, Except.ok.inj he']

/-- The text `1 + let x = 2 in x + 3 < 4`, read with all behind `in` as the body. -/
def letInSum : Derivation .sequence :=
  let number (lexeme : String) : Derivation .operand := .atom (.number lexeme)
  let body : Derivation .comparison :=
    .compare .lt (.inr rfl) (.sum (.add .add (.inl rfl) (.operand (.atom (.name "x"))) (number "3")))
      (.operand (number "4"))
  .last (.sum (.add .add (.inl rfl) (.operand (number "1"))
    (.letIn "x" (.sum (.operand (number "2"))) body)))

theorem parse_ok_iff_derivable_letInSum :
    letInSum.Rightmost ∧ ∃ tokens e, tokenize "1 + let x = 2 in x + 3 < 4" = .ok tokens ∧
      tokens.map Token.symbol = letInSum.yield ++ [.of .eof] ∧
      parse "1 + let x = 2 in x + 3 < 4" = .ok e ∧ letInSum.tree = e.unplace := by
  have hsymbols : (tokenize "1 + let x = 2 in x + 3 < 4").toOption.map (List.map Token.symbol) =
      some (letInSum.yield ++ [.of .eof]) := by cbv
  have hright : letInSum.Rightmost := by
    rw [Derivation.rightmost_iff_greedy]
    simp [letInSum, Derivation.Greedy, Derivation.endsInLet]
  cases h : tokenize "1 + let x = 2 in x + 3 < 4" with
  | error e => simp [h, Except.toOption] at hsymbols
  | ok tokens =>
    simp only [h, Except.toOption, Option.map_some, Option.some.injEq] at hsymbols
    obtain ⟨e, he⟩ := (parse_ok_iff_derivable h).1.mpr ⟨letInSum, hsymbols⟩
    exact ⟨hright, tokens, e, rfl, hsymbols, he,
      ((parse_ok_iff_derivable h).2 e he).2 letInSum hsymbols hright⟩

end LetStack
