import LetStack.Proofs.Grammar

namespace LetStack

namespace Stream

def front (s : Stream) : Token :=
  match s.ahead with
  | .ok t :: _ => t
  | _ => s.eof

structure Reads (s : Stream) (ts : List Token) (s' : Stream) : Prop where
  ahead : s.ahead = ts.map .ok ++ s'.ahead
  eof : s'.eof = s.eof

namespace Reads

theorem trans {s s' s'' : Stream} {ts us : List Token} (h : Reads s ts s') (h' : Reads s' us s'') :
    Reads s (ts ++ us) s'' :=
  ⟨by rw [h.ahead, h'.ahead, List.map_append, List.append_assoc], h'.eof.trans h.eof⟩

theorem atEnd {s s' : Stream} {ts : List Token} (h : Reads s ts s') (heof : s.eof.kind = .eof) :
    s'.eof.kind = .eof := by
  rw [h.eof, heof]

end Reads

end Stream

namespace Parser

section

variable {α β : Type} {s s' : Stream} {t : Token}

theorem bind_eq_ok {p : Parser α} {k : α → Parser β} {b : β} :
    (p >>= k) s = .ok b s' ↔ ∃ a s₁, p s = .ok a s₁ ∧ k a s₁ = .ok b s' := by
  simp only [Bind.bind, EStateM.bind]
  rcases p s with ⟨a, s₁⟩ | ⟨e, s₁⟩
  · simp only [EStateM.Result.ok.injEq]
    exact ⟨fun h => ⟨a, s₁, ⟨rfl, rfl⟩, h⟩, fun ⟨_, _, ⟨rfl, rfl⟩, h⟩ => h⟩
  · simp

theorem pure_eq_ok {a b : α} : (pure a : Parser α) s = .ok b s' ↔ a = b ∧ s = s' := by
  simp [Pure.pure, EStateM.pure]

theorem ofScan_eq_ok {step : Stream → Scan × Stream} :
    ofScan step s = .ok t s' ↔ step s = (.ok t, s') := by
  unfold ofScan
  split <;> simp_all

theorem look_eq_ok {eof : Token} {n : Nat} {ahead rest : List Scan}
    (h : Stream.look eof n ahead = (.ok t, rest)) : rest = ahead := by
  fun_induction Stream.look eof n ahead generalizing rest with
  | case1 => cases h; rfl
  | case2 => cases h
  | case3 => cases h; rfl
  | case4 n u ahead scan rest' hlook ih =>
    cases h
    rw [ih hlook]

/-- Looking ahead leaves the stream as it is. -/
theorem peekAt_eq_ok {n : Nat} (h : peekAt n s = .ok t s') : s' = s := by
  have h := ofScan_eq_ok.mp h
  rcases hlook : Stream.look s.eof n s.ahead with ⟨scan, ahead⟩
  simp only [Stream.peek, hlook, Prod.mk.injEq] at h
  obtain ⟨rfl, rfl⟩ := h
  rw [look_eq_ok hlook]

theorem peek_eq_ok (h : peek s = .ok t s') :
    s' = s ∧ t = s.front ∧ (s.ahead = [] ∨ ∃ rest, s.ahead = .ok t :: rest) := by
  refine ⟨peekAt_eq_ok h, ?_⟩
  obtain ⟨ahead, eof⟩ := s
  have h := ofScan_eq_ok.mp h
  match ahead with
  | [] =>
    cases h
    exact ⟨rfl, .inl rfl⟩
  | .error e :: rest => cases h
  | .ok u :: rest =>
    cases h
    exact ⟨rfl, .inr ⟨rest, rfl⟩⟩

/-- A token that is not the end of the text is read. -/
theorem next_eq_ok (h : next s = .ok t s') (hend : s.eof.kind = .eof)
    (hfront : s.front.kind ≠ .eof) :
    t = s.front ∧ s.Reads [t] s' := by
  obtain ⟨ahead, eof⟩ := s
  have h := ofScan_eq_ok.mp h
  match ahead with
  | [] => exact absurd hend hfront
  | .error e :: rest => cases h
  | .ok u :: rest =>
    cases h
    exact ⟨rfl, rfl, rfl⟩

theorem next_pure_eq_ok {a b : α} (h : (next >>= fun _ => pure a) s = .ok b s')
    (hend : s.eof.kind = .eof) (hfront : s.front.kind ≠ .eof) : a = b ∧ s.Reads [s.front] s' := by
  simp only [bind_eq_ok] at h
  obtain ⟨t, s₁, hnext, h⟩ := h
  obtain ⟨rfl, rfl⟩ := pure_eq_ok.mp h
  obtain ⟨rfl, hreads⟩ := next_eq_ok hnext hend hfront
  exact ⟨rfl, hreads⟩

theorem take_eq_ok {kind : Token.Kind} {otherwise : ParseError.Kind}
    (h : take kind otherwise s = .ok t s') (hend : s.eof.kind = .eof) (hkind : kind ≠ .eof) :
    t.kind = kind ∧ s.Reads [t] s' := by
  simp only [take, bind_eq_ok] at h
  obtain ⟨u, s₁, hpeek, h⟩ := h
  obtain ⟨rfl, rfl, -⟩ := peek_eq_ok hpeek
  split at h
  next hu =>
    obtain ⟨rfl, hreads⟩ := next_eq_ok h hend (hu ▸ hkind)
    exact ⟨hu, hreads⟩
  next => cases h

theorem expect_eq_ok {kind : Token.Kind} (h : expect kind s = .ok t s') (hend : s.eof.kind = .eof)
    (hkind : kind ≠ .eof) : t.kind = kind ∧ s.Reads [t] s' :=
  take_eq_ok h hend hkind

theorem identifier_eq_ok {x : Name} (h : identifier s = .ok x s') (hend : s.eof.kind = .eof) :
    ∃ t : Token, t.kind = .ident ∧ x = .plain t.lexeme ∧ s.Reads [t] s' := by
  simp only [identifier, bind_eq_ok] at h
  obtain ⟨t, s₁, ht, h⟩ := h
  obtain ⟨rfl, rfl⟩ := pure_eq_ok.mp h
  obtain ⟨hkind, hreads⟩ := take_eq_ok ht hend (by simp)
  exact ⟨t, hkind, rfl, hreads⟩

theorem type_eq_ok {ty : Ty} (h : type s = .ok ty s') (hend : s.eof.kind = .eof) :
    ∃ t : Token, t.kind = ty.kind ∧ s.Reads [t] s' := by
  simp only [type, bind_eq_ok] at h
  obtain ⟨t, s₁, hpeek, h⟩ := h
  obtain ⟨rfl, rfl, -⟩ := peek_eq_ok hpeek
  cases hty : s₁.front.kind.ty? with
  | none => simp only [hty] at h; cases h
  | some ty' =>
    simp only [hty, bind_eq_ok] at h
    obtain ⟨u, s₂, hnext, h⟩ := h
    obtain ⟨rfl, rfl⟩ := pure_eq_ok.mp h
    have hkind := Ty.kind_of_ty? hty
    have hfront : s₁.front.kind ≠ .eof := by
      rw [hkind]
      cases ty' <;> simp [Ty.kind]
    obtain ⟨rfl, hreads⟩ := next_eq_ok hnext hend hfront
    exact ⟨_, hkind, hreads⟩

end

section

variable {n least : Nat} {s s' : Stream} {e left : Expr}

theorem noExpression_ne_ok : (peek >>= noExpression) s ≠ .ok e s' := by
  intro h
  obtain ⟨_, _, _, h⟩ := bind_eq_ok.mp h
  cases h

theorem sequence_eq_ok (hs : sequence (n + 1) s = .ok e s') :
    ∃ first s₁, term n s = .ok first s₁ ∧ (first = e ∧ s₁ = s' ∨ s₁.front.kind = .comma ∧
      ∃ t s₂ second, next s₁ = .ok t s₂ ∧ sequence n s₂ = .ok second s' ∧
        .seq (.untyped (first.span.merge second.span)) first second = e) := by
  simp only [sequence, bind_eq_ok] at hs
  obtain ⟨first, s₁, hfirst, t, s₂, hpeek, hs⟩ := hs
  obtain ⟨rfl, rfl, -⟩ := peek_eq_ok hpeek
  refine ⟨first, s₂, hfirst, ?_⟩
  split at hs
  next hcomma =>
    simp only [bind_eq_ok] at hs
    obtain ⟨t, s₃, hnext, second, s₄, hsecond, hs⟩ := hs
    obtain ⟨rfl, rfl⟩ := pure_eq_ok.mp hs
    exact .inr ⟨hcomma, t, s₃, second, hnext, hsecond, rfl⟩
  next => exact .inl (pure_eq_ok.mp hs)

theorem term_eq_ok (hs : term (n + 1) s = .ok e s') :
    letForm n s = .ok e s' ∨ operators n 0 s = .ok e s' := by
  simp only [term, bind_eq_ok] at hs
  obtain ⟨t, s₁, hpeek, hs⟩ := hs
  obtain ⟨rfl, rfl, -⟩ := peek_eq_ok hpeek
  split at hs
  · exact .inl hs
  · exact .inr hs

def ReadsBound (n : Nat) (s : Stream) (a b : Expr) (s' : Stream) : Prop :=
  ∃ s₁ t s₂, term n s = .ok a s₁ ∧ expect .inKw s₁ = .ok t s₂ ∧ term n s₂ = .ok b s'

theorem letForm_eq_ok (hend : s.eof.kind = .eof) (hs : letForm (n + 1) s = .ok e s') :
    ∃ start head s₁ a b, s.Reads (start :: head) s₁ ∧ ReadsBound n s₁ a b s' ∧
      ((∃ x, (start :: head).map Token.symbol = Derivation.letHead x ∧
        .letIn (.untyped (start.span.merge b.span)) (.plain x) a b = e) ∨
      ∃ f x paramTy resultTy,
        (start :: head).map Token.symbol = Derivation.letFunHead f x paramTy resultTy ∧
        .letFun (.untyped (start.span.merge b.span)) (.plain f) (.plain x) paramTy
          resultTy a b = e) := by
  simp only [letForm, bind_eq_ok] at hs
  obtain ⟨t, s₁, hlet, name, s₂, hname, u, s₃, hpeek, hs⟩ := hs
  obtain ⟨hlet, hreads₁⟩ := expect_eq_ok hlet hend (by simp)
  have hend₁ := hreads₁.atEnd hend
  obtain ⟨f, hf, rfl, hreads₂⟩ := identifier_eq_ok hname hend₁
  have hend₂ := hreads₂.atEnd hend₁
  obtain ⟨rfl, rfl, -⟩ := peek_eq_ok hpeek
  split at hs
  next =>
    simp only [bind_eq_ok] at hs
    obtain ⟨param, s₄, hparam, tc, s₅, hcolon, paramTy, s₆, hparamTy, ta, s₇, harrow, resultTy, s₈,
      hresultTy, te, s₉, hequal, body, s₁₀, hbody, ti, s₁₁, hin, rest, s₁₂, hrest, hs⟩ := hs
    obtain ⟨rfl, rfl⟩ := pure_eq_ok.mp hs
    obtain ⟨x, hx, rfl, hreads₄⟩ := identifier_eq_ok hparam hend₂
    have hend₄ := hreads₄.atEnd hend₂
    obtain ⟨hcolon, hreads₅⟩ := expect_eq_ok hcolon hend₄ (by simp)
    have hend₅ := hreads₅.atEnd hend₄
    obtain ⟨p, hp, hreads₆⟩ := type_eq_ok hparamTy hend₅
    have hend₆ := hreads₆.atEnd hend₅
    obtain ⟨harrow, hreads₇⟩ := expect_eq_ok harrow hend₆ (by simp)
    have hend₇ := hreads₇.atEnd hend₆
    obtain ⟨r, hr, hreads₈⟩ := type_eq_ok hresultTy hend₇
    obtain ⟨hequal, hreads₉⟩ := expect_eq_ok hequal (hreads₈.atEnd hend₇) (by simp)
    refine ⟨t, _, s₉, body, rest, hreads₁.trans (hreads₂.trans (hreads₄.trans (hreads₅.trans
      (hreads₆.trans (hreads₇.trans (hreads₈.trans hreads₉)))))), ⟨s₁₀, ti, s₁₁, hbody, hin, hrest⟩,
      .inr ⟨f.lexeme, x.lexeme, paramTy, resultTy, ?_, rfl⟩⟩
    simp [Token.symbol_of_kind hlet, Token.symbol_ident hf, Token.symbol_ident hx,
      Token.symbol_of_kind hcolon, Token.symbol_type hp, Token.symbol_of_kind harrow,
      Token.symbol_type hr, Token.symbol_of_kind hequal, Derivation.letFunHead]
  next =>
    simp only [bind_eq_ok] at hs
    obtain ⟨te, s₄, hequal, value, s₅, hvalue, ti, s₆, hin, body, s₇, hbody, hs⟩ := hs
    obtain ⟨rfl, rfl⟩ := pure_eq_ok.mp hs
    obtain ⟨hequal, hreads₄⟩ := expect_eq_ok hequal hend₂ (by simp)
    refine ⟨t, _, s₄, value, body, hreads₁.trans (hreads₂.trans hreads₄),
      ⟨s₅, ti, s₆, hvalue, hin, hbody⟩, .inl ⟨f.lexeme, ?_, rfl⟩⟩
    simp [Token.symbol_of_kind hlet, Token.symbol_ident hf, Token.symbol_of_kind hequal,
      Derivation.letHead]

theorem extend_eq_ok (hs : extend (n + 1) least left s = .ok e s') :
    (left = e ∧ s = s' ∧ ∀ op, s.front.kind.binOp? = some op → op.bindingPower.1 < least) ∨
    ∃ op t s₁ right s₂, s.front.kind.binOp? = some op ∧ least ≤ op.bindingPower.1 ∧
      next s = .ok t s₁ ∧ operators n op.bindingPower.2 s₁ = .ok right s₂ ∧
      extend n least (.binary (.untyped (left.span.merge right.span)) op left right) s₂ =
        .ok e s' := by
  simp only [extend, bind_eq_ok] at hs
  obtain ⟨t, s₁, hpeek, hs⟩ := hs
  obtain ⟨rfl, rfl, -⟩ := peek_eq_ok hpeek
  cases hop : s₁.front.kind.binOp? with
  | none =>
    simp only [hop] at hs
    obtain ⟨rfl, rfl⟩ := pure_eq_ok.mp hs
    exact .inl ⟨rfl, rfl, by simp⟩
  | some op =>
    simp only [hop] at hs
    split at hs
    next hloose =>
      obtain ⟨rfl, rfl⟩ := pure_eq_ok.mp hs
      exact .inl ⟨rfl, rfl, by simpa using hloose⟩
    next htight =>
      simp only [bind_eq_ok] at hs
      obtain ⟨t, s₂, hnext, right, s₃, hright, hs⟩ := hs
      exact .inr ⟨op, t, s₂, right, s₃, rfl, Nat.le_of_not_lt htight, hnext, hright, hs⟩

theorem operand_eq_ok (hend : s.eof.kind = .eof) (hs : operand (n + 1) s = .ok e s') :
    letForm n s = .ok e s' ∨ atom n s = .ok e s' ∨ ∃ t s₁ arg, t.kind = .ident ∧ s.Reads [t] s₁ ∧
      atom n s₁ = .ok arg s' ∧
      .apply (.untyped (t.span.merge arg.span)) (.plain t.lexeme) arg = e := by
  simp only [operand, bind_eq_ok] at hs
  obtain ⟨t, s₁, hpeek, hs⟩ := hs
  obtain ⟨rfl, rfl, -⟩ := peek_eq_ok hpeek
  cases hkind : s₁.front.kind with
  | letKw =>
    simp only [hkind] at hs
    exact .inl hs
  | ident =>
    simp only [hkind, bind_eq_ok] at hs
    obtain ⟨u, s₂, hpeek, hs⟩ := hs
    obtain rfl := peekAt_eq_ok hpeek
    split at hs
    next =>
      simp only [bind_eq_ok] at hs
      obtain ⟨t, s₃, hnext, arg, s₄, harg, hs⟩ := hs
      obtain ⟨rfl, rfl⟩ := pure_eq_ok.mp hs
      obtain ⟨rfl, hreads⟩ := next_eq_ok hnext hend (by simp [hkind])
      exact .inr (.inr ⟨_, s₃, arg, hkind, hreads, harg, rfl⟩)
    next => exact .inr (.inl hs)
  | _ =>
    simp only [hkind] at hs
    exact .inr (.inl hs)

inductive Leaf (t : Token) : Expr → Prop
  | number (h : t.kind = .number) :
      Leaf t (.num (.untyped t.span) (Int32.ofNat (Text.decimal t.lexeme.toList)))
  | bool (b : Bool) (h : t.kind = if b then .trueLit else .falseLit) :
    Leaf t (.bool (.untyped t.span) b)
  | name (h : t.kind = .ident) : Leaf t (.var (.untyped t.span) (.plain t.lexeme))

theorem atom_eq_ok (hend : s.eof.kind = .eof) (hs : atom (n + 1) s = .ok e s') :
    (∃ t, s.Reads [t] s' ∧ Leaf t e) ∨
    ∃ t s₁ s₂ t', t.kind = .leftParen ∧ s.Reads [t] s₁ ∧ sequence n s₁ = .ok e s₂ ∧
      expect .rightParen s₂ = .ok t' s' := by
  simp only [atom, bind_eq_ok] at hs
  obtain ⟨t, s₁, hpeek, hs⟩ := hs
  obtain ⟨rfl, rfl, -⟩ := peek_eq_ok hpeek
  cases hkind : s₁.front.kind with
  | number =>
    simp only [hkind] at hs
    obtain ⟨rfl, hreads⟩ := next_pure_eq_ok hs hend (by simp [hkind])
    exact .inl ⟨_, hreads, .number hkind⟩
  | trueLit =>
    simp only [hkind] at hs
    obtain ⟨rfl, hreads⟩ := next_pure_eq_ok hs hend (by simp [hkind])
    exact .inl ⟨_, hreads, .bool true hkind⟩
  | falseLit =>
    simp only [hkind] at hs
    obtain ⟨rfl, hreads⟩ := next_pure_eq_ok hs hend (by simp [hkind])
    exact .inl ⟨_, hreads, .bool false hkind⟩
  | ident =>
    simp only [hkind] at hs
    obtain ⟨rfl, hreads⟩ := next_pure_eq_ok hs hend (by simp [hkind])
    exact .inl ⟨_, hreads, .name hkind⟩
  | leftParen =>
    simp only [hkind, bind_eq_ok] at hs
    obtain ⟨t, s₂, hnext, inner, s₃, hinner, t', s₄, hexpect, hs⟩ := hs
    obtain ⟨rfl, rfl⟩ := pure_eq_ok.mp hs
    obtain ⟨rfl, hreads⟩ := next_eq_ok hnext hend (by simp [hkind])
    exact .inr ⟨_, s₂, s₃, t', hkind, hreads, hinner, hexpect⟩
  | _ =>
    simp only [hkind] at hs
    cases hs

end

/-- Between two streams the parser has read a tree of category `c`. Behind a `let` no operator is
left. -/
def Parsed (c : Category) (s : Stream) (e : Expr) (s' : Stream) : Prop :=
  ∃ (ts : List Token) (d : Derivation c), s.Reads ts s' ∧ ts.map Token.symbol = d.yield ∧
    e.unplace = d.tree ∧ d.Greedy ∧ (d.endsInLet = true → s'.front.kind.binOp? = none)

namespace Parsed

variable {s s' s'' : Stream} {e : Expr}

theorem atEnd {c : Category} (h : Parsed c s e s') (hend : s.eof.kind = .eof) :
    s'.eof.kind = .eof := by
  obtain ⟨ts, -, hreads, -⟩ := h
  exact hreads.atEnd hend

theorem last (h : Parsed .comparison s e s') : Parsed .sequence s e s' := by
  obtain ⟨ts, d, h⟩ := h
  exact ⟨ts, .last d, h⟩

theorem sum (h : Parsed .sum s e s') : Parsed .comparison s e s' := by
  obtain ⟨ts, d, h⟩ := h
  exact ⟨ts, .sum d, h⟩

theorem operand (h : Parsed .operand s e s') : Parsed .sum s e s' := by
  obtain ⟨ts, d, h⟩ := h
  exact ⟨ts, .operand d, h⟩

theorem atom (h : Parsed .atom s e s') : Parsed .operand s e s' := by
  obtain ⟨ts, d, h⟩ := h
  exact ⟨ts, .atom d, h⟩

section

variable {s₀ s₁ s₂ : Stream} {a b : Expr} {t : Token} {op : BinOp}

/-- Two parts with a token between them. -/
theorem parts {c c' : Category} (ha : Parsed c s a s₁) (ht : s₁.Reads [t] s₂)
    (hb : Parsed c' s₂ b s') :
    ∃ (ts : List Token) (d : Derivation c) (d' : Derivation c'), s.Reads ts s' ∧
      ts.map Token.symbol = d.yield ++ t.symbol :: d'.yield ∧
      (a.unplace = d.tree ∧ b.unplace = d'.tree) ∧ (d.Greedy ∧ d'.Greedy) ∧
      (d.endsInLet = true → s₁.front.kind.binOp? = none) ∧
      (d'.endsInLet = true → s'.front.kind.binOp? = none) := by
  obtain ⟨ts, d, hreads, hyield, htree, hgreedy, hlet⟩ := ha
  obtain ⟨ts', d', hreads', hyield', htree', hgreedy', hlet'⟩ := hb
  exact ⟨ts ++ t :: ts', d, d', hreads.trans (ht.trans hreads'), by simp [hyield, hyield'],
    ⟨htree, htree'⟩, ⟨hgreedy, hgreedy'⟩, hlet, hlet'⟩

theorem comma (ha : Parsed .comparison s a s₁) (ht : s₁.Reads [t] s₂) (hkind : t.kind = .comma)
    (hb : Parsed .sequence s₂ b s') (i : Span) :
    Parsed .sequence s (.seq (.untyped i) a b) s' := by
  obtain ⟨ts, d, d', hreads, hyield, ⟨htree, htree'⟩, hgreedy, -, hlet⟩ := parts ha ht hb
  refine ⟨ts, .comma d d', hreads, ?_, ?_, hgreedy, hlet⟩
  · rw [hyield, Token.symbol_of_kind hkind (by simp) (by simp), Derivation.yield]
  · rw [Derivation.tree, ← htree, ← htree']
    rfl

/-- Where an operator follows, what stands in front of it does not end in a `let`. -/
theorem closed {c : Category} {d : Derivation c}
    (hlet : d.endsInLet = true → s₁.front.kind.binOp? = none)
    (hop : s₁.front.kind.binOp? = some op) : d.endsInLet = false := by
  cases h : d.endsInLet with
  | false => rfl
  | true => rw [hlet h] at hop; cases hop

theorem compare (ha : Parsed .comparison s a s₁) (hop : s₁.front.kind.binOp? = some op)
    (ht : s₁.Reads [s₁.front] s₂) (hcompare : op = .eq ∨ op = .lt) (hb : Parsed .sum s₂ b s')
    (i : Span) : Parsed .comparison s (.binary (.untyped i) op a b) s' := by
  obtain ⟨ts, d, d', hreads, hyield, ⟨htree, htree'⟩, ⟨hd, hd'⟩, hleft, hlet⟩ := parts ha ht hb
  refine ⟨ts, .compare op hcompare d d', hreads, ?_, ?_, ⟨hd, closed hleft hop, hd'⟩, hlet⟩
  · rw [hyield, Token.symbol_operator (BinOp.kind_of_binOp? hop), Derivation.yield]
  · rw [Derivation.tree, ← htree, ← htree']
    rfl

theorem add (ha : Parsed .sum s a s₁) (hop : s₁.front.kind.binOp? = some op)
    (ht : s₁.Reads [s₁.front] s₂) (hadd : op = .add ∨ op = .sub) (hb : Parsed .operand s₂ b s')
    (i : Span) : Parsed .sum s (.binary (.untyped i) op a b) s' := by
  obtain ⟨ts, d, d', hreads, hyield, ⟨htree, htree'⟩, ⟨hd, hd'⟩, hleft, hlet⟩ := parts ha ht hb
  refine ⟨ts, .add op hadd d d', hreads, ?_, ?_, ⟨hd, closed hleft hop, hd'⟩, hlet⟩
  · rw [hyield, Token.symbol_operator (BinOp.kind_of_binOp? hop), Derivation.yield]
  · rw [Derivation.tree, ← htree, ← htree']
    rfl

theorem letIn {x : String} {head : List Token} (hhead : s.Reads head s₀)
    (hsymbols : head.map Token.symbol = Derivation.letHead x) (ha : Parsed .comparison s₀ a s₁)
    (ht : s₁.Reads [t] s₂) (hkind : t.kind = .inKw) (hb : Parsed .comparison s₂ b s')
    (hstop : s'.front.kind.binOp? = none) (i : Span) :
    Parsed .operand s (.letIn (.untyped i) (.plain x) a b) s' := by
  obtain ⟨ts, d, d', hreads, hyield, ⟨htree, htree'⟩, hgreedy, -⟩ := parts ha ht hb
  refine ⟨head ++ ts, .letIn x d d', hhead.trans hreads, ?_, ?_, hgreedy, fun _ => hstop⟩
  · rw [List.map_append, hsymbols, hyield, Token.symbol_of_kind hkind (by simp) (by simp),
      Derivation.yield]
  · rw [Derivation.tree, ← htree, ← htree']
    rfl

theorem letFun {f x : String} {paramTy resultTy : Ty} {head : List Token} (hhead : s.Reads head s₀)
    (hsymbols : head.map Token.symbol = Derivation.letFunHead f x paramTy resultTy)
    (ha : Parsed .comparison s₀ a s₁) (ht : s₁.Reads [t] s₂) (hkind : t.kind = .inKw)
    (hb : Parsed .comparison s₂ b s') (hstop : s'.front.kind.binOp? = none) (i : Span) :
    Parsed .operand s (.letFun (.untyped i) (.plain f) (.plain x) paramTy resultTy a b) s' := by
  obtain ⟨ts, d, d', hreads, hyield, ⟨htree, htree'⟩, hgreedy, -⟩ := parts ha ht hb
  refine ⟨head ++ ts, .letFun f x paramTy resultTy d d', hhead.trans hreads, ?_, ?_, hgreedy,
    fun _ => hstop⟩
  · rw [List.map_append, hsymbols, hyield, Token.symbol_of_kind hkind (by simp) (by simp),
      Derivation.yield]
  · rw [Derivation.tree, ← htree, ← htree']
    rfl

theorem call (ht : s.Reads [t] s₁) (hkind : t.kind = .ident) (ha : Parsed .atom s₁ a s') (i : Span) :
    Parsed .operand s (.apply (.untyped i) (.plain t.lexeme) a) s' := by
  obtain ⟨ts, d, hreads, hyield, htree, hgreedy, hlet⟩ := ha
  refine ⟨t :: ts, .call t.lexeme d, ht.trans hreads, ?_, ?_, hgreedy, hlet⟩
  · simp [hyield, Token.symbol_ident hkind, Derivation.yield]
  · rw [Derivation.tree, ← htree]
    rfl

theorem paren {t' : Token} (ht : s.Reads [t] s₁) (hkind : t.kind = .leftParen)
    (ha : Parsed .sequence s₁ a s₂) (ht' : s₂.Reads [t'] s') (hkind' : t'.kind = .rightParen) :
    Parsed .atom s a s' := by
  obtain ⟨ts, d, hreads, hyield, htree, hgreedy, -⟩ := ha
  refine ⟨t :: (ts ++ [t']), .paren d, ht.trans (hreads.trans ht'), ?_, htree, hgreedy, ?_⟩
  · simp [hyield, Token.symbol_of_kind hkind, Token.symbol_of_kind hkind', Derivation.yield]
  · simp [Derivation.endsInLet]

/-- An atom of one token. -/
theorem one (d : Derivation .atom) (ht : s.Reads [t] s') (hsymbol : [t.symbol] = d.yield)
    (htree : a.unplace = d.tree) (hgreedy : d.Greedy) : Parsed .atom s a s' :=
  ⟨[t], d, ht, hsymbol, htree, hgreedy, by simp [Derivation.atom_endsInLet]⟩

end

end Parsed

/-- A chain of operators that bind at least as tightly as `least`, as far as it has been read: a
sum, or a comparison behind which no sum goes on. -/
inductive Chain (least : Nat) (s : Stream) (e : Expr) (s' : Stream) : Prop
  | sum (h : Parsed .sum s e s')
  | comparison (h : Parsed .comparison s e s') (hleast : least ≤ 4)
      (hop : ∀ op, s'.front.kind.binOp? = some op → op = .eq ∨ op = .lt)

theorem Chain.parsed {least : Nat} {s s' : Stream} {e : Expr} (h : Chain least s e s') :
    Parsed .comparison s e s' := by
  cases h with
  | sum h => exact h.sum
  | comparison h => exact h

theorem extend_seven {n : Nat} {s s' : Stream} {e left : Expr} (h : extend n 7 left s = .ok e s') :
    left = e ∧ s = s' := by
  cases n with
  | zero => exact absurd h noExpression_ne_ok
  | succ n =>
    rcases extend_eq_ok h with ⟨rfl, rfl, -⟩ | ⟨op, -, -, -, -, -, htight, -⟩
    · exact ⟨rfl, rfl⟩
    · have hloose : op.bindingPower.1 < 7 := by cases op <;> decide
      omega

structure ParsesAt (n : Nat) : Prop where
  sequence : ∀ {s e s'}, s.eof.kind = .eof → sequence n s = .ok e s' → Parsed .sequence s e s'
  term : ∀ {s e s'}, s.eof.kind = .eof → term n s = .ok e s' →
    Parsed .comparison s e s' ∧ s'.front.kind.binOp? = none
  letForm : ∀ {s e s'}, s.eof.kind = .eof → letForm n s = .ok e s' →
    Parsed .operand s e s' ∧ s'.front.kind.binOp? = none
  comparison : ∀ {s e s'}, s.eof.kind = .eof → operators n 0 s = .ok e s' →
    Parsed .comparison s e s' ∧ s'.front.kind.binOp? = none
  sum : ∀ {s e s'}, s.eof.kind = .eof → operators n 5 s = .ok e s' →
    Parsed .sum s e s' ∧ ∀ op, s'.front.kind.binOp? = some op → op = .eq ∨ op = .lt
  single : ∀ {s e s'}, s.eof.kind = .eof → operators n 7 s = .ok e s' → Parsed .operand s e s'
  extend : ∀ {s₀ s e s' least left}, s₀.eof.kind = .eof → Chain least s₀ left s →
    extend n least left s = .ok e s' → Chain least s₀ e s' ∧
      ∀ op, s'.front.kind.binOp? = some op → op.bindingPower.1 < least
  operand : ∀ {s e s'}, s.eof.kind = .eof → operand n s = .ok e s' → Parsed .operand s e s'
  atom : ∀ {s e s'}, s.eof.kind = .eof → atom n s = .ok e s' → Parsed .atom s e s'

section

variable {n : Nat} (h : ParsesAt n) {s s' : Stream} {e : Expr}

include h

theorem sequence_parsed (hend : s.eof.kind = .eof) (hs : sequence (n + 1) s = .ok e s') :
    Parsed .sequence s e s' := by
  obtain ⟨first, s₁, hfirst, hs⟩ := sequence_eq_ok hs
  obtain ⟨hparsed, -⟩ := h.term hend hfirst
  rcases hs with ⟨rfl, rfl⟩ | ⟨hcomma, t, s₂, second, hnext, hsecond, rfl⟩
  · exact hparsed.last
  · have hend₁ := hparsed.atEnd hend
    obtain ⟨rfl, hreads⟩ := next_eq_ok hnext hend₁ (by simp [hcomma])
    exact hparsed.comma hreads hcomma (h.sequence (hreads.atEnd hend₁) hsecond) _

theorem bound_parsed {a b : Expr} (hend : s.eof.kind = .eof) (hs : ReadsBound n s a b s') :
    ∃ s₁ t s₂, Parsed .comparison s a s₁ ∧ (t.kind = .inKw ∧ s₁.Reads [t] s₂) ∧
      Parsed .comparison s₂ b s' ∧ s'.front.kind.binOp? = none := by
  obtain ⟨s₁, t, s₂, ha, ht, hb⟩ := hs
  obtain ⟨hparsed, -⟩ := h.term hend ha
  obtain ⟨hkind, hreads⟩ := expect_eq_ok ht (hparsed.atEnd hend) (by simp)
  exact ⟨s₁, t, s₂, hparsed, ⟨hkind, hreads⟩, h.term (hreads.atEnd (hparsed.atEnd hend)) hb⟩

theorem letForm_parsed (hend : s.eof.kind = .eof) (hs : letForm (n + 1) s = .ok e s') :
    Parsed .operand s e s' ∧ s'.front.kind.binOp? = none := by
  obtain ⟨start, head, s₀, a, b, hhead, hbound, hform⟩ := letForm_eq_ok hend hs
  obtain ⟨s₁, t, s₂, ha, ⟨hkind, hreads⟩, hb, hstop⟩ := bound_parsed h (hhead.atEnd hend) hbound
  rcases hform with ⟨x, hsymbols, rfl⟩ | ⟨f, x, paramTy, resultTy, hsymbols, rfl⟩
  · exact ⟨.letIn hhead hsymbols ha hreads hkind hb hstop _, hstop⟩
  · exact ⟨.letFun hhead hsymbols ha hreads hkind hb hstop _, hstop⟩

theorem atom_parsed (hend : s.eof.kind = .eof) (hs : atom (n + 1) s = .ok e s') :
    Parsed .atom s e s' := by
  rcases atom_eq_ok hend hs with ⟨t, hreads, hleaf⟩ | ⟨t, s₁, s₂, t', hkind, hreads, hinner, hexpect⟩
  · cases hleaf with
    | number hkind =>
      exact .one (.number t.lexeme) hreads
        (by simp [Token.symbol_number hkind, Derivation.yield]) rfl
        trivial
    | bool b hkind =>
      refine .one (.bool b) hreads ?_ rfl trivial
      rw [Token.symbol_of_kind hkind (by cases b <;> simp) (by cases b <;> simp), Derivation.yield]
    | name hkind =>
      exact .one (.name t.lexeme) hreads (by simp [Token.symbol_ident hkind, Derivation.yield]) rfl
        trivial
  · have hparsed := h.sequence (hreads.atEnd hend) hinner
    obtain ⟨hkind', hreads'⟩ := expect_eq_ok hexpect (hparsed.atEnd (hreads.atEnd hend)) (by simp)
    exact hparsed.paren hreads hkind hreads' hkind'

theorem operand_parsed (hend : s.eof.kind = .eof) (hs : operand (n + 1) s = .ok e s') :
    Parsed .operand s e s' := by
  rcases operand_eq_ok hend hs with hs | hs | ⟨t, s₁, arg, hkind, hreads, harg, rfl⟩
  · exact (h.letForm hend hs).1
  · exact (h.atom hend hs).atom
  · exact .call hreads hkind (h.atom (hreads.atEnd hend) harg) _

theorem extend_parsed {least : Nat} {left : Expr} {s₀ : Stream} (hend : s₀.eof.kind = .eof)
    (hleft : Chain least s₀ left s) (hs : extend (n + 1) least left s = .ok e s') :
    Chain least s₀ e s' ∧ ∀ op, s'.front.kind.binOp? = some op → op.bindingPower.1 < least := by
  have hend' := hleft.parsed.atEnd hend
  rcases extend_eq_ok hs with ⟨rfl, rfl, hstop⟩ |
    ⟨op, t, s₂, right, s₃, hop, htight, hnext, hright, hs⟩
  · exact ⟨hleft, hstop⟩
  · have hfront : s.front.kind ≠ .eof := by
      intro heof
      simp [heof, Token.Kind.binOp?] at hop
    obtain ⟨rfl, hreads⟩ := next_eq_ok hnext hend' hfront
    have hend₂ := hreads.atEnd hend'
    -- what follows a comparison's right side is no sum, and a sum's right side is one operand
    rcases op.compares_or_adds with hcompare | hadd
    · have hpower : op.bindingPower = (4, 5) := by rcases hcompare with rfl | rfl <;> rfl
      simp only [hpower] at htight hright
      obtain ⟨hsum, hrest⟩ := h.sum hend₂ hright
      exact h.extend hend (.comparison (hleft.parsed.compare hop hreads hcompare hsum _)
        (by omega) hrest) hs
    · have hpower : op.bindingPower = (6, 7) := by rcases hadd with rfl | rfl <;> rfl
      simp only [hpower] at hright
      have hsum : Parsed .sum s₀ left s := by
        cases hleft with
        | sum hsum => exact hsum
        | comparison _ _ hops =>
          rcases hops op hop with rfl | rfl <;> simp at hadd
      exact h.extend hend (.sum (hsum.add hop hreads hadd (h.single hend₂ hright) _)) hs

theorem operators_parsed {least : Nat} (hend : s.eof.kind = .eof)
    (hs : operators (n + 1) least s = .ok e s') :
    Chain least s e s' ∧ ∀ op, s'.front.kind.binOp? = some op → op.bindingPower.1 < least := by
  simp only [operators, bind_eq_ok] at hs
  obtain ⟨left, s₁, hleft, hs⟩ := hs
  exact h.extend hend (.sum (h.operand hend hleft).operand) hs

theorem comparison_parsed (hend : s.eof.kind = .eof) (hs : operators (n + 1) 0 s = .ok e s') :
    Parsed .comparison s e s' ∧ s'.front.kind.binOp? = none := by
  obtain ⟨hchain, hstop⟩ := operators_parsed h hend hs
  refine ⟨hchain.parsed, ?_⟩
  cases hop : s'.front.kind.binOp? with
  | none => rfl
  | some op => exact absurd (hstop op hop) (Nat.not_lt_zero _)

theorem sum_parsed (hend : s.eof.kind = .eof) (hs : operators (n + 1) 5 s = .ok e s') :
    Parsed .sum s e s' ∧ ∀ op, s'.front.kind.binOp? = some op → op = .eq ∨ op = .lt := by
  obtain ⟨hchain, hstop⟩ := operators_parsed h hend hs
  constructor
  · cases hchain with
    | sum hsum => exact hsum
    | comparison _ hleast => omega
  · intro op hop
    have hpower := hstop op hop
    cases op <;> simp [BinOp.bindingPower, BinOp.precedence] at hpower ⊢

/-- No operator binds so tightly that it could follow the right side of a sum. -/
theorem single_parsed (hend : s.eof.kind = .eof) (hs : operators (n + 1) 7 s = .ok e s') :
    Parsed .operand s e s' := by
  simp only [operators, bind_eq_ok] at hs
  obtain ⟨left, s₁, hleft, hs⟩ := hs
  obtain ⟨rfl, rfl⟩ := extend_seven hs
  exact h.operand hend hleft

theorem parsesAt_succ : ParsesAt (n + 1) where
  sequence := sequence_parsed h
  term := by
    intro s e s' hend hs
    rcases term_eq_ok hs with hs | hs
    · obtain ⟨hparsed, hstop⟩ := h.letForm hend hs
      exact ⟨hparsed.operand.sum, hstop⟩
    · exact h.comparison hend hs
  letForm := letForm_parsed h
  comparison := comparison_parsed h
  sum := sum_parsed h
  single := single_parsed h
  extend := extend_parsed h
  operand := operand_parsed h
  atom := atom_parsed h

end

theorem parsesAt (n : Nat) : ParsesAt n := by
  induction n with
  | zero =>
    constructor <;> intros <;> exact absurd ‹_› noExpression_ne_ok
  | succ n ih => exact parsesAt_succ ih

end Parser

end LetStack
