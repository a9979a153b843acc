import LetStack.Proofs.TokenLayout

namespace LetStack

theorem Span.merge_start {s t : Span} (h : s.line = t.line → s.col ≤ t.col) :
    (s.merge t).line = s.line ∧ (s.merge t).col = s.col := by
  unfold merge
  split
  next hline => exact ⟨rfl, Nat.min_eq_left (h hline)⟩
  next => exact ⟨rfl, rfl⟩

theorem Span.merge_stop {s t : Span} (h : s.line = t.line) :
    (s.merge t).stop = max s.stop t.stop := by
  rw [merge, if_pos h]
  simp only [stop]
  omega

/-- The span starts with the first token that is no opening parenthesis. If all tokens are on one
line, it ends with the last token that is no closing one. -/
structure Covers (text : List Token) (span : Span) : Prop where
  start : ∃ t, text.find? (·.kind ≠ .leftParen) = some t ∧ span.line = t.span.line ∧
    span.col = t.span.col
  stop : (∃ line, ∀ t ∈ text, t.span.line = line) →
    ∃ t, text.reverse.find? (·.kind ≠ .rightParen) = some t ∧ span.stop = t.span.stop

namespace Covers

variable {text ts us : List Token} {s s' : Span}

theorem one {t : Token} (hl : t.kind ≠ .leftParen) (hr : t.kind ≠ .rightParen) :
    Covers [t] t.span where
  start := ⟨t, by simp [hl], rfl, rfl⟩
  stop _ := ⟨t, by simp [hr], rfl⟩

theorem paren {l r : Token} (hl : l.kind = .leftParen) (hr : r.kind = .rightParen)
    (h : Covers text s) : Covers (l :: (text ++ [r])) s where
  start := by
    obtain ⟨t, ht, hplace⟩ := h.start
    refine ⟨t, ?_, hplace⟩
    rw [List.find?_cons_of_neg (by simp [hl]), List.find?_append, ht, Option.some_or]
  stop := by
    rintro ⟨line, hline⟩
    obtain ⟨t, ht, hstop⟩ := h.stop ⟨line, fun t ht => hline t (by simp [ht])⟩
    refine ⟨t, ?_, hstop⟩
    rw [List.reverse_cons, List.reverse_append, List.reverse_singleton, List.singleton_append,
      List.cons_append, List.find?_cons_of_neg (by simp [hr]), List.find?_append, ht, Option.some_or]

/-- Two parts of a text, and what stands between them. -/
theorem merge {between : List Token} (hs : Covers ts s) (hs' : Covers us s')
    (h : (ts ++ (between ++ us)).Pairwise Token.Before) :
    Covers (ts ++ (between ++ us)) (s.merge s') := by
  -- Tokens of one line do not overlap, so the first span starts the merged one and, where
  -- both are on one line, the second ends it.
  have hbefore : ∀ x ∈ ts, ∀ y ∈ us, x.span.line = y.span.line → x.span.stop ≤ y.span.col := by
    intro x hx y hy hline
    rcases (List.pairwise_append.mp h).2.2 x hx y (List.mem_append_right _ hy) with hlt | ⟨-, hle⟩
    · omega
    · exact hle
  obtain ⟨t, ht, hline, hcol⟩ := hs.start
  obtain ⟨u, hu, hline', hcol'⟩ := hs'.start
  refine ⟨⟨t, ?_, ?_⟩, fun ⟨line, hall⟩ => ?_⟩
  · rw [List.find?_append, ht, Option.some_or]
  · have hmerge : (s.merge s').line = s.line ∧ (s.merge s').col = s.col := by
      refine Span.merge_start fun hsame => ?_
      have hle := hbefore t (List.mem_of_find?_eq_some ht) u
        (List.mem_of_find?_eq_some hu) (by omega)
      simp only [Span.stop] at hle
      omega
    exact ⟨hmerge.1.trans hline, hmerge.2.trans hcol⟩
  · have hts : ∀ x ∈ ts, x.span.line = line := fun x hx => hall x (by simp [hx])
    have hus : ∀ x ∈ us, x.span.line = line := fun x hx => hall x (by simp [hx])
    obtain ⟨v, hv, hstop⟩ := hs.stop ⟨line, hts⟩
    obtain ⟨w, hw, hstop'⟩ := hs'.stop ⟨line, hus⟩
    have hv' : v ∈ ts := List.mem_reverse.mp (List.mem_of_find?_eq_some hv)
    have hw' : w ∈ us := List.mem_reverse.mp (List.mem_of_find?_eq_some hw)
    have hsame : s.line = s'.line := by
      rw [hline, hline', hts t (List.mem_of_find?_eq_some ht), hus u (List.mem_of_find?_eq_some hu)]
    refine ⟨w, ?_, ?_⟩
    · rw [List.reverse_append, List.reverse_append, List.append_assoc, List.find?_append, hw,
        Option.some_or]
    · have hle := hbefore v hv' w hw' (by rw [hts v hv', hus w hw'])
      rw [Span.merge_stop hsame, hstop, hstop', Nat.max_eq_right]
      simp only [Span.stop] at hle ⊢
      omega

end Covers

/-- The tokens are a text of the tree, and `P` holds of every node and its text. Parentheses around
a node may count as its text or not. -/
inductive Throughout (P : List Token → Expr → Prop) : List Token → Expr → Prop
  | number {t : Token} {i : Info} (ht : t.kind = .number)
      (h : P [t] (.num i (Int32.ofNat (Text.decimal t.lexeme.toList)))) :
      Throughout P [t] (.num i (Int32.ofNat (Text.decimal t.lexeme.toList)))
  | bool {t : Token} {i : Info} {b : Bool} (ht : t.kind = if b then .trueLit else .falseLit)
      (h : P [t] (.bool i b)) : Throughout P [t] (.bool i b)
  | name {t : Token} {i : Info} (ht : t.kind = .ident) (h : P [t] (.var i (.plain t.lexeme))) :
      Throughout P [t] (.var i (.plain t.lexeme))
  | paren {l r : Token} {ts : List Token} {e : Expr} (hl : l.kind = .leftParen)
      (hr : r.kind = .rightParen) (he : Throughout P ts e) (h : P (l :: (ts ++ [r])) e) :
      Throughout P (l :: (ts ++ [r])) e
  | call {t : Token} {ts : List Token} {i : Info} {a : Expr} (ht : t.kind = .ident)
      (ha : Throughout P ts a) (h : P (t :: ts) (.apply i (.plain t.lexeme) a)) :
      Throughout P (t :: ts) (.apply i (.plain t.lexeme) a)
  | binary {t : Token} {ts us : List Token} {i : Info} {op : BinOp} {a b : Expr}
      (ha : Throughout P ts a) (ht : t.kind = op.kind) (hb : Throughout P us b)
      (h : P (ts ++ ([t] ++ us)) (.binary i op a b)) :
      Throughout P (ts ++ ([t] ++ us)) (.binary i op a b)
  | comma {t : Token} {ts us : List Token} {i : Info} {a b : Expr} (ha : Throughout P ts a)
      (ht : t.kind = .comma) (hb : Throughout P us b) (h : P (ts ++ ([t] ++ us)) (.seq i a b)) :
      Throughout P (ts ++ ([t] ++ us)) (.seq i a b)
  | letIn {t : Token} {head ts us : List Token} {i : Info} {x : String} {a b : Expr}
      (hhead : head.map Token.symbol = Derivation.letHead x) (ha : Throughout P ts a)
      (ht : t.kind = .inKw) (hb : Throughout P us b)
      (h : P (head ++ (ts ++ ([t] ++ us))) (.letIn i (.plain x) a b)) :
      Throughout P (head ++ (ts ++ ([t] ++ us))) (.letIn i (.plain x) a b)
  | letFun {t : Token} {head ts us : List Token} {i : Info} {f x : String} {paramTy resultTy : Ty}
      {a b : Expr} (hhead : head.map Token.symbol = Derivation.letFunHead f x paramTy resultTy)
      (ha : Throughout P ts a) (ht : t.kind = .inKw) (hb : Throughout P us b)
      (h : P (head ++ (ts ++ ([t] ++ us))) (.letFun i (.plain f) (.plain x) paramTy resultTy a b)) :
      Throughout P (head ++ (ts ++ ([t] ++ us)))
        (.letFun i (.plain f) (.plain x) paramTy resultTy a b)

namespace Throughout

variable {P : List Token → Expr → Prop} {ts : List Token} {e node : Expr}

theorem here (h : Throughout P ts e) : P ts e := by
  cases h <;> assumption

/-- The predicate is about every node, with a stretch of the tokens for its text. -/
theorem nodes (h : Throughout P ts e) (hnode : node ∈ e.nodes) :
    ∃ text, text <:+: ts ∧ Throughout P text node := by
  -- a stretch of a part is a stretch of the whole
  have part {us ts : List Token} (hus : us <:+: ts)
      (h : ∃ text, text <:+: us ∧ Throughout P text node) :
      ∃ text, text <:+: ts ∧ Throughout P text node := by
    obtain ⟨text, htext, hnode⟩ := h
    exact ⟨text, htext.trans hus, hnode⟩
  have parts {us vs ts : List Token} {a b : Expr} (hus : us <:+: ts) (hvs : vs <:+: ts)
      (ha : node ∈ a.nodes → ∃ text, text <:+: us ∧ Throughout P text node)
      (hb : node ∈ b.nodes → ∃ text, text <:+: vs ∧ Throughout P text node)
      (h : node ∈ a.nodes ++ b.nodes) : ∃ text, text <:+: ts ∧ Throughout P text node :=
    (List.mem_append.mp h).elim (fun h => part hus (ha h)) (fun h => part hvs (hb h))
  induction h with
  | number ht h =>
    obtain rfl := List.mem_singleton.mp hnode
    exact ⟨_, List.infix_rfl, .number ht h⟩
  | bool ht h =>
    obtain rfl := List.mem_singleton.mp hnode
    exact ⟨_, List.infix_rfl, .bool ht h⟩
  | name ht h =>
    obtain rfl := List.mem_singleton.mp hnode
    exact ⟨_, List.infix_rfl, .name ht h⟩
  | @paren l r ts e hl hr he h ih => exact part ⟨[l], [r], by simp⟩ (ih hnode)
  | @call t ts i a ht ha h ih =>
    rcases List.mem_cons.mp hnode with rfl | hnode
    · exact ⟨_, List.infix_rfl, .call ht ha h⟩
    · exact part ⟨[t], [], by simp⟩ (ih hnode)
  | @binary t ts us i op a b ha ht hb h iha ihb =>
    rcases List.mem_cons.mp hnode with rfl | hnode
    · exact ⟨_, List.infix_rfl, .binary ha ht hb h⟩
    · exact parts ⟨[], [t] ++ us, by simp⟩ ⟨ts ++ [t], [], by simp⟩ iha ihb hnode
  | @comma t ts us i a b ha ht hb h iha ihb =>
    rcases List.mem_cons.mp hnode with rfl | hnode
    · exact ⟨_, List.infix_rfl, .comma ha ht hb h⟩
    · exact parts ⟨[], [t] ++ us, by simp⟩ ⟨ts ++ [t], [], by simp⟩ iha ihb hnode
  | @letIn t head ts us i x a b hhead ha ht hb h iha ihb =>
    rcases List.mem_cons.mp hnode with rfl | hnode
    · exact ⟨_, List.infix_rfl, .letIn hhead ha ht hb h⟩
    · exact parts ⟨head, [t] ++ us, by simp⟩ ⟨head ++ (ts ++ [t]), [], by simp⟩ iha ihb hnode
  | @letFun t head ts us i f x paramTy resultTy a b hhead ha ht hb h iha ihb =>
    rcases List.mem_cons.mp hnode with rfl | hnode
    · exact ⟨_, List.infix_rfl, .letFun hhead ha ht hb h⟩
    · exact parts ⟨head, [t] ++ us, by simp⟩ ⟨head ++ (ts ++ [t]), [], by simp⟩ iha ihb hnode

end Throughout

namespace Parser

/-- Between two streams the parser has read a text of the tree, and if its tokens are in order every
node is at its place. -/
def Placed (s : Stream) (e : Expr) (s' : Stream) : Prop :=
  ∃ ts, s.Reads ts s' ∧
    (ts.Pairwise Token.Before → Throughout (fun text node => Covers text node.span) ts e)

namespace Placed

variable {s s₀ s₁ s₂ s' : Stream} {t : Token} {a b e : Expr}

theorem atEnd (h : Placed s e s') (hend : s.eof.kind = .eof) : s'.eof.kind = .eof := by
  obtain ⟨ts, hreads, -⟩ := h
  exact hreads.atEnd hend

theorem leaf (ht : s.Reads [t] s') (h : Leaf t e) : Placed s e s' := by
  refine ⟨[t], ht, fun _ => ?_⟩
  cases h with
  | number hkind => exact .number hkind (.one (by simp [hkind]) (by simp [hkind]))
  | bool b hkind =>
    exact .bool hkind (.one (by cases b <;> simp [hkind]) (by cases b <;> simp [hkind]))
  | name hkind => exact .name hkind (.one (by simp [hkind]) (by simp [hkind]))

theorem paren {t' : Token} (ht : s.Reads [t] s₁) (hkind : t.kind = .leftParen) (h : Placed s₁ e s₂)
    (ht' : s₂.Reads [t'] s') (hkind' : t'.kind = .rightParen) : Placed s e s' := by
  obtain ⟨ts, hreads, hplaced⟩ := h
  refine ⟨t :: (ts ++ [t']), ht.trans (hreads.trans ht'), fun hordered => ?_⟩
  have hinner := hplaced (List.pairwise_append.mp (List.pairwise_cons.mp hordered).2).1
  exact .paren hkind hkind' hinner (hinner.here.paren hkind hkind')

theorem call (ht : s.Reads [t] s₁) (hkind : t.kind = .ident) (ha : Placed s₁ a s') :
    Placed s (.apply (.untyped (t.span.merge a.span)) (.plain t.lexeme) a) s' := by
  obtain ⟨ts, hreads, hplaced⟩ := ha
  refine ⟨t :: ts, ht.trans hreads, fun hordered => ?_⟩
  have harg := hplaced (List.pairwise_cons.mp hordered).2
  have hcallee : Covers [t] t.span := .one (by simp [hkind]) (by simp [hkind])
  have hcovers : Covers ([t] ++ ([] ++ ts)) (t.span.merge a.span) := hcallee.merge harg.here hordered
  exact .call hkind harg hcovers

/-- Two parts with a token between them. -/
theorem parts (ha : Placed s a s₁) (ht : s₁.Reads [t] s₂) (hb : Placed s₂ b s') :
    ∃ ts us, s.Reads (ts ++ ([t] ++ us)) s' ∧ ((ts ++ ([t] ++ us)).Pairwise Token.Before →
      Throughout (fun text node => Covers text node.span) ts a ∧
      Throughout (fun text node => Covers text node.span) us b) := by
  obtain ⟨ts, hreads, hplaced⟩ := ha
  obtain ⟨us, hreads', hplaced'⟩ := hb
  refine ⟨ts, us, hreads.trans (ht.trans hreads'), fun hordered => ?_⟩
  obtain ⟨hts, hus, -⟩ := List.pairwise_append.mp hordered
  exact ⟨hplaced hts, hplaced' (List.pairwise_cons.mp hus).2⟩

theorem comma (ha : Placed s a s₁) (ht : s₁.Reads [t] s₂) (hkind : t.kind = .comma)
    (hb : Placed s₂ b s') : Placed s (.seq (.untyped (a.span.merge b.span)) a b) s' := by
  obtain ⟨ts, us, hreads, hplaced⟩ := parts ha ht hb
  refine ⟨_, hreads, fun hordered => ?_⟩
  obtain ⟨ha, hb⟩ := hplaced hordered
  exact .comma ha hkind hb (ha.here.merge hb.here hordered)

theorem binary {op : BinOp} (ha : Placed s a s₁) (ht : s₁.Reads [t] s₂) (hkind : t.kind = op.kind)
    (hb : Placed s₂ b s') : Placed s (.binary (.untyped (a.span.merge b.span)) op a b) s' := by
  obtain ⟨ts, us, hreads, hplaced⟩ := parts ha ht hb
  refine ⟨_, hreads, fun hordered => ?_⟩
  obtain ⟨ha, hb⟩ := hplaced hordered
  exact .binary ha hkind hb (ha.here.merge hb.here hordered)

/-- A `let` reaches from its first symbol to the end of its body. -/
theorem letForm {head : List Token} {start : Token} (hhead : s.Reads (start :: head) s₀)
    (hstart : start.kind = .letKw) (ha : Placed s₀ a s₁) (ht : s₁.Reads [t] s₂)
    (hb : Placed s₂ b s') :
    ∃ ts us, s.Reads (start :: head ++ (ts ++ ([t] ++ us))) s' ∧
      ((start :: head ++ (ts ++ ([t] ++ us))).Pairwise Token.Before →
        Throughout (fun text node => Covers text node.span) ts a ∧
        Throughout (fun text node => Covers text node.span) us b ∧
        Covers (start :: head ++ (ts ++ ([t] ++ us))) (start.span.merge b.span)) := by
  obtain ⟨ts, us, hreads, hplaced⟩ := parts ha ht hb
  refine ⟨ts, us, hhead.trans hreads, fun hordered => ?_⟩
  obtain ⟨ha, hb⟩ := hplaced (List.pairwise_append.mp hordered).2.1
  have hlet : Covers [start] start.span := .one (by simp [hstart]) (by simp [hstart])
  have htext : start :: head ++ (ts ++ ([t] ++ us)) = [start] ++
      ((head ++ (ts ++ [t])) ++ us) := by simp
  rw [htext] at hordered ⊢
  exact ⟨ha, hb, hlet.merge hb.here hordered⟩

end Placed

structure PlacesAt (n : Nat) : Prop where
  sequence : ∀ {s e s'}, s.eof.kind = .eof → sequence n s = .ok e s' → Placed s e s'
  term : ∀ {s e s'}, s.eof.kind = .eof → term n s = .ok e s' → Placed s e s'
  letForm : ∀ {s e s'}, s.eof.kind = .eof → letForm n s = .ok e s' → Placed s e s'
  operators : ∀ {s e s' least}, s.eof.kind = .eof → operators n least s = .ok e s' → Placed s e s'
  extend : ∀ {s₀ s e s' least left}, s₀.eof.kind = .eof → Placed s₀ left s →
    extend n least left s = .ok e s' → Placed s₀ e s'
  operand : ∀ {s e s'}, s.eof.kind = .eof → operand n s = .ok e s' → Placed s e s'
  atom : ∀ {s e s'}, s.eof.kind = .eof → atom n s = .ok e s' → Placed s e s'

section

variable {n : Nat} (h : PlacesAt n) {s s' : Stream} {e : Expr}

include h

theorem sequence_placed (hend : s.eof.kind = .eof) (hs : sequence (n + 1) s = .ok e s') :
    Placed s e s' := by
  obtain ⟨first, s₁, hfirst, hs⟩ := sequence_eq_ok hs
  have hplaced := h.term hend hfirst
  rcases hs with ⟨rfl, rfl⟩ | ⟨hcomma, t, s₂, second, hnext, hsecond, rfl⟩
  · exact hplaced
  · have hend₁ := hplaced.atEnd hend
    obtain ⟨rfl, hreads⟩ := next_eq_ok hnext hend₁ (by simp [hcomma])
    exact hplaced.comma hreads hcomma (h.sequence (hreads.atEnd hend₁) hsecond)

theorem letForm_placed (hend : s.eof.kind = .eof) (hs : letForm (n + 1) s = .ok e s') :
    Placed s e s' := by
  obtain ⟨start, head, s₀, a, b, hhead, ⟨s₁, t, s₂, ha, ht, hb⟩, hform⟩ := letForm_eq_ok hend hs
  have hplaced := h.term (hhead.atEnd hend) ha
  obtain ⟨hkind, hreads⟩ := expect_eq_ok ht (hplaced.atEnd (hhead.atEnd hend)) (by simp)
  have hplaced' := h.term (hreads.atEnd (hplaced.atEnd (hhead.atEnd hend))) hb
  have hstart : start.kind = .letKw := by
    rcases hform with ⟨x, hsymbols, -⟩ | ⟨f, x, paramTy, resultTy, hsymbols, -⟩ <;>
      exact Token.kind_eq (List.cons.inj hsymbols).1
  obtain ⟨ts, us, hreads, hbound⟩ := Placed.letForm hhead hstart hplaced hreads hplaced'
  refine ⟨_, hreads, fun hordered => ?_⟩
  obtain ⟨ha, hb, hcovers⟩ := hbound hordered
  rcases hform with ⟨x, hsymbols, rfl⟩ | ⟨f, x, paramTy, resultTy, hsymbols, rfl⟩
  · exact .letIn hsymbols ha hkind hb hcovers
  · exact .letFun hsymbols ha hkind hb hcovers

theorem extend_placed {least : Nat} {left : Expr} {s₀ : Stream} (hend : s₀.eof.kind = .eof)
    (hleft : Placed s₀ left s) (hs : extend (n + 1) least left s = .ok e s') : Placed s₀ e s' := by
  rcases extend_eq_ok hs with ⟨rfl, rfl, -⟩ | ⟨op, t, s₂, right, s₃, hop, -, hnext, hright, hs⟩
  · exact hleft
  · have hkind := BinOp.kind_of_binOp? hop
    obtain ⟨rfl, hreads⟩ := next_eq_ok hnext (hleft.atEnd hend)
      (by rw [hkind]; cases op <;> simp [BinOp.kind])
    have hplaced := h.operators (hreads.atEnd (hleft.atEnd hend)) hright
    exact h.extend hend (hleft.binary hreads hkind hplaced) hs

theorem operand_placed (hend : s.eof.kind = .eof) (hs : operand (n + 1) s = .ok e s') :
    Placed s e s' := by
  rcases operand_eq_ok hend hs with hs | hs | ⟨t, s₁, arg, hkind, hreads, harg, rfl⟩
  · exact h.letForm hend hs
  · exact h.atom hend hs
  · exact .call hreads hkind (h.atom (hreads.atEnd hend) harg)

theorem atom_placed (hend : s.eof.kind = .eof) (hs : atom (n + 1) s = .ok e s') : Placed s e s' := by
  rcases atom_eq_ok hend hs with ⟨t, hreads, hleaf⟩ | ⟨t, s₁, s₂, t', hkind, hreads, hinner, hexpect⟩
  · exact .leaf hreads hleaf
  · have hplaced := h.sequence (hreads.atEnd hend) hinner
    obtain ⟨hkind', hreads'⟩ := expect_eq_ok hexpect (hplaced.atEnd (hreads.atEnd hend)) (by simp)
    exact hplaced.paren hreads hkind hreads' hkind'

theorem placesAt_succ : PlacesAt (n + 1) where
  sequence := sequence_placed h
  term hend hs := (term_eq_ok hs).elim (h.letForm hend) (h.operators hend)
  letForm := letForm_placed h
  operators := by
    intro s e s' least hend hs
    simp only [operators, bind_eq_ok] at hs
    obtain ⟨left, s₁, hleft, hs⟩ := hs
    exact h.extend hend (h.operand hend hleft) hs
  extend := extend_placed h
  operand := operand_placed h
  atom := atom_placed h

end

theorem placesAt (n : Nat) : PlacesAt n := by
  induction n with
  | zero => constructor <;> intros <;> exact absurd ‹_› noExpression_ne_ok
  | succ n ih => exact placesAt_succ ih

end Parser

/-- Every node of a parsed text is placed at its tokens: its span starts with the first one that is
no opening parenthesis and, on one line, ends with the last one that is no closing parenthesis. -/
theorem parse_places_nodes {source : String} {e : Expr} (h : parse source = .ok e) :
    ∃ ts eof, tokenize source = .ok (ts ++ [eof]) ∧
      Throughout (fun text node => Covers text node.span) ts e ∧
      ∀ node ∈ e.nodes, ∃ text, text <:+: ts ∧
        Throughout (fun text node => Covers text node.span) text node ∧ Covers text node.span := by
  obtain ⟨s, hexpr, hkind, hahead⟩ := expression_of_parse h
  obtain ⟨ts, hreads, hplaced⟩ := (Parser.placesAt _).sequence (ofSource_eof source) hexpr
  have hsource := ofSource_of_reads hreads hkind hahead
  have hordered := (ofSource_laid hsource).pairwise_before
  have hthroughout := hplaced (List.pairwise_append.mp hordered).1
  refine ⟨ts, _, tokenize_of_ofSource hsource, hthroughout, fun node hnode => ?_⟩
  obtain ⟨text, htext, hplaces⟩ := hthroughout.nodes hnode
  exact ⟨text, htext, hplaces, hplaces.here⟩

/-- The sum starts behind a parenthesis, on another line than its right side. -/
theorem parse_places_nodes_brokenSum :
    ∃ e, parse "((1)\n + f (23))" = .ok e ∧
      e.nodes.map Expr.span = [⟨1, 3, 6⟩, ⟨1, 3, 1⟩, ⟨2, 4, 5⟩, ⟨2, 7, 2⟩] ∧
      ∃ ts eof, tokenize "((1)\n + f (23))" = .ok (ts ++ [eof]) ∧
        Throughout (fun text node => Covers text node.span) ts e ∧
        ∀ node ∈ e.nodes, ∃ text, text <:+: ts ∧
          Throughout (fun text node => Covers text node.span) text node ∧ Covers text node.span := by
  have h : parse "((1)\n + f (23))" = .ok (.binary (.untyped ⟨1, 3, 6⟩) .add
      (.num (.untyped ⟨1, 3, 1⟩) 1) (.apply (.untyped ⟨2, 4, 5⟩) (.plain "f")
        (.num (.untyped ⟨2, 7, 2⟩) 23))) := by cbv
  exact ⟨_, h, rfl, parse_places_nodes h⟩

end LetStack
