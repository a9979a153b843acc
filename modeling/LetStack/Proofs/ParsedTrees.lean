import LetStack.Expr.Parser
import LetStack.Proofs.Trees

namespace LetStack

/-- Every name is the one its author wrote, and no lifted function is called. -/
def Expr.Plain : Expr → Prop
  | letIn _ x value body => x.id = x.display ∧ value.Plain ∧ body.Plain
  | letFun _ f x _ _ body rest =>
    f.id = f.display ∧ x.id = x.display ∧ body.Plain ∧ rest.Plain
  | apply _ f arg => f.id = f.display ∧ arg.Plain
  | call .. => False
  | seq _ a b | binary _ _ a b => a.Plain ∧ b.Plain
  | var _ x => x.id = x.display
  | num .. | bool .. => True

theorem Name.eq_plain {x : Name} (h : x.id = x.display) : ∃ s, x = .plain s := by
  obtain ⟨id, display⟩ := x
  obtain rfl : id = display := h
  exact ⟨id, rfl⟩

namespace Parser

def Yields {α : Type} (p : Parser α) (post : α → Prop) : Prop := ∀ s a s', p s = .ok a s' → post a

namespace Yields

variable {α β : Type} {p q : Parser α} {k : α → Parser β} {post : α → Prop} {last : β → Prop}

theorem pure {a : α} (h : post a) : Yields (pure a) post := by
  intro s b s' hb
  cases hb
  exact h

theorem bind (hp : Yields p post) (hk : ∀ a, post a → Yields (k a) last) :
    Yields (p >>= k) last := by
  intro s b s' h
  simp only [Bind.bind, EStateM.bind] at h
  rcases hs : p s with ⟨a, s₁⟩ | ⟨error, s₁⟩
  · rw [hs] at h
    exact hk a (hp s a s₁ hs) s₁ b s' h
  · rw [hs] at h
    cases h

theorem any : Yields p fun _ => True := fun _ _ _ _ => trivial

/-- What is read first does not matter. -/
theorem skip (hk : ∀ a, Yields (k a) last) : Yields (p >>= k) last := bind any fun a _ => hk a

theorem ite {c : Prop} [Decidable c] (hp : Yields p post) (hq : Yields q post) :
    Yields (if c then p else q) post := by
  split
  · exact hp
  · exact hq

theorem noExpression {t : Token} {post : Expr → Prop} : Yields (noExpression t) post := by
  intro s e s' h
  cases h

end Yields

theorem identifier_plain : Yields identifier fun x => x.id = x.display := .skip fun _ => .pure rfl

structure PlainAt (n : Nat) : Prop where
  sequence : Yields (sequence n) Expr.Plain
  term : Yields (term n) Expr.Plain
  letForm : Yields (letForm n) Expr.Plain
  operators : ∀ least, Yields (operators n least) Expr.Plain
  extend : ∀ least left, left.Plain → Yields (extend n least left) Expr.Plain
  operand : Yields (operand n) Expr.Plain
  atom : Yields (atom n) Expr.Plain

theorem plainAt_zero : PlainAt 0 where
  sequence := .skip fun _ => .noExpression
  term := .skip fun _ => .noExpression
  letForm := .skip fun _ => .noExpression
  operators _ := .skip fun _ => .noExpression
  extend _ _ _ := .skip fun _ => .noExpression
  operand := .skip fun _ => .noExpression
  atom := .skip fun _ => .noExpression

section

variable {n : Nat} (h : PlainAt n)

include h

theorem sequence_plain : Yields (sequence (n + 1)) Expr.Plain := by
  refine .bind h.term fun first hfirst => .skip fun _ => .ite ?_ (.pure hfirst)
  exact .skip fun _ => .bind h.sequence fun second hsecond => .pure ⟨hfirst, hsecond⟩

theorem letForm_plain : Yields (letForm (n + 1)) Expr.Plain := by
  refine .skip fun _ => .bind identifier_plain fun name hname => .skip fun _ => .ite ?_ ?_
  -- a second identifier is the parameter of a function
  · refine .bind identifier_plain fun param hparam => ?_
    refine .skip fun _ => .skip fun _ => .skip fun _ => .skip fun _ => .skip fun _ => ?_
    refine .bind h.term fun body hbody => .skip fun _ => .bind h.term fun rest hrest => ?_
    exact .pure ⟨hname, hparam, hbody, hrest⟩
  · refine .skip fun _ => .bind h.term fun value hvalue => ?_
    exact .skip fun _ => .bind h.term fun body hbody => .pure ⟨hname, hvalue, hbody⟩

theorem extend_plain (least : Nat) {left : Expr} (hleft : left.Plain) :
    Yields (extend (n + 1) least left) Expr.Plain := by
  refine .skip fun t => ?_
  cases t.kind.binOp? with
  | none => exact .pure hleft
  | some op =>
    refine .ite (.pure hleft) (.skip fun _ => ?_)
    exact .bind (h.operators _) fun right hright => h.extend _ _ ⟨hleft, hright⟩

theorem operand_plain : Yields (operand (n + 1)) Expr.Plain := by
  refine .skip fun t => ?_
  split
  · exact h.letForm
  · refine .skip fun _ => .ite (.skip fun callee => ?_) h.atom
    exact .bind h.atom fun arg harg => .pure ⟨rfl, harg⟩
  · exact h.atom

theorem atom_plain : Yields (atom (n + 1)) Expr.Plain := by
  refine .skip fun t => ?_
  split
  · exact .skip fun _ => .pure trivial
  · exact .skip fun _ => .pure trivial
  · exact .skip fun _ => .pure trivial
  · exact .skip fun _ => .pure rfl
  · exact .skip fun _ => .bind h.sequence fun inner hinner => .skip fun _ => .pure hinner
  · exact .noExpression

theorem plainAt_succ : PlainAt (n + 1) where
  sequence := sequence_plain h
  term := .skip fun _ => .ite h.letForm (h.operators 0)
  letForm := letForm_plain h
  operators least := .bind h.operand fun left hleft => h.extend least left hleft
  extend least _ hleft := extend_plain h least hleft
  operand := operand_plain h
  atom := atom_plain h

end

theorem plainAt (n : Nat) : PlainAt n := by
  induction n with
  | zero => exact plainAt_zero
  | succ n ih => exact plainAt_succ ih

end Parser

theorem parse_plain {source : String} {e : Expr} (h : parse source = .ok e) : e.Plain := by
  have hexpression : Parser.Yields Parser.expression Expr.Plain :=
    fun s => (Parser.plainAt (Parser.depthFor s)).sequence s
  have hwhole : Parser.Yields Parser.whole Expr.Plain := by
    refine .bind hexpression fun e he => .skip fun _ => .ite (.pure he) ?_
    intro s a s' h
    cases h
  unfold parse at h
  split at h
  next hw =>
    obtain rfl := Except.ok.inj h
    exact hwhole _ _ _ hw
  next => cases h

theorem ok_of_toOption {ε α : Type} {x : Except ε α} {a : α} (h : x.toOption = some a) :
    x = .ok a := by
  cases x with
  | error => cases h
  | ok b => exact congrArg Except.ok (Option.some.inj h)

theorem exists_of_parse {α : Type} {source : String} {f : Expr → α} {a : α}
    (h : (parse source).toOption.map f = some a) : ∃ e, parse source = .ok e ∧ f e = a := by
  obtain ⟨e, he, hfe⟩ := Option.map_eq_some_iff.mp h
  exact ⟨e, ok_of_toOption he, hfe⟩

end LetStack
