import LetStack.Expr.Parser
import LetStack.Proofs.Trees

namespace LetStack

/-- What the grammar sees of a token: its kind, and how an identifier or a number is spelled. -/
structure Symbol where
  kind : Token.Kind
  spelling : String
deriving DecidableEq, Repr

def Symbol.of (kind : Token.Kind) : Symbol := ⟨kind, ""⟩

@[simp] theorem Symbol.of_kind (kind : Token.Kind) : (of kind).kind = kind := rfl

def Symbol.Closes (x : Symbol) : Prop := x.kind = .inKw ∨ x.kind = .rightParen ∨ x.kind = .comma

def Token.symbol (t : Token) : Symbol :=
  match t.kind with
  | .ident | .number => ⟨t.kind, t.lexeme⟩
  | kind => .of kind

@[simp] theorem Token.symbol_kind (t : Token) : t.symbol.kind = t.kind := by
  unfold symbol
  split <;> simp_all [Symbol.of]

theorem Token.symbol_of_kind {t : Token} {kind : Kind} (h : t.kind = kind) (hi : kind ≠ .ident)
    (hn : kind ≠ .number) : t.symbol = .of kind := by
  subst h
  unfold symbol
  split <;> simp_all

theorem Token.symbol_ident {t : Token} (h : t.kind = .ident) : t.symbol = ⟨.ident, t.lexeme⟩ := by
  simp [symbol, h]

theorem Token.symbol_number {t : Token} (h : t.kind = .number) : t.symbol = ⟨.number, t.lexeme⟩ := by
  simp [symbol, h]

theorem Token.kind_eq {t : Token} {x : Symbol} (h : t.symbol = x) : t.kind = x.kind := by
  rw [← h, symbol_kind]

theorem Token.lexeme_of_symbol {t : Token} {kind : Token.Kind} {x : String}
    (hkind : kind = .ident ∨ kind = .number) (h : t.symbol = ⟨kind, x⟩) : t.lexeme = x := by
  have heq : t.kind = kind := kind_eq h
  rcases hkind with rfl | rfl <;> simpa [symbol, heq] using h

def BinOp.kind : BinOp → Token.Kind
  | eq => .equalEqual
  | lt => .less
  | add => .plus
  | sub => .minus

theorem BinOp.binOp?_kind (op : BinOp) : op.kind.binOp? = some op := by cases op <;> rfl

theorem BinOp.kind_of_binOp? {kind : Token.Kind} {op : BinOp} (h : kind.binOp? = some op) :
    kind = op.kind := by
  cases kind <;> cases h <;> rfl

theorem BinOp.compares_or_adds (op : BinOp) : (op = eq ∨ op = lt) ∨ op = add ∨ op = sub := by
  cases op <;> simp

theorem Token.symbol_operator {t : Token} {op : BinOp} (h : t.kind = op.kind) :
    t.symbol = .of op.kind := by
  refine symbol_of_kind h ?_ ?_ <;> cases op <;> simp [BinOp.kind]

def Ty.kind : Ty → Token.Kind
  | num => .numTy
  | bool => .boolTy

theorem Ty.ty?_kind (ty : Ty) : ty.kind.ty? = some ty := by cases ty <;> rfl

theorem Ty.kind_of_ty? {kind : Token.Kind} {ty : Ty} (h : kind.ty? = some ty) : kind = ty.kind := by
  cases kind <;> cases h <;> rfl

theorem Token.symbol_type {t : Token} {ty : Ty} (h : t.kind = ty.kind) : t.symbol = .of ty.kind := by
  refine symbol_of_kind h ?_ ?_ <;> cases ty <;> simp [Ty.kind]

def Info.nowhere : Info := .untyped (.point 0 0)

inductive Category where
  | sequence
  | comparison
  | sum
  | operand
  | atom
deriving DecidableEq, Repr

/-- Derivations of the grammar. A chain of operators is built from its left end, which is how its
operators group. -/
inductive Derivation : Category → Type
  | last (d : Derivation .comparison) : Derivation .sequence
  | comma (first : Derivation .comparison) (second : Derivation .sequence) : Derivation .sequence
  | sum (d : Derivation .sum) : Derivation .comparison
  | compare (op : BinOp) (hop : op = .eq ∨ op = .lt) (left : Derivation .comparison)
      (right : Derivation .sum) : Derivation .comparison
  | operand (d : Derivation .operand) : Derivation .sum
  | add (op : BinOp) (hop : op = .add ∨ op = .sub) (left : Derivation .sum)
      (right : Derivation .operand) : Derivation .sum
  | letIn (x : String) (value body : Derivation .comparison) : Derivation .operand
  | letFun (f x : String) (paramTy resultTy : Ty) (body rest : Derivation .comparison) :
      Derivation .operand
  | call (f : String) (arg : Derivation .atom) : Derivation .operand
  | atom (d : Derivation .atom) : Derivation .operand
  | number (lexeme : String) : Derivation .atom
  | bool (b : Bool) : Derivation .atom
  | name (x : String) : Derivation .atom
  | paren (inner : Derivation .sequence) : Derivation .atom

namespace Derivation

variable {c : Category}

def letHead (x : String) : List Symbol := [.of .letKw, ⟨.ident, x⟩, .of .equal]

def letFunHead (f x : String) (paramTy resultTy : Ty) : List Symbol :=
  [.of .letKw, ⟨.ident, f⟩, ⟨.ident, x⟩, .of .colon, .of paramTy.kind, .of .arrow,
    .of resultTy.kind, .of .equal]

def yield : {c : Category} → Derivation c → List Symbol
  | _, last d => d.yield
  | _, comma first second => first.yield ++ .of .comma :: second.yield
  | _, sum d => d.yield
  | _, compare op _ left right => left.yield ++ .of op.kind :: right.yield
  | _, operand d => d.yield
  | _, add op _ left right => left.yield ++ .of op.kind :: right.yield
  | _, letIn x value body => letHead x ++ (value.yield ++ .of .inKw :: body.yield)
  | _, letFun f x paramTy resultTy body rest =>
    letFunHead f x paramTy resultTy ++ (body.yield ++ .of .inKw :: rest.yield)
  | _, call f arg => ⟨.ident, f⟩ :: arg.yield
  | _, atom d => d.yield
  | _, number lexeme => [⟨.number, lexeme⟩]
  | _, bool b => [.of (if b then .trueLit else .falseLit)]
  | _, name x => [⟨.ident, x⟩]
  | _, paren inner => .of .leftParen :: (inner.yield ++ [.of .rightParen])

def tree : {c : Category} → Derivation c → Expr
  | _, last d => d.tree
  | _, comma first second => .seq .nowhere first.tree second.tree
  | _, sum d => d.tree
  | _, compare op _ left right => .binary .nowhere op left.tree right.tree
  | _, operand d => d.tree
  | _, add op _ left right => .binary .nowhere op left.tree right.tree
  | _, letIn x value body => .letIn .nowhere (.plain x) value.tree body.tree
  | _, letFun f x paramTy resultTy body rest =>
    .letFun .nowhere (.plain f) (.plain x) paramTy resultTy body.tree rest.tree
  | _, call f arg => .apply .nowhere (.plain f) arg.tree
  | _, atom d => d.tree
  | _, number lexeme => .num .nowhere (Int32.ofNat (Text.decimal lexeme.toList))
  | _, bool b => .bool .nowhere b
  | _, name x => .var .nowhere (.plain x)
  | _, paren inner => inner.tree

/-- The lets of a derivation whose text starts at place `n`, in the order of their first symbols:
the place of that symbol, and the place behind the last symbol of the body. -/
def lets : {c : Category} → Nat → Derivation c → List (Nat × Nat)
  | _, n, last d => d.lets n
  | _, n, comma first second => first.lets n ++ second.lets (n + first.yield.length + 1)
  | _, n, sum d => d.lets n
  | _, n, compare _ _ left right => left.lets n ++ right.lets (n + left.yield.length + 1)
  | _, n, operand d => d.lets n
  | _, n, add _ _ left right => left.lets n ++ right.lets (n + left.yield.length + 1)
  | _, n, d@(letIn _ value body) =>
    (n, n + d.yield.length) ::
      (value.lets (n + 3) ++ body.lets (n + 3 + value.yield.length + 1))
  | _, n, d@(letFun _ _ _ _ body rest) =>
    (n, n + d.yield.length) ::
      (body.lets (n + 8) ++ rest.lets (n + 8 + body.yield.length + 1))
  | _, n, call _ arg => arg.lets (n + 1)
  | _, n, atom d => d.lets n
  | _, _, number _ => []
  | _, _, bool _ => []
  | _, _, name _ => []
  | _, n, paren inner => inner.lets (n + 1)

def Rightmost (d : Derivation c) : Prop :=
  ∀ d' : Derivation c, d'.yield = d.yield → ∀ start stop stop',
    (start, stop) ∈ d.lets 0 → (start, stop') ∈ d'.lets 0 → stop' ≤ stop

def endsInLet : {c : Category} → Derivation c → Bool
  | _, last d => d.endsInLet
  | _, comma _ second => second.endsInLet
  | _, sum d => d.endsInLet
  | _, compare _ _ _ right => right.endsInLet
  | _, operand d => d.endsInLet
  | _, add _ _ _ right => right.endsInLet
  | _, letIn .. => true
  | _, letFun .. => true
  | _, call _ arg => arg.endsInLet
  | _, atom d => d.endsInLet
  | _, number .. => false
  | _, bool .. => false
  | _, name .. => false
  | _, paren .. => false

theorem atom_endsInLet (d : Derivation .atom) : d.endsInLet = false := by cases d <;> rfl

def Greedy : {c : Category} → Derivation c → Prop
  | _, last d => d.Greedy
  | _, comma first second => first.Greedy ∧ second.Greedy
  | _, sum d => d.Greedy
  | _, compare _ _ left right => left.Greedy ∧ left.endsInLet = false ∧ right.Greedy
  | _, operand d => d.Greedy
  | _, add _ _ left right => left.Greedy ∧ left.endsInLet = false ∧ right.Greedy
  | _, letIn _ value body => value.Greedy ∧ body.Greedy
  | _, letFun _ _ _ _ body rest => body.Greedy ∧ rest.Greedy
  | _, call _ arg => arg.Greedy
  | _, atom d => d.Greedy
  | _, number _ => True
  | _, bool _ => True
  | _, name _ => True
  | _, paren inner => inner.Greedy

inductive Tail where
  | add (op : BinOp) (hop : op = .add ∨ op = .sub) (right : Derivation .operand)
  | compare (op : BinOp) (hop : op = .eq ∨ op = .lt) (right : Derivation .sum)

namespace Tail

def yield : Tail → List Symbol
  | add op _ right => .of op.kind :: right.yield
  | compare op _ right => .of op.kind :: right.yield

def Greedy : Tail → Prop
  | add _ _ right => right.Greedy
  | compare _ _ right => right.Greedy

def isAdd : Tail → Bool
  | add .. => true
  | compare .. => false

end Tail

/-- The derivation can take in what follows it: at its end, or in the body of the `let` it ends in.
-/
def TakesIn (t : Tail) : {c : Category} → Derivation c → Prop
  | .sequence, _ => True
  | .comparison, d => ∃ g : Derivation .comparison, g.Greedy ∧ g.yield = d.yield ++ t.yield
  | .sum, d => d.endsInLet ∨ t.isAdd →
    ∃ g : Derivation .sum, g.Greedy ∧ g.yield = d.yield ++ t.yield
  | .operand, d => d.endsInLet → ∃ g : Derivation .operand, g.Greedy ∧ g.yield = d.yield ++ t.yield
  | .atom, _ => True

theorem takesIn (t : Tail) (ht : t.Greedy) (d : Derivation c) (hd : d.Greedy) : d.TakesIn t := by
  induction d with
  | last | comma | number | bool | name | paren => trivial
  | sum d ih =>
    -- A tail goes to the rightmost `let` when there is one, and a sum takes `+` and `-`;
    -- only a comparison behind a sum that ends otherwise opens a level of its own.
    by_cases h : d.endsInLet ∨ t.isAdd
    · obtain ⟨g, hg, hy⟩ := ih hd h
      exact ⟨.sum g, hg, hy⟩
    · cases t with
      | add => simp [Tail.isAdd] at h
      | compare op hop right =>
        exact ⟨.compare op hop (.sum d) right,
          ⟨hd, by simpa [Tail.isAdd, endsInLet] using h, ht⟩, rfl⟩
  | compare op hop left right _ ih =>
    obtain ⟨hl, hlet, hr⟩ := hd
    by_cases h : right.endsInLet ∨ t.isAdd
    · obtain ⟨g, hg, hy⟩ := ih hr h
      exact ⟨.compare op hop left g, ⟨hl, hlet, hg⟩, by simp [yield, hy]⟩
    · cases t with
      | add => simp [Tail.isAdd] at h
      | compare op' hop' right' =>
        exact ⟨.compare op' hop' (.compare op hop left right) right',
          ⟨⟨hl, hlet, hr⟩, by simpa [Tail.isAdd, endsInLet] using h, ht⟩, rfl⟩
  | operand d ih =>
    intro h
    by_cases hlet : d.endsInLet
    · obtain ⟨g, hg, hy⟩ := ih hd hlet
      exact ⟨.operand g, hg, hy⟩
    · cases t with
      | add op hop right =>
        exact ⟨.add op hop (.operand d) right, ⟨hd, by simpa [endsInLet] using hlet, ht⟩, rfl⟩
      | compare => simp [Tail.isAdd, endsInLet, hlet] at h
  | add op hop left right _ ih =>
    obtain ⟨hl, hlet, hr⟩ := hd
    intro h
    by_cases hright : right.endsInLet
    · obtain ⟨g, hg, hy⟩ := ih hr hright
      exact ⟨.add op hop left g, ⟨hl, hlet, hg⟩, by simp [yield, hy]⟩
    · cases t with
      | add op' hop' right' =>
        exact ⟨.add op' hop' (.add op hop left right) right',
          ⟨⟨hl, hlet, hr⟩, by simpa [endsInLet] using hright, ht⟩, rfl⟩
      | compare => simp [Tail.isAdd, endsInLet, hright] at h
  | letIn x value body _ ih =>
    intro _
    obtain ⟨g, hg, hy⟩ := ih hd.2
    exact ⟨.letIn x value g, ⟨hd.1, hg⟩, by simp [yield, hy]⟩
  | letFun f x paramTy resultTy body rest _ ih =>
    intro _
    obtain ⟨g, hg, hy⟩ := ih hd.2
    exact ⟨.letFun f x paramTy resultTy body g, ⟨hd.1, hg⟩, by simp [yield, hy]⟩
  | call f d | atom d =>
    intro h
    simp [endsInLet, atom_endsInLet] at h

/-- Every derivable text has a greedy derivation. -/
theorem exists_greedy (d : Derivation c) : ∃ g : Derivation c, g.Greedy ∧ g.yield = d.yield := by
  induction d with
  | last d ih =>
    obtain ⟨g, hg, hy⟩ := ih
    exact ⟨.last g, hg, hy⟩
  | comma first second ihf ihs =>
    obtain ⟨g, hg, hy⟩ := ihf
    obtain ⟨g', hg', hy'⟩ := ihs
    exact ⟨.comma g g', ⟨hg, hg'⟩, by simp [yield, hy, hy']⟩
  | sum d ih =>
    obtain ⟨g, hg, hy⟩ := ih
    exact ⟨.sum g, hg, hy⟩
  | compare op hop left right ihl ihr =>
    obtain ⟨g, hg, hy⟩ := ihl
    obtain ⟨g', hg', hy'⟩ := ihr
    -- The left operand may end in a `let`, whose body then reads the operator.
    obtain ⟨h, hh, hyh⟩ := takesIn (.compare op hop g') hg' g hg
    exact ⟨h, hh, by simp [hyh, yield, Tail.yield, hy, hy']⟩
  | operand d ih =>
    obtain ⟨g, hg, hy⟩ := ih
    exact ⟨.operand g, hg, hy⟩
  | add op hop left right ihl ihr =>
    obtain ⟨g, hg, hy⟩ := ihl
    obtain ⟨g', hg', hy'⟩ := ihr
    obtain ⟨h, hh, hyh⟩ := takesIn (.add op hop g') hg' g hg (.inr rfl)
    exact ⟨h, hh, by simp [hyh, yield, Tail.yield, hy, hy']⟩
  | letIn x value body ihv ihb =>
    obtain ⟨g, hg, hy⟩ := ihv
    obtain ⟨g', hg', hy'⟩ := ihb
    exact ⟨.letIn x g g', ⟨hg, hg'⟩, by simp [yield, hy, hy']⟩
  | letFun f x paramTy resultTy body rest ihb ihr =>
    obtain ⟨g, hg, hy⟩ := ihb
    obtain ⟨g', hg', hy'⟩ := ihr
    exact ⟨.letFun f x paramTy resultTy g g', ⟨hg, hg'⟩, by simp [yield, hy, hy']⟩
  | call f arg ih =>
    obtain ⟨g, hg, hy⟩ := ih
    exact ⟨.call f g, hg, by simp [yield, hy]⟩
  | atom d ih =>
    obtain ⟨g, hg, hy⟩ := ih
    exact ⟨.atom g, hg, hy⟩
  | number lexeme => exact ⟨.number lexeme, trivial, rfl⟩
  | bool b => exact ⟨.bool b, trivial, rfl⟩
  | name x => exact ⟨.name x, trivial, rfl⟩
  | paren inner ih =>
    obtain ⟨g, hg, hy⟩ := ih
    exact ⟨.paren g, hg, by simp [yield, hy]⟩

/-- Follows lets and parentheses through a text, with those that are open, innermost first: `in`
closes a `let`, and a comma stands directly inside of parentheses. -/
def nest : List Token.Kind → List Symbol → Option (List Token.Kind)
  | opened, [] => some opened
  | opened, x :: w =>
    match x.kind, opened with
    | .letKw, opened => nest (.letKw :: opened) w
    | .leftParen, opened => nest (.leftParen :: opened) w
    | .inKw, .letKw :: opened => nest opened w
    | .rightParen, .leftParen :: opened => nest opened w
    | .comma, .leftParen :: opened => nest (.leftParen :: opened) w
    | .inKw, _ | .rightParen, _ | .comma, _ => none
    | _, opened => nest opened w

theorem nest_closes {x : Symbol} (hx : x.Closes) (w : List Symbol) : nest [] (x :: w) = none := by
  rcases hx with h | h | h <;> simp [nest, h]

theorem nest_operator (op : BinOp) (opened : List Token.Kind) (w : List Symbol) :
    nest opened (.of op.kind :: w) = nest opened w := by
  cases op <;> rfl

/-- A derived text leaves open what it finds open; a sequence has to stand inside of parentheses. -/
theorem nest_yield (d : Derivation c) (opened : List Token.Kind) (w : List Symbol)
    (hopen : c = .sequence → opened.head? = some .leftParen) :
    nest opened (d.yield ++ w) = nest opened w := by
  induction d generalizing opened w with
  | last d ih => exact ih opened w (by simp)
  | comma first second ihf ihs =>
    obtain ⟨outer, rfl⟩ : ∃ outer, opened = .leftParen :: outer := by
      simpa [List.head?_eq_some_iff] using hopen
    simp only [yield, List.append_assoc, List.cons_append]
    rw [ihf _ _ (by simp)]
    exact ihs _ w (by simp)
  | sum d ih | operand d ih | atom d ih => exact ih opened w (by simp)
  | compare op hop left right ihl ihr | add op hop left right ihl ihr =>
    simp only [yield, List.append_assoc, List.cons_append]
    rw [ihl _ _ (by simp), nest_operator, ihr _ _ (by simp)]
  | letIn x value body ihv ihb =>
    simp only [yield, letHead, List.append_assoc, List.cons_append, List.nil_append]
    have h := ihv (.letKw :: opened) (.of .inKw :: (body.yield ++ w)) (by simp)
    exact h.trans (ihb opened w (by simp))
  | letFun f x paramTy resultTy body rest ihb ihr =>
    simp only [yield, letFunHead, List.append_assoc, List.cons_append, List.nil_append]
    have h := ihb (.letKw :: opened) (.of .inKw :: (rest.yield ++ w)) (by simp)
    cases paramTy <;> cases resultTy <;> exact h.trans (ihr opened w (by simp))
  | call f arg ih => exact ih opened w (by simp)
  | number | name => rfl
  | bool b => cases b <;> rfl
  | paren inner ih =>
    simp only [yield, List.append_assoc, List.cons_append, List.nil_append]
    exact ih (.leftParen :: opened) (.of .rightParen :: w) (by simp)

/-- In the text `w`, which starts at place `n`, the places from `start` to `stop` hold an operand,
and `post` follows it. -/
def Holds (w : List Symbol) (n start stop : Nat) (post : List Symbol) : Prop :=
  ∃ (pre : List Symbol) (o : Derivation .operand),
    w = pre ++ (o.yield ++ post) ∧ start = n + pre.length ∧ stop = start + o.yield.length

namespace Holds

variable {w post : List Symbol} {n start stop : Nat}

theorem self (o : Derivation .operand) (n : Nat) :
    Holds o.yield n n (n + o.yield.length) [] :=
  ⟨[], o, by simp, by simp, rfl⟩

theorem before (h : Holds w n start stop post) (v : List Symbol) :
    Holds (w ++ v) n start stop (post ++ v) := by
  obtain ⟨pre, o, rfl, hstart, hstop⟩ := h
  exact ⟨pre, o, by simp, hstart, hstop⟩

theorem behind {u : List Symbol} (h : Holds w (n + u.length) start stop post) :
    Holds (u ++ w) n start stop post := by
  obtain ⟨pre, o, rfl, hstart, hstop⟩ := h
  exact ⟨u ++ pre, o, by simp, by simp; omega, hstop⟩

theorem behind_cons {u : List Symbol} {x : Symbol} (h : Holds w (n + u.length + 1) start stop post) :
    Holds (u ++ x :: w) n start stop post := by
  have h' : Holds ((u ++ [x]) ++ w) n start stop post := behind (by simpa [Nat.add_assoc] using h)
  simpa using h'

/-- Of two operands that start at one place the shorter is the beginning of the longer. -/
theorem extends_of_le {stop' : Nat} {post' : List Symbol} (h : Holds w n start stop post)
    (h' : Holds w n start stop' post') (hle : stop ≤ stop') :
    ∃ (o o' : Derivation .operand) (more : List Symbol), o'.yield = o.yield ++ more ∧
      post = more ++ post' ∧ stop' = stop + more.length := by
  obtain ⟨pre, o, rfl, hstart, hstop⟩ := h
  obtain ⟨pre', o', hw, hstart', hstop'⟩ := h'
  obtain ⟨-, htexts⟩ := List.append_inj hw (by omega)
  rw [List.append_eq_append_iff] at htexts
  rcases htexts with ⟨more, ho', hpost⟩ | ⟨more, ho, hpost⟩
  · refine ⟨o, o', more, ho', hpost, ?_⟩
    simp only [hstop, hstop', ho', List.length_append]
    omega
  · -- the other way round both are of one length
    have hmore : more = [] := by
      apply List.eq_nil_of_length_eq_zero
      simp only [hstop, hstop', ho, List.length_append] at hle
      omega
    subst hmore
    refine ⟨o, o', [], by simpa using ho.symm, by simpa using hpost.symm, ?_⟩
    simp [hstop, hstop', ho]

end Holds

/-- What closes behind a text, closes behind it also where more follows. -/
theorem closes_append {post v : List Symbol} {y : Symbol} (hy : y.Closes)
    (h : ∀ x, post.head? = some x → x.Closes) (x : Symbol)
    (hx : (post ++ y :: v).head? = some x) : x.Closes := by
  cases post with
  | nil =>
    obtain rfl : y = x := by simpa using hx
    exact hy
  | cons z post => exact h x (by simpa using hx)

/-- A `let` of a derivation is an operand of its text. In a greedy derivation, what follows it there
closes it. -/
theorem lets_hold {n start stop : Nat} (d : Derivation c) (h : (start, stop) ∈ d.lets n) :
    ∃ post, Holds d.yield n start stop post ∧ (post = [] → d.endsInLet = true) ∧
      (d.Greedy → ∀ x, post.head? = some x → x.Closes) := by
  induction d generalizing n with
  | last d ih | sum d ih | operand d ih | atom d ih => exact ih h
  | comma first second ihf ihs =>
    rcases List.mem_append.mp h with h | h
    · obtain ⟨post, hpost, -, hcloses⟩ := ihf h
      exact ⟨_, hpost.before _, by simp, fun hd =>
        closes_append (.inr (.inr rfl)) (hcloses hd.1)⟩
    · obtain ⟨post, hpost, hlet, hcloses⟩ := ihs h
      exact ⟨post, hpost.behind_cons, hlet, fun hd => hcloses hd.2⟩
  | compare op hop left right ihl ihr | add op hop left right ihl ihr =>
    rcases List.mem_append.mp h with h | h
    · obtain ⟨post, hpost, hlet, hcloses⟩ := ihl h
      refine ⟨_, hpost.before _, by simp, fun hd x hx => ?_⟩
      -- a left operand does not end in a `let`, so this one is closed inside of it
      cases post with
      | nil => simp [hd.2.1] at hlet
      | cons y post => exact hcloses hd.1 x (by simpa using hx)
    · obtain ⟨post, hpost, hlet, hcloses⟩ := ihr h
      exact ⟨post, hpost.behind_cons, hlet, fun hd => hcloses hd.2.2⟩
  | letIn x value body ihv ihb =>
    rcases List.mem_cons.mp h with h | h
    · cases h
      exact ⟨[], Holds.self (.letIn x value body) _, fun _ => rfl, by simp⟩
    · rcases List.mem_append.mp h with h | h
      · obtain ⟨post, hpost, -, hcloses⟩ := ihv h
        exact ⟨_, (hpost.before _).behind, by simp, fun hd =>
          closes_append (.inl rfl) (hcloses hd.1)⟩
      · obtain ⟨post, hpost, -, hcloses⟩ := ihb h
        exact ⟨post, (Holds.behind_cons hpost).behind, fun _ => rfl, fun hd => hcloses hd.2⟩
  | letFun f x paramTy resultTy body rest ihb ihr =>
    rcases List.mem_cons.mp h with h | h
    · cases h
      exact ⟨[], Holds.self (.letFun f x paramTy resultTy body rest) _, fun _ => rfl, by simp⟩
    · rcases List.mem_append.mp h with h | h
      · obtain ⟨post, hpost, -, hcloses⟩ := ihb h
        exact ⟨_, (hpost.before _).behind, by simp, fun hd =>
          closes_append (.inl rfl) (hcloses hd.1)⟩
      · obtain ⟨post, hpost, -, hcloses⟩ := ihr h
        exact ⟨post, (Holds.behind_cons hpost).behind, fun _ => rfl, fun hd => hcloses hd.2⟩
  | call f arg ih =>
    obtain ⟨post, hpost, hlet, hcloses⟩ := ih h
    exact ⟨post, hpost.behind (u := [⟨.ident, f⟩]), hlet, hcloses⟩
  | number | bool | name => cases h
  | paren inner ih =>
    obtain ⟨post, hpost, -, hcloses⟩ := ih h
    exact ⟨_, (hpost.before _).behind (u := [.of .leftParen]), by simp,
      fun hd => closes_append (.inr (.inl rfl)) (hcloses hd)⟩

/-- In a greedy derivation each `let` reaches at least as far as in any derivation of its text. -/
theorem Greedy.rightmost {d : Derivation c} (hd : d.Greedy) : d.Rightmost := by
  intro d' hyield start stop stop' h h'
  obtain ⟨post, hpost, -, hcloses⟩ := lets_hold d h
  obtain ⟨post', hpost', -⟩ := lets_hold d' h'
  refine Nat.le_of_not_lt fun hlt => ?_
  obtain ⟨o, o', more, ho', hmore, hlength⟩ :=
    hpost.extends_of_le (hyield ▸ hpost') (by omega)
  obtain ⟨x, more', rfl⟩ := List.exists_cons_of_length_pos (l := more) (by omega)
  -- the longer operand goes on with what closes the shorter one
  have hx : x.Closes := hcloses hd x (by simp [hmore])
  have hnest : nest [] (o'.yield ++ []) = some [] := nest_yield o' [] [] (by simp)
  rw [List.append_nil, ho', nest_yield o _ _ (by simp), nest_closes hx] at hnest
  cases hnest

theorem exists_let_of_endsInLet (d : Derivation c) (n : Nat) (h : d.endsInLet = true) :
    ∃ start, (start, n + d.yield.length) ∈ d.lets n ∧
      Holds d.yield n start (n + d.yield.length) [] := by
  induction d generalizing n with
  | last d ih | sum d ih | operand d ih | atom d ih => exact ih n h
  | comma left right _ ih | compare op hop left right _ ih | add op hop left right _ ih =>
    obtain ⟨start, hmem, hholds⟩ := ih (n + left.yield.length + 1) h
    have hstop : n + left.yield.length + 1 + right.yield.length =
        n + (left.yield ++ .of .comma :: right.yield).length := by simp; omega
    simp only [yield, lets, List.length_append, List.length_cons] at hstop ⊢
    rw [← hstop]
    exact ⟨start, List.mem_append_right _ hmem, hholds.behind_cons⟩
  | letIn x value body => exact ⟨n, List.mem_cons_self, .self (.letIn x value body) n⟩
  | letFun f x paramTy resultTy body rest =>
    exact ⟨n, List.mem_cons_self, .self (.letFun f x paramTy resultTy body rest) n⟩
  | call f arg => simp [endsInLet, atom_endsInLet] at h
  | number | bool | name | paren => cases h

theorem operator_not_closes (op : BinOp) : ¬(Symbol.of op.kind).Closes := by
  cases op <;> simp [Symbol.Closes, Symbol.of, BinOp.kind]

def Unclosed (w : List Symbol) (n : Nat) (lets : List (Nat × Nat)) : Prop :=
  ∃ start stop x post, (start, stop) ∈ lets ∧ Holds w n start stop (x :: post) ∧ ¬x.Closes

namespace Unclosed

variable {u w : List Symbol} {n : Nat} {lets lets' : List (Nat × Nat)}

theorem before (h : Unclosed w n lets) (hsub : lets ⊆ lets') (v : List Symbol) :
    Unclosed (w ++ v) n lets' := by
  obtain ⟨start, stop, x, post, hmem, hholds, hx⟩ := h
  exact ⟨start, stop, x, post ++ v, hsub hmem, hholds.before v, hx⟩

theorem behind (h : Unclosed w (n + u.length) lets) (hsub : lets ⊆ lets') :
    Unclosed (u ++ w) n lets' := by
  obtain ⟨start, stop, x, post, hmem, hholds, hx⟩ := h
  exact ⟨start, stop, x, post, hsub hmem, hholds.behind, hx⟩

theorem behind_cons {x : Symbol} (h : Unclosed w (n + u.length + 1) lets) (hsub : lets ⊆ lets') :
    Unclosed (u ++ x :: w) n lets' := by
  obtain ⟨start, stop, x, post, hmem, hholds, hx⟩ := h
  exact ⟨start, stop, x, post, hsub hmem, hholds.behind_cons, hx⟩

end Unclosed

/-- Where a derivation is not greedy, a `let` is followed by an operator. -/
theorem unclosed_of_not_greedy (d : Derivation c) (n : Nat) (h : ¬d.Greedy) :
    Unclosed d.yield n (d.lets n) := by
  induction d generalizing n with
  | last d ih | sum d ih | operand d ih | atom d ih => exact ih n h
  | comma first second ihf ihs =>
    by_cases hf : first.Greedy
    · exact (ihs _ fun hs => h ⟨hf, hs⟩).behind_cons (List.subset_append_right ..)
    · exact (ihf n hf).before (List.subset_append_left ..) _
  | compare op hop left right ihl ihr | add op hop left right ihl ihr =>
    by_cases hl : left.Greedy
    -- The operator stands behind an open `let` of the left operand: this is the only place
    -- where a derivation fails to be greedy by itself.
    · by_cases hlet : left.endsInLet
      · obtain ⟨start, hmem, hholds⟩ := exists_let_of_endsInLet left n hlet
        exact ⟨start, _, _, _, List.mem_append_left _ hmem, hholds.before _, operator_not_closes op⟩
      · exact (ihr _ fun hr => h ⟨hl, by simpa using hlet, hr⟩).behind_cons
          (List.subset_append_right ..)
    · exact (ihl n hl).before (List.subset_append_left ..) _
  | letIn x value body ihv ihb =>
    refine Unclosed.behind (u := letHead x) ?_ (List.subset_cons_self ..)
    by_cases hv : value.Greedy
    · exact (ihb _ fun hb => h ⟨hv, hb⟩).behind_cons (List.subset_append_right ..)
    · exact (ihv (n + 3) hv).before (List.subset_append_left ..) _
  | letFun f x paramTy resultTy body rest ihb ihr =>
    refine Unclosed.behind (u := letFunHead f x paramTy resultTy) ?_ (List.subset_cons_self ..)
    by_cases hb : body.Greedy
    · exact (ihr _ fun hr => h ⟨hb, hr⟩).behind_cons (List.subset_append_right ..)
    · exact (ihb (n + 8) hb).before (List.subset_append_left ..) _
  | call f arg ih => exact (ih (n + 1) h).behind (u := [⟨.ident, f⟩]) (List.Subset.refl _)
  | number | bool | name => exact absurd trivial h
  | paren inner ih =>
    exact ((ih (n + 1) h).before (List.Subset.refl _) _).behind (u := [.of .leftParen])
      (List.Subset.refl _)

def letPlaces : Nat → List Symbol → List Nat
  | _, [] => []
  | n, x :: w => if x.kind = .letKw then n :: letPlaces (n + 1) w else letPlaces (n + 1) w

theorem letPlaces_append (n : Nat) (u w : List Symbol) :
    letPlaces n (u ++ w) = letPlaces n u ++ letPlaces (n + u.length) w := by
  induction u generalizing n with
  | nil => rfl
  | cons x u ih =>
    simp only [List.cons_append, letPlaces, ih, List.length_cons, Nat.add_right_comm n 1,
      ← Nat.add_assoc]
    split <;> rfl

theorem letPlaces_operator (n : Nat) (op : BinOp) (w : List Symbol) :
    letPlaces n (.of op.kind :: w) = letPlaces (n + 1) w := by
  cases op <;> rfl

/-- A `let` starts wherever there is its symbol. -/
theorem lets_starts (d : Derivation c) (n : Nat) :
    (d.lets n).map Prod.fst = letPlaces n d.yield := by
  induction d generalizing n with
  | last d ih | sum d ih | operand d ih | atom d ih => exact ih n
  | comma first second ihf ihs =>
    rw [yield, letPlaces_append, lets, List.map_append, ihf, ihs]
    rfl
  | compare op hop left right ihl ihr | add op hop left right ihl ihr =>
    rw [yield, letPlaces_append, letPlaces_operator, lets, List.map_append, ihl, ihr]
  | letIn x value body ihv ihb =>
    rw [yield, letPlaces_append, letPlaces_append, lets, List.map_cons, List.map_append, ihv, ihb]
    rfl
  | letFun f x paramTy resultTy body rest ihb ihr =>
    rw [yield, letPlaces_append, letPlaces_append, lets, List.map_cons, List.map_append, ihb, ihr]
    cases paramTy <;> cases resultTy <;> rfl
  | call f arg ih => exact ih (n + 1)
  | number | name => rfl
  | bool b => cases b <;> rfl
  | paren inner ih =>
    have h := letPlaces_append (n + 1) inner.yield [.of .rightParen]
    rw [← ih (n + 1)] at h
    simpa [yield, letPlaces, lets, Symbol.of] using h.symm

/-- The derivations whose lets all reach as far as possible are the greedy ones. -/
theorem rightmost_iff_greedy {d : Derivation c} : d.Rightmost ↔ d.Greedy := by
  refine ⟨fun h => ?_, Greedy.rightmost⟩
  refine Classical.byContradiction fun hd => ?_
  obtain ⟨start, stop, x, post, hmem, hholds, hx⟩ := unclosed_of_not_greedy d 0 hd
  obtain ⟨g, hg, hyield⟩ := exists_greedy d
  have hstart : start ∈ (g.lets 0).map Prod.fst := by
    rw [lets_starts, hyield, ← lets_starts]
    exact List.mem_map_of_mem hmem
  obtain ⟨⟨start', stop'⟩, hmem', rfl⟩ := List.mem_map.mp hstart
  obtain ⟨post', hholds', -, hcloses⟩ := lets_hold g hmem'
  -- each of the two reaches as far as the other, so the same follows them
  have hle : stop' ≤ stop := h g hyield _ _ _ hmem hmem'
  have hge : stop ≤ stop' := hg.rightmost d hyield.symm _ _ _ hmem' hmem
  obtain ⟨-, -, more, -, hpost, hlength⟩ := (hyield ▸ hholds').extends_of_le hholds hle
  obtain rfl : more = [] := List.eq_nil_of_length_eq_zero (by omega)
  exact hx (hcloses hg x (by simp [hpost]))

end Derivation

end LetStack
