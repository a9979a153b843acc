import Mathlib
import LetStack.Proofs.CheckedTrees
import LetStack.Proofs.ParsedTrees
import LetStack.Proofs.ParserCompleteness
import LetStack.Proofs.Regrouping

namespace LetStack

structure Name.Writable (x : Name) : Prop where
  plain : x.id = x.display
  identifier : Identifier x.id

theorem Name.shown_plain (x : String) (mode : NameMode) : (plain x).shown mode = x := by
  cases mode <;> rfl

namespace Expr

/-- The tree may be read from a text: it has no type marks, its names and numbers can be written,
and it calls no lifted function. -/
def Writable : Expr → Prop
  | letIn i x value body => i.ty = none ∧ x.Writable ∧ value.Writable ∧ body.Writable
  | letFun i f x _ _ body rest =>
    i.ty = none ∧ f.Writable ∧ x.Writable ∧ body.Writable ∧ rest.Writable
  | apply i f arg => i.ty = none ∧ f.Writable ∧ arg.Writable
  | call .. => False
  | seq i a b | binary i _ a b => i.ty = none ∧ a.Writable ∧ b.Writable
  | var i x => i.ty = none ∧ x.Writable
  | num i n => i.ty = none ∧ 0 ≤ n.toInt
  | bool i _ => i.ty = none

theorem graft_writable {i : Info} {a e : Expr} :
    (graft i a e).Writable ↔ i.ty = none ∧ a.Writable ∧ e.Writable := by
  fun_induction graft i a e with
  | case1 j left right ih | case2 j left right ih =>
    simp only [Writable, ih]
    tauto
  | case3 => rfl

theorem join_writable (i : Info) (op : BinOp) (a b : Expr) :
    (join i op a b).Writable ↔ (binary i op a b).Writable := by
  rcases join_cases i op a b with ⟨-, heq⟩ | ⟨-, heq⟩
  · rw [heq]
    exact graft_writable
  · rw [heq]

theorem writable_rebuild {mark : Info → Info} {join : Info → BinOp → Expr → Expr → Expr}
    (hmark : ∀ i, (mark i).ty = i.ty)
    (hjoin : ∀ i op a b, (join i op a b).Writable ↔ (binary i op a b).Writable) (e : Expr) :
    (e.rebuild mark join).Writable ↔ e.Writable := by
  induction e with
  | letIn i x value body ihv ihb => simp only [rebuild, Writable, hmark, ihv, ihb]
  | letFun i f x paramTy resultTy body rest ihb ihr => simp only [rebuild, Writable, hmark, ihb, ihr]
  | apply i f arg ih => simp only [rebuild, Writable, hmark, ih]
  | call => rfl
  | seq i first second ihf ihs => simp only [rebuild, Writable, hmark, ihf, ihs]
  | binary i op left right ihl ihr => simp only [rebuild, hjoin, Writable, hmark, ihl, ihr]
  | var | num | bool => simp only [rebuild, Writable, hmark]

theorem unplace_writable {e : Expr} : e.unplace.Writable ↔ e.Writable := by
  unfold unplace
  refine writable_rebuild (fun _ => ?_) (fun _ _ _ _ => ?_) e <;> rfl

theorem splice_writable {e : Expr} : e.splice.Writable ↔ e.Writable :=
  writable_rebuild (fun _ => rfl) join_writable e

end Expr

namespace Derivation

theorem tree_writable {c : Category} (d : Derivation c) (h : ∀ x ∈ d.yield, x.Proper) :
    d.tree.Writable := by
  induction d with
  | last d ih | sum d ih | operand d ih | atom d ih => exact ih h
  | comma a b iha ihb | compare op hop a b iha ihb | add op hop a b iha ihb =>
    exact ⟨rfl, iha fun x hx => h x (by simp [yield, hx]), ihb fun x hx => h x (by simp [yield, hx])⟩
  | letIn x value body ihv ihb =>
    exact ⟨rfl, ⟨rfl, h ⟨.ident, x⟩ (by simp [yield, letHead])⟩,
      ihv fun y hy => h y (by simp [yield, hy]), ihb fun y hy => h y (by simp [yield, hy])⟩
  | letFun f x paramTy resultTy body rest ihb ihr =>
    exact ⟨rfl, ⟨rfl, h ⟨.ident, f⟩ (by simp [yield, letFunHead])⟩,
      ⟨rfl, h ⟨.ident, x⟩ (by simp [yield, letFunHead])⟩,
      ihb fun y hy => h y (by simp [yield, hy]), ihr fun y hy => h y (by simp [yield, hy])⟩
  | call f arg ih =>
    exact ⟨rfl, ⟨rfl, h ⟨.ident, f⟩ (by simp [yield])⟩, ih fun y hy => h y (by simp [yield, hy])⟩
  | number lexeme =>
    have hle : Text.decimal lexeme.toList ≤ Word.greatest := h ⟨.number, lexeme⟩ (by simp [yield])
    refine ⟨rfl, ?_⟩
    rw [Int32.toInt_ofNat_of_lt (by simp only [Word.greatest] at hle; omega)]
    omega
  | bool => rfl
  | name x => exact ⟨rfl, rfl, h ⟨.ident, x⟩ (by simp [yield])⟩
  | paren inner ih => exact ih fun y hy => h y (by simp [yield, hy])

end Derivation

theorem Text.decimal_toString (k : Nat) : decimal (toString k).toList = k := by
  have hlist : (toString k).toList = Nat.toDigits 10 k := by simp
  rw [hlist]
  exact Nat.ofDigitChars_ten_toDigits

namespace Word

variable {n : Word}

theorem toNat_le_greatest : n.toInt.toNat ≤ greatest := by
  have hlt := n.toInt_lt
  rw [greatest]
  omega

theorem text_eq (hn : 0 ≤ n.toInt) : n.text = toString n.toInt.toNat := by
  obtain ⟨k, hk⟩ := Int.eq_ofNat_of_zero_le hn
  rw [text, hk]
  rfl

theorem ofNat_decimal_text (hn : 0 ≤ n.toInt) : Int32.ofNat (Text.decimal n.text.toList) = n := by
  have hlt := n.toInt_lt
  rw [text_eq hn, Text.decimal_toString, ← Int32.toInt_inj,
    Int32.toInt_ofNat_of_lt (by omega), Int.toNat_of_nonneg hn]

end Word

theorem Info.unplaced_eq {i : Info} (hi : i.ty = none) :
    ({ i with span := .point 0 0 } : Info) = .nowhere := by
  rw [hi]
  rfl

structure Spells {c : Category} (d : Derivation c) (e : Expr) (text : String) : Prop where
  greedy : d.Greedy
  tree : d.tree = e.unplace
  lexes : Lexer.Lexes text.toList d.yield

namespace Spells

open Lexer (Lexes)

section

variable {i : Info} (hi : i.ty = none)

include hi

theorem letIn {x : String} (hx : Identifier x) {dv db : Derivation .comparison} {value body : Expr}
    {textv textb : String} (hv : Spells dv value textv) (hb : Spells db body textb) :
    Spells (.letIn x dv db) (.letIn i (.plain x) value body)
      (s!"let {x} = " ++ textv ++ " in " ++ textb) where
  greedy := ⟨hv.greedy, hb.greedy⟩
  tree := by
    rw [Derivation.tree, hv.tree, hb.tree, ← Info.unplaced_eq hi]
    rfl
  lexes := by
    have hlist : (s!"let {x} = " ++ textv ++ " in " ++ textb).toList =
        "let".toList ++ ' ' :: (x.toList ++ ' ' :: ("=".toList ++ ' ' ::
          (textv.toList ++ ' ' :: ("in".toList ++ ' ' :: textb.toList)))) := by simp [toString]
    rw [hlist]
    exact (Lexes.keyword "let" .letKw (by simp)).space <| (Lexes.identifier hx).space <|
      (Lexes.sign "=" .equal (by simp)).space <| hv.lexes.space <|
        (Lexes.keyword "in" .inKw (by simp)).space hb.lexes

theorem letFun {f x : String} (hf : Identifier f) (hx : Identifier x) (paramTy resultTy : Ty)
    {db dr : Derivation .comparison} {body rest : Expr} {textb textr : String}
    (hb : Spells db body textb) (hr : Spells dr rest textr) :
    Spells (.letFun f x paramTy resultTy db dr)
      (.letFun i (.plain f) (.plain x) paramTy resultTy body rest)
      (s!"let {f} {x} : {paramTy} -> {resultTy} = " ++ textb ++ " in " ++ textr) where
  greedy := ⟨hb.greedy, hr.greedy⟩
  tree := by
    rw [Derivation.tree, hb.tree, hr.tree, ← Info.unplaced_eq hi]
    rfl
  lexes := by
    have hlist : (s!"let {f} {x} : {paramTy} -> {resultTy} = " ++ textb ++ " in " ++ textr).toList =
        "let".toList ++ ' ' :: (f.toList ++ ' ' :: (x.toList ++ ' ' :: (":".toList ++ ' ' ::
          (paramTy.keyword.toList ++ ' ' :: ("->".toList ++ ' ' :: (resultTy.keyword.toList ++ ' ' ::
            ("=".toList ++ ' ' :: (textb.toList ++ ' ' ::
              ("in".toList ++ ' ' :: textr.toList))))))))) := by
      simp [toString]
    rw [hlist]
    exact (Lexes.keyword "let" .letKw (by simp)).space <| (Lexes.identifier hf).space <|
      (Lexes.identifier hx).space <| (Lexes.sign ":" .colon (by simp)).space <|
        (Lexes.type paramTy).space <| (Lexes.sign "->" .arrow (by simp)).space <|
          (Lexes.type resultTy).space <| (Lexes.sign "=" .equal (by simp)).space <|
            hb.lexes.space <| (Lexes.keyword "in" .inKw (by simp)).space hr.lexes

theorem call {f : String} (hf : Identifier f) {d : Derivation .atom} {arg : Expr} {text : String}
    (h : Spells d arg text) : Spells (.call f d) (.apply i (.plain f) arg) (f ++ " " ++ text) where
  greedy := h.greedy
  tree := by
    rw [Derivation.tree, h.tree, ← Info.unplaced_eq hi]
    rfl
  lexes := by
    have hlist : (f ++ " " ++ text).toList = f.toList ++ ' ' :: text.toList := by simp
    rw [hlist]
    exact (Lexes.identifier hf).space h.lexes

theorem comma {df : Derivation .comparison} {ds : Derivation .sequence} {first second : Expr}
    {textf texts : String} (hf : Spells df first textf) (hs : Spells ds second texts) :
    Spells (.comma df ds) (.seq i first second) (textf ++ ", " ++ texts) where
  greedy := ⟨hf.greedy, hs.greedy⟩
  tree := by
    rw [Derivation.tree, hf.tree, hs.tree, ← Info.unplaced_eq hi]
    rfl
  lexes := by
    have hlist : (textf ++ ", " ++ texts).toList = textf.toList ++
        ',' :: ' ' :: texts.toList := by simp
    rw [hlist]
    exact hf.lexes.comma hs.lexes

omit hi in
theorem lexes_operator {op : BinOp} {textl textr : String} {u v : List Symbol}
    (hl : Lexes textl.toList u) (hr : Lexes textr.toList v) :
    Lexes (textl ++ s!" {op} " ++ textr).toList (u ++ .of op.kind :: v) := by
  have hlist : (textl ++ s!" {op} " ++ textr).toList =
      textl.toList ++ ' ' :: (op.symbol.toList ++ ' ' :: textr.toList) := by simp [toString]
  rw [hlist]
  exact hl.space ((Lexes.operator op).space hr)

theorem compare {op : BinOp} (hop : op = .eq ∨ op = .lt) {dl : Derivation .comparison}
    {dr : Derivation .sum} {left right : Expr} {textl textr : String} (hlet : dl.endsInLet = false)
    (hl : Spells dl left textl) (hr : Spells dr right textr) :
    Spells (.compare op hop dl dr) (.binary i op left right) (textl ++ s!" {op} " ++ textr) where
  greedy := ⟨hl.greedy, hlet, hr.greedy⟩
  tree := by
    rw [Derivation.tree, hl.tree, hr.tree, ← Info.unplaced_eq hi]
    rfl
  lexes := lexes_operator hl.lexes hr.lexes

theorem add {op : BinOp} (hop : op = .add ∨ op = .sub) {dl : Derivation .sum}
    {dr : Derivation .operand} {left right : Expr} {textl textr : String}
    (hlet : dl.endsInLet = false) (hl : Spells dl left textl) (hr : Spells dr right textr) :
    Spells (.add op hop dl dr) (.binary i op left right) (textl ++ s!" {op} " ++ textr) where
  greedy := ⟨hl.greedy, hlet, hr.greedy⟩
  tree := by
    rw [Derivation.tree, hl.tree, hr.tree, ← Info.unplaced_eq hi]
    rfl
  lexes := lexes_operator hl.lexes hr.lexes

theorem name {x : String} (hx : Identifier x) : Spells (.name x) (.var i (.plain x)) x where
  greedy := trivial
  tree := by
    rw [Derivation.tree, ← Info.unplaced_eq hi]
    rfl
  lexes := .identifier hx

theorem number {n : Word} (hn : 0 ≤ n.toInt) : Spells (.number n.text) (.num i n) n.text where
  greedy := trivial
  tree := by
    rw [Derivation.tree, Word.ofNat_decimal_text hn, ← Info.unplaced_eq hi]
    rfl
  lexes := by
    rw [Word.text_eq hn]
    exact .number Word.toNat_le_greatest

theorem bool (b : Bool) : Spells (.bool b) (.bool i b) (if b then "true" else "false") where
  greedy := trivial
  tree := by
    rw [Derivation.tree, ← Info.unplaced_eq hi]
    rfl
  lexes := by cases b <;> exact .keyword _ _ (by simp)

end

theorem paren {d : Derivation .sequence} {e : Expr} {text : String} (h : Spells d e text) :
    Spells (.paren d) e ("(" ++ text ++ ")") where
  greedy := h.greedy
  tree := h.tree
  lexes := by
    have hlist : ("(" ++ text ++ ")").toList = '(' :: (text.toList ++ [')']) := by simp
    rw [hlist]
    exact h.lexes.paren

end Spells

def Category.ofLevel : Nat → Category
  | 0 => .sequence
  | 1 | 2 => .comparison
  | 3 => .sum
  | 4 => .operand
  | _ => .atom

/-- The text may stand for the tree in a place of the given level. From level 2 on an operator may
follow there, so the text must not end in a `let`. -/
def Stands (e : Expr) (least : Nat) (text : String) : Prop :=
  ∃ d : Derivation (.ofLevel least), Spells d e text ∧ (2 ≤ least → d.endsInLet = false)

namespace Stands

variable {e : Expr} {least : Nat} {text : String}

theorem loosen_succ (h : Stands e (least + 1) text) (hleast : least < 5) : Stands e least text := by
  obtain ⟨d, ⟨hd, htree, htext⟩, hlet⟩ := h
  match least with
  | 0 => exact ⟨.last d, ⟨hd, htree, htext⟩, by omega⟩
  | 1 => exact ⟨d, ⟨hd, htree, htext⟩, by omega⟩
  | 2 => exact ⟨.sum d, ⟨hd, htree, htext⟩, fun _ => hlet (by omega)⟩
  | 3 => exact ⟨.operand d, ⟨hd, htree, htext⟩, fun _ => hlet (by omega)⟩
  | 4 => exact ⟨.atom d, ⟨hd, htree, htext⟩, fun _ => hlet (by omega)⟩

theorem loosen {level : Nat} (h : Stands e level text) (hlevel : level ≤ 5) (hle : least ≤ level) :
    Stands e least text := by
  induction hle with
  | refl => exact h
  | step _ ih => exact ih (h.loosen_succ hlevel) (Nat.le_of_succ_le hlevel)

theorem paren (h : Stands e 0 text) : Stands e 5 ("(" ++ text ++ ")") := by
  obtain ⟨d, hd, -⟩ := h
  exact ⟨.paren d, hd.paren, fun _ => rfl⟩

theorem level_le (e : Expr) : e.level ≤ 5 := by
  cases e with
  | binary i op => cases op <;> simp [Expr.level, BinOp.precedence]
  | _ => simp [Expr.level]

/-- A tree that is looser than its place allows stands there in parentheses. -/
theorem wrap (h : Stands e e.level text) (hleast : least ≤ 5) :
    Stands e least (e.wrap least text) := by
  unfold Expr.wrap
  split
  next => exact (h.loosen (level_le e) (Nat.zero_le _)).paren.loosen (Nat.le_refl 5) hleast
  next hlevel => exact h.loosen (level_le e) (Nat.le_of_not_lt hlevel)

/-- A regular tree that can be written has a printed form that stands for it in a place of its
level. -/
theorem render (mode : NameMode) (e : Expr) (hwritable : e.Writable) (hregular : e.Regular) :
    Stands e e.level (e.render mode) := by
  induction e with
  | letIn i x value body ihv ihb =>
    obtain ⟨hi, hx, hv, hb⟩ := hwritable
    obtain ⟨x, rfl⟩ := Name.eq_plain hx.plain
    obtain ⟨dv, hdv, -⟩ := (ihv hv hregular.1).wrap (by omega : 1 ≤ 5)
    obtain ⟨db, hdb, -⟩ := (ihb hb hregular.2).wrap (by omega : 1 ≤ 5)
    rw [Expr.render_letIn, Name.shown_plain]
    have h := Spells.letIn hi hx.identifier hdv hdb
    exact ⟨.sum (.operand (.letIn x dv db)), ⟨h.greedy, h.tree, h.lexes⟩, by simp [Expr.level]⟩
  | letFun i f x paramTy resultTy body rest ihb ihr =>
    obtain ⟨hi, hf, hx, hb, hr⟩ := hwritable
    obtain ⟨f, rfl⟩ := Name.eq_plain hf.plain
    obtain ⟨x, rfl⟩ := Name.eq_plain hx.plain
    obtain ⟨db, hdb, -⟩ := (ihb hb hregular.1).wrap (by omega : 1 ≤ 5)
    obtain ⟨dr, hdr, -⟩ := (ihr hr hregular.2).wrap (by omega : 1 ≤ 5)
    rw [Expr.render_letFun, Name.shown_plain, Name.shown_plain]
    have h := Spells.letFun hi hf.identifier hx.identifier paramTy resultTy hdb hdr
    exact ⟨.sum (.operand (.letFun f x paramTy resultTy db dr)), ⟨h.greedy, h.tree, h.lexes⟩,
      by simp [Expr.level]⟩
  | apply i f arg ih =>
    obtain ⟨hi, hf, harg⟩ := hwritable
    obtain ⟨f, rfl⟩ := Name.eq_plain hf.plain
    obtain ⟨d, hd, hlet⟩ := (ih harg hregular).wrap (Nat.le_refl 5)
    rw [Expr.render_apply, Name.shown_plain]
    exact ⟨.call f d, hd.call hi hf.identifier, fun _ => hlet (by omega)⟩
  | call => exact hwritable.elim
  | seq i first second ihf ihs =>
    obtain ⟨hi, hf, hs⟩ := hwritable
    obtain ⟨df, hdf, -⟩ := (ihf hf hregular.1).wrap (by omega : 1 ≤ 5)
    obtain ⟨ds, hds, -⟩ := (ihs hs hregular.2).wrap (by omega : 0 ≤ 5)
    rw [Expr.render_seq]
    exact ⟨.comma df ds, hdf.comma hi hds, by simp [Expr.level]⟩
  | binary i op left right ihl ihr =>
    obtain ⟨hi, hl, hr⟩ := hwritable
    obtain ⟨hregl, hregr, hright⟩ := hregular
    -- A regular tree has no sum on the right of a sum, so the right operand is written one
    -- level tighter and its brackets are those the grammar asks for.
    rw [Expr.render_binary, Expr.rightLevel_eq, if_neg hright]
    rcases op.compares_or_adds with hop | hop
    · have hprecedence : op.precedence = 2 := by rcases hop with rfl | rfl <;> rfl
      rw [Expr.level, hprecedence]
      obtain ⟨dl, hdl, hletl⟩ := (ihl hl hregl).wrap (by omega : 2 ≤ 5)
      obtain ⟨dr, hdr, hletr⟩ := (ihr hr hregr).wrap (by omega : 3 ≤ 5)
      exact ⟨.compare op hop dl dr, hdl.compare hi hop (hletl (by omega)) hdr,
        fun _ => hletr (by omega)⟩
    · have hprecedence : op.precedence = 3 := by rcases hop with rfl | rfl <;> rfl
      rw [Expr.level, hprecedence]
      obtain ⟨dl, hdl, hletl⟩ := (ihl hl hregl).wrap (by omega : 3 ≤ 5)
      obtain ⟨dr, hdr, hletr⟩ := (ihr hr hregr).wrap (by omega : 4 ≤ 5)
      exact ⟨.add op hop dl dr, hdl.add hi hop (hletl (by omega)) hdr, fun _ => hletr (by omega)⟩
  | var i x =>
    obtain ⟨hi, hx⟩ := hwritable
    obtain ⟨x, rfl⟩ := Name.eq_plain hx.plain
    have hrender : (Expr.var i (.plain x)).render mode = x := Name.shown_plain x mode
    rw [hrender]
    exact ⟨.name x, .name hi hx.identifier, fun _ => rfl⟩
  | num i n => exact ⟨.number n.text, .number hwritable.1 hwritable.2, fun _ => rfl⟩
  | bool i b => exact ⟨.bool b, .bool hwritable b, fun _ => rfl⟩

end Stands

/-- A text that falls into the tokens of a greedy derivation parses to the derivation's tree. -/
theorem parse_of_spells {d : Derivation .sequence} {e : Expr} {text : String} (h : Spells d e text) :
    ∃ e', parse text = .ok e' ∧ e'.unplace = e.unplace := by
  obtain ⟨q, ts, hyield, hscan⟩ := h.lexes .start [] (by simp [Lexer.Breaks])
  have hsource : Stream.ofSource text = .of (Lexer.scanAll q []).2 ts := by
    rw [List.append_nil, Lexer.scanAll_nil, List.append_nil] at hscan
    rw [Stream.ofSource, hscan]
    rfl
  obtain ⟨e', hparse, htree⟩ := parse_of_derivation hsource hyield h.greedy
  exact ⟨e', hparse, htree.trans h.tree⟩

theorem parse_writable {source : String} {e : Expr} (h : parse source = .ok e) : e.Writable := by
  obtain ⟨ts, eof, d, hsource, hyield, -, htree⟩ := derivation_of_parse h
  have hproper : ∀ x ∈ d.yield, x.Proper := by
    intro x hx
    rw [← hyield] at hx
    obtain ⟨t, ht, rfl⟩ := List.mem_map.mp hx
    exact ofSource_proper (by rw [hsource]; exact List.mem_map_of_mem ht)
  rw [← Expr.unplace_writable, htree]
  exact d.tree_writable hproper

namespace Expr

variable {mark : Info → Info} {join : Info → BinOp → Expr → Expr → Expr} {e : Expr} {t : Ty}

theorem typecheck_rebuild (hjoin : Neutral join) :
    (e.rebuild mark join).typecheck.outcome = .ok t ↔ e.typecheck.outcome = .ok t := by
  rw [typecheck_outcome, typecheck_outcome, type?_rebuild hjoin]

/-- A checked tree does not fail, and neither does the rebuilt one, which has the same type. -/
theorem evaluate_rebuild (hjoin : Neutral join) (h : e.typecheck.outcome = .ok t) (depth : Nat) :
    (e.rebuild mark join).evaluate depth = e.evaluate depth := by
  have hsame : Eval.SameUnlessFails (e.eval [] depth []) ((e.rebuild mark join).eval [] depth []) :=
    eval_rebuild hjoin depth [] e
  have htype : (e.rebuild mark join).typecheck.outcome = .ok t := (typecheck_rebuild hjoin).mpr h
  rw [evaluate, evaluate, hsame.eq_of_safe (eval_safe_of_typecheck htype depth)]

end Expr

/-- What is printed of a parsed tree can be parsed. The tree that comes back is, up to places, the
first one with every sum on the right of a `+` put into the chain on its left, so the same tree
where there is none. It is printed in the same way; and if the first tree passes the check, then so
does the second, with the same type, and both come to the same at every depth. -/
theorem parse_render (mode : NameMode) {source : String} {t : Expr} (h : parse source = .ok t) :
    ∃ t', parse (t.render mode) = .ok t' ∧ t'.unplace = t.splice.unplace ∧
      (t.Regular → t'.unplace = t.unplace) ∧ t'.render mode = t.render mode ∧
      ∀ ty, t.typecheck.outcome = .ok ty →
        t'.typecheck.outcome = .ok ty ∧ ∀ depth, t'.evaluate depth = t.evaluate depth := by
  -- The text of `t` is that of its splice, the regular tree the parser reads back from it.
  have hsplice : Stands t.splice 0 (t.splice.render mode) :=
    (Stands.render mode t.splice (Expr.splice_writable.mpr (parse_writable h))
      t.splice_regular).loosen
      (Stands.level_le _) (Nat.zero_le _)
  obtain ⟨d, hd, -⟩ := hsplice
  obtain ⟨t', hparse, hunplace⟩ := parse_of_spells hd
  rw [Expr.splice, Expr.render_rebuild Expr.neutral_join] at hparse
  refine ⟨t', hparse, hunplace, fun hregular => ?_, ?_, fun ty hty => ?_⟩
  · rw [hunplace, Expr.splice_of_regular hregular]
  · calc t'.render mode
        = t'.unplace.render mode := (Expr.render_rebuild Expr.neutral_binary mode t').symm
      _ = t.splice.unplace.render mode := by rw [hunplace]
      _ = t.splice.render mode := Expr.render_rebuild Expr.neutral_binary mode t.splice
      _ = t.render mode := Expr.render_rebuild Expr.neutral_join mode t
  · have hspliced : t.splice.typecheck.outcome = .ok ty :=
      (Expr.typecheck_rebuild Expr.neutral_join).mpr hty
    have hty' : t'.typecheck.outcome = .ok ty := by
      have hchecked : t.splice.unplace.typecheck.outcome = .ok ty :=
        (Expr.typecheck_rebuild Expr.neutral_binary).mpr hspliced
      rw [← hunplace] at hchecked
      exact (Expr.typecheck_rebuild Expr.neutral_binary).mp hchecked
    refine ⟨hty', fun depth => ?_⟩
    calc t'.evaluate depth
        = t'.unplace.evaluate depth := (Expr.evaluate_rebuild Expr.neutral_binary hty' depth).symm
      _ = t.splice.unplace.evaluate depth := by rw [hunplace]
      _ = t.splice.evaluate depth := Expr.evaluate_rebuild Expr.neutral_binary hspliced depth
      _ = t.evaluate depth := Expr.evaluate_rebuild Expr.neutral_join hty depth

def nestedSums : String := "let f x : num -> num = 1 + (x - 2 + (3 + x)) in f 4 < 100"

theorem parse_render_nestedSums :
    ∃ t t', parse nestedSums = .ok t ∧
      t.render .display = "let f x : num -> num = 1 + x - 2 + 3 + x in f 4 < 100" ∧
      t.typecheck.outcome = .ok .bool ∧ parse (t.render .display) = .ok t' ∧
      t'.unplace = t.splice.unplace ∧ (t.Regular → t'.unplace = t.unplace) ∧
      t'.render .display = t.render .display ∧ t'.typecheck.outcome = .ok .bool ∧
      ∀ depth, t'.evaluate depth = t.evaluate depth := by
  have hparse : (parse nestedSums).toOption.map (fun t => (t.render .display, t.typecheck.outcome)) =
      some ("let f x : num -> num = 1 + x - 2 + 3 + x in f 4 < 100", .ok .bool) := by cbv
  obtain ⟨t, ht, heq⟩ := exists_of_parse hparse
  obtain ⟨hrender, hcheck⟩ := Prod.mk.inj heq
  obtain ⟨t', hparse', hunplace, hregular, hrender', hmeaning⟩ := parse_render .display ht
  obtain ⟨hcheck', heval⟩ := hmeaning .bool hcheck
  exact ⟨t, t', ht, hrender, hcheck, hparse', hunplace, hregular, hrender', hcheck', heval⟩

end LetStack
