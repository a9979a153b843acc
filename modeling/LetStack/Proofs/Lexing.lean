import Mathlib
import LetStack.Proofs.Grammar

namespace LetStack

structure Identifier (x : String) : Prop where
  chars : ∃ c cs, x.toList = c :: cs ∧ Lexer.isIdentStart c = true ∧
    ∀ d ∈ cs, Lexer.isIdentRest d = true
  kind : Token.Kind.ofIdentifier x = .ident

/-- The symbol may stand in a text: it is spelled as its kind demands, and it is not the end. -/
def Symbol.Proper (x : Symbol) : Prop :=
  match x.kind with
  | .ident => Identifier x.spelling
  | .number => Text.decimal x.spelling.toList ≤ Word.greatest
  | .eof => False
  | _ => True

namespace Lexer

theorem scanAll_eq (p : Position) (cs : List Char) :
    scanAll p cs = match skipTrivia false p cs with
      | (q, []) => ([], ⟨.eof, "", .point q.line q.col⟩)
      | (q, c :: cs) =>
        let b := bite c cs
        let tail := scanAll (q.after (c :: b.tail)) b.rest
        (b.scan q (String.ofList (c :: b.tail)) :: tail.1, tail.2) := by
  rw [scanAll]
  split <;> simp_all

theorem ofIdentifier_proper {c : Char} {cs : List Char} (hc : isIdentStart c = true)
    (hcs : ∀ d ∈ cs, isIdentRest d = true) (span : Span) :
    Symbol.Proper (Token.symbol
      ⟨.ofIdentifier (String.ofList (c :: cs)), String.ofList (c :: cs), span⟩) := by
  cases hkind : Token.Kind.ofIdentifier (String.ofList (c :: cs)) with
  | ident => exact ⟨⟨c, cs, String.toList_ofList, hc, hcs⟩, hkind⟩
  | number | eof =>
    unfold Token.Kind.ofIdentifier at hkind
    split at hkind <;> simp at hkind
  | _ => trivial

theorem bite_proper {c : Char} {cs : List Char} {kind : Token.Kind} (span : Span)
    (h : (bite c cs).verdict = .ok kind) :
    Symbol.Proper (Token.symbol ⟨kind, String.ofList (c :: (bite c cs).tail), span⟩) := by
  unfold bite at h ⊢
  split at h
  next hdigit =>
    simp only [biteNumber] at h
    split at h
    · simp at h
    · split at h
      next hle =>
        obtain rfl := Except.ok.inj h
        simpa [Symbol.Proper, Token.symbol, biteNumber, hdigit] using hle
      next => simp at h
  next hdigit =>
    split at h
    next hstart =>
      obtain rfl := Except.ok.inj h
      simp only [hdigit, hstart, if_true, if_false, Bool.false_eq_true, biteIdentifier]
      exact ofIdentifier_proper hstart (List.all_eq_true.mp List.all_takeWhile) span
    next hstart =>
      unfold biteSymbol at h
      split at h <;> first | (obtain rfl := Except.ok.inj h; trivial) | simp at h

theorem scanAll_proper {p : Position} {cs : List Char} {t : Token} (ht : .ok t ∈ (scanAll p cs).1) :
    t.symbol.Proper := by
  fun_induction scanAll p cs with
  | case1 => simp at ht
  | case2 p cs q c cs' h _ b scans eof heq ih =>
    rcases List.mem_cons.mp ht with ht | ht
    · unfold Bite.scan at ht
      split at ht
      next kind hkind =>
        obtain rfl := Except.ok.inj ht
        exact bite_proper _ hkind
      next => simp at ht
    · rw [heq] at ih
      exact ih ht

theorem exists_scanAll_eof (p : Position) (cs : List Char) :
    ∃ span, (scanAll p cs).2 = ⟨.eof, "", span⟩ := by
  fun_induction scanAll p cs with
  | case1 => exact ⟨_, rfl⟩
  | case2 p cs q c cs' h _ b scans eof heq ih =>
    rw [heq] at ih
    exact ih

theorem scanAll_eof (p : Position) (cs : List Char) : (scanAll p cs).2.kind = .eof := by
  obtain ⟨span, h⟩ := exists_scanAll_eof p cs
  rw [h]

def Breaks (rest : List Char) : Prop := ∀ c ∈ rest.head?, c = ' ' ∨ c = ')' ∨ c = ','

/-- In front of what ends a token, the text falls into tokens with these symbols. -/
def Lexes (text : List Char) (w : List Symbol) : Prop :=
  ∀ p rest, Breaks rest → ∃ q, ∃ ts : List Token, ts.map Token.symbol = w ∧
    scanAll p (text ++ rest) = (ts.map .ok ++ (scanAll q rest).1, (scanAll q rest).2)

theorem scanAll_blank {c : Char} (h : Text.isBlank c = true) (p : Position) (cs : List Char) :
    scanAll p (c :: cs) = scanAll (p.step c) cs := by
  rw [scanAll_eq, scanAll_eq (p.step c), skipTrivia]
  simp [h]

theorem scanAll_nil (p : Position) : (scanAll p []).1 = [] := by
  rw [scanAll_eq]
  rfl

theorem scanAll_cons {c : Char} (hblank : Text.isBlank c = false) (hslash : c ≠ '/') (p : Position)
    (cs : List Char) :
    scanAll p (c :: cs) =
      let b := bite c cs
      let tail := scanAll (p.after (c :: b.tail)) b.rest
      (b.scan p (String.ofList (c :: b.tail)) :: tail.1, tail.2) := by
  rw [scanAll_eq, skipTrivia]
  simp [hblank, hslash]

theorem scanAll_token {c : Char} (cs : List Char) {rest : List Char} {kind : Token.Kind}
    (hblank : Text.isBlank c = false) (hslash : c ≠ '/')
    (hbite : bite c (cs ++ rest) = ⟨cs, rest, .ok kind⟩) (p : Position) :
    ∃ q, ∃ t : Token, t.kind = kind ∧ t.lexeme = String.ofList (c :: cs) ∧
      scanAll p (c :: cs ++ rest) = (.ok t :: (scanAll q rest).1, (scanAll q rest).2) := by
  let lexeme := String.ofList (c :: cs)
  refine ⟨p.after (c :: cs), ⟨kind, lexeme, ⟨p.line, p.col, lexeme.utf8ByteSize⟩⟩, rfl, rfl, ?_⟩
  rw [List.cons_append, scanAll_cons hblank hslash, hbite]
  rfl

theorem Breaks.head_not {rest : List Char} (h : Breaks rest) {f : Char → Bool}
    (hf : f ' ' = false ∧ f ')' = false ∧ f ',' = false) : ∀ c ∈ rest.head?, f c = false := by
  intro c hc
  rcases h c hc with rfl | rfl | rfl
  · exact hf.1
  · exact hf.2.1
  · exact hf.2.2

/-- A run of characters ends where the next one is of another kind. -/
theorem takeWhile_append_eq {f : Char → Bool} {cs rest : List Char} (hcs : ∀ c ∈ cs, f c = true)
    (hrest : ∀ c ∈ rest.head?, f c = false) :
    (cs ++ rest).takeWhile f = cs ∧ (cs ++ rest).dropWhile f = rest := by
  rw [List.takeWhile_append_of_pos hcs, List.dropWhile_append_of_pos hcs]
  cases rest with
  | nil => simp
  | cons c rest => simp [hrest c rfl]

theorem isDigit_of_isIdentStart {c : Char} (h : isIdentStart c = true) : c.isDigit = false := by
  simp [isIdentStart, Char.isAlpha, Char.isUpper, Char.isLower, Char.isDigit,
    UInt32.le_iff_toNat_le, Char.ext_iff, ← UInt32.toNat_inj] at h ⊢
  omega

/-- A digit or a letter is neither blank nor the start of a comment. -/
theorem not_trivia {c : Char} (h : c.isDigit = true ∨ isIdentStart c = true) :
    Text.isBlank c = false ∧ c ≠ '/' := by
  simp [isIdentStart, Char.isAlpha, Char.isUpper, Char.isLower, Char.isDigit, Text.isBlank,
    Text.blankRanges, UInt32.le_iff_toNat_le, Char.ext_iff, ← UInt32.toNat_inj] at h ⊢
  omega

namespace Lexes

variable {a b : List Char} {u v : List Symbol}

theorem nil : Lexes [] [] := fun p _ _ => ⟨p, [], rfl, rfl⟩

theorem append (ha : Lexes a u) (hb : Lexes b v)
    (hbreaks : ∀ rest, Breaks rest → Breaks (b ++ rest)) :
    Lexes (a ++ b) (u ++ v) := by
  intro p rest hrest
  obtain ⟨q, ts, hts, hq⟩ := ha p (b ++ rest) (hbreaks rest hrest)
  obtain ⟨r, us, hus, hr⟩ := hb q rest hrest
  refine ⟨r, ts ++ us, by rw [List.map_append, hts, hus], ?_⟩
  rw [List.append_assoc, hq, hr, List.map_append, List.append_assoc]

/-- A space between two texts keeps them apart. -/
theorem space (ha : Lexes a u) (hb : Lexes b v) : Lexes (a ++ ' ' :: b) (u ++ v) := by
  have hspace : Lexes (' ' :: b) v := by
    intro p rest hrest
    obtain ⟨q, ts, hts, hq⟩ := hb (p.step ' ') rest hrest
    exact ⟨q, ts, hts, by rw [List.cons_append, scanAll_blank rfl, hq]⟩
  exact ha.append hspace fun _ _ => by simp [Breaks]

/-- One token, if what ends it is no part of it. -/
theorem token {c : Char} {cs : List Char} {kind : Token.Kind} {x : Symbol}
    (hblank : Text.isBlank c = false) (hslash : c ≠ '/')
    (hbite : ∀ rest, Breaks rest → bite c (cs ++ rest) = ⟨cs, rest, .ok kind⟩)
    (hsymbol : ∀ t : Token, t.kind = kind → t.lexeme = String.ofList (c :: cs) → t.symbol = x) :
    Lexes (c :: cs) [x] := by
  intro p rest hrest
  obtain ⟨q, t, hkind, hlexeme, hscan⟩ := scanAll_token cs hblank hslash (hbite rest hrest) p
  exact ⟨q, [t], by rw [List.map_singleton, hsymbol t hkind hlexeme], hscan⟩

/-- The signs that are tokens whatever follows. -/
theorem cons {c : Char} {kind : Token.Kind}
    (hc : (c, kind) ∈ [('(', .leftParen), (')', .rightParen), (',', Token.Kind.comma)])
    (ha : Lexes a u) : Lexes (c :: a) (.of kind :: u) := by
  intro p rest hrest
  have hbite : Text.isBlank c = false ∧ c ≠ '/' ∧ bite c (a ++ rest) = ⟨[], a ++ rest, .ok kind⟩ ∧
      kind ≠ .ident ∧ kind ≠ .number := by
    simp only [List.mem_cons, Prod.mk.injEq, List.not_mem_nil, or_false] at hc
    rcases hc with ⟨rfl, rfl⟩ | ⟨rfl, rfl⟩ | ⟨rfl, rfl⟩ <;>
      exact ⟨by decide, by decide, rfl, by decide, by decide⟩
  obtain ⟨hblank, hslash, hbite, hident, hnumber⟩ := hbite
  obtain ⟨q, t, hkind, -, hscan⟩ := scanAll_token [] hblank hslash hbite p
  obtain ⟨r, ts, hts, hr⟩ := ha q rest hrest
  refine ⟨r, t :: ts, by rw [List.map_cons, hts, Token.symbol_of_kind hkind hident hnumber], ?_⟩
  calc scanAll p (c :: a ++ rest)
      = (.ok t :: (scanAll q (a ++ rest)).1, (scanAll q (a ++ rest)).2) := hscan
    _ = _ := by rw [hr]; rfl

theorem paren (ha : Lexes a u) :
    Lexes ('(' :: (a ++ [')'])) (.of .leftParen :: (u ++ [.of .rightParen])) :=
  cons (by simp) (ha.append (cons (by simp) nil) fun _ _ => by simp [Breaks])

theorem comma (ha : Lexes a u) (hb : Lexes b v) :
    Lexes (a ++ ',' :: ' ' :: b) (u ++ .of .comma :: v) :=
  ha.append (cons (by simp) (nil.space hb)) fun _ _ => by simp [Breaks]

/-- The other signs. -/
theorem sign (text : String) (kind : Token.Kind)
    (h : (text, kind) ∈ [("+", .plus), ("-", .minus), ("==", .equalEqual), ("<", Token.Kind.less),
      ("=", .equal), (":", .colon), ("->", .arrow)]) : Lexes text.toList [.of kind] := by
  simp only [List.mem_cons, Prod.mk.injEq, List.not_mem_nil, or_false] at h
  rcases h with ⟨rfl, rfl⟩ | ⟨rfl, rfl⟩ | ⟨rfl, rfl⟩ | ⟨rfl, rfl⟩ | ⟨rfl, rfl⟩ |
    ⟨rfl, rfl⟩ | ⟨rfl, rfl⟩
  all_goals
    refine token (by decide) (by decide) (fun rest hrest => ?_) fun t hkind _ =>
      Token.symbol_of_kind hkind (by decide) (by decide)
    cases rest with
    | nil => rfl
    | cons c rest => rcases hrest c rfl with rfl | rfl | rfl <;> rfl

theorem operator (op : BinOp) : Lexes op.symbol.toList [.of op.kind] := by
  cases op <;> exact sign _ _ (by simp [BinOp.symbol, BinOp.kind])

theorem word {c : Char} {cs : List Char} {x : Symbol} (hc : isIdentStart c = true)
    (hcs : ∀ d ∈ cs, isIdentRest d = true)
    (hsymbol : ∀ t : Token, t.kind = .ofIdentifier (String.ofList (c :: cs)) →
      t.lexeme = String.ofList (c :: cs) → t.symbol = x) : Lexes (c :: cs) [x] := by
  obtain ⟨hblank, hslash⟩ := not_trivia (.inr hc)
  refine token hblank hslash (fun rest hrest => ?_) hsymbol
  obtain ⟨htake, hdrop⟩ := takeWhile_append_eq hcs (hrest.head_not (by decide))
  simp only [bite, isDigit_of_isIdentStart hc, hc, biteIdentifier, htake, hdrop, if_true,
    if_false, Bool.false_eq_true]

theorem identifier {x : String} (h : Identifier x) : Lexes x.toList [⟨.ident, x⟩] := by
  obtain ⟨⟨c, cs, hx, hc, hcs⟩, hkind⟩ := h
  have hlist : String.ofList (c :: cs) = x := by rw [← hx, String.ofList_toList]
  rw [hx]
  refine word hc hcs fun t ht hlexeme => ?_
  rw [hlist] at ht hlexeme
  rw [Token.symbol_ident (ht.trans hkind), hlexeme]

theorem keyword (text : String) (kind : Token.Kind)
    (h : (text, kind) ∈ [("let", .letKw), ("in", .inKw), ("num", .numTy),
      ("bool", Token.Kind.boolTy),
      ("true", .trueLit), ("false", .falseLit)]) : Lexes text.toList [.of kind] := by
  simp only [List.mem_cons, Prod.mk.injEq, List.not_mem_nil, or_false] at h
  rcases h with ⟨rfl, rfl⟩ | ⟨rfl, rfl⟩ | ⟨rfl, rfl⟩ | ⟨rfl, rfl⟩ | ⟨rfl, rfl⟩ | ⟨rfl, rfl⟩
  all_goals
    exact word (by decide) (List.all_eq_true.mp (by decide)) fun t hkind _ =>
      Token.symbol_of_kind hkind (by decide) (by decide)

theorem type (ty : Ty) : Lexes ty.keyword.toList [.of ty.kind] := by
  cases ty <;> exact keyword _ _ (by simp [Ty.keyword, Ty.kind])

theorem number {n : Nat} (h : n ≤ Word.greatest) :
    Lexes (toString n).toList [⟨.number, toString n⟩] := by
  have hdecimal : Text.decimal (Nat.toDigits 10 n) = n := Nat.ofDigitChars_ten_toDigits
  have hdigits : ∀ c ∈ Nat.toDigits 10 n, c.isDigit = true := fun c hc =>
    Nat.isDigit_of_mem_toDigits (by decide) (by decide) hc
  have hlist : (toString n).toList = Nat.toDigits 10 n := by simp
  cases hn : Nat.toDigits 10 n with
  | nil => exact absurd hn Nat.toDigits_ne_nil
  | cons c cs =>
    rw [hn] at hlist hdigits hdecimal
    rw [hlist]
    obtain ⟨hblank, hslash⟩ := not_trivia (.inl (hdigits c (by simp)))
    refine token hblank hslash (fun rest hrest => ?_) fun t (hkind : t.kind = .number) hlexeme => ?_
    · obtain ⟨htake, hdrop⟩ :=
        takeWhile_append_eq (fun d hd => hdigits d (List.mem_cons_of_mem c hd))
        (hrest.head_not (by decide))
      have hnext : rest.head?.any isIdentStart = false := by
        have hnot := hrest.head_not (f := isIdentStart) (by decide)
        cases rest with
        | nil => rfl
        | cons d rest => exact hnot d rfl
      simp only [bite, hdigits c (by simp), biteNumber, htake, hdrop, hnext, hdecimal, h, if_true,
        if_false, Bool.false_eq_true]
    · rw [Token.symbol_number hkind, hlexeme, ← hlist, String.ofList_toList]

end Lexes

end Lexer

end LetStack
