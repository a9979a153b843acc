import LetStack.Proofs.TokenLayout

namespace LetStack

namespace Lexer

def Stops (w : List Char) : Prop := ∀ c ∈ w.head?, isIdentRest c = false ∧ c ≠ '>' ∧ c ≠ '='

/-- What follows a token looks like what followed it before, or ends every token. -/
def Resumes (rest w : List Char) : Prop := w.head? = rest.head? ∨ Stops w

theorem isIdentRest_of_isDigit {c : Char} (h : c.isDigit = true) : isIdentRest c = true := by
  simp [isIdentRest, Char.isAlphanum, h]

theorem Resumes.head_not {rest w : List Char} (h : Resumes rest w) {f : Char → Bool}
    (hf : ∀ {c}, f c = true → isIdentRest c = true) (hrest : ∀ c ∈ rest.head?, f c = false) :
    ∀ c ∈ w.head?, f c = false := by
  intro c hc
  rcases h with h | h
  · exact hrest c (h ▸ hc)
  · by_contra hnot
    have hident := hf (Bool.eq_true_of_not_eq_false hnot)
    rw [(h c hc).1] at hident
    cases hident

theorem Resumes.head_ne {rest w : List Char} (h : Resumes rest w) {d : Char} (hd : d = '>' ∨ d = '=')
    (hrest : rest.head? ≠ some d) : w.head? ≠ some d := by
  rcases h with h | h
  · rwa [h]
  · intro heq
    obtain ⟨-, hgt, heq⟩ := h d heq
    exact hd.elim hgt heq

theorem Resumes.of_append {rest pre w : List Char} (h : pre <+: rest) :
    Resumes rest (pre ++ ' ' :: w) := by
  obtain ⟨more, rfl⟩ := h
  cases pre with
  | nil => exact .inr fun c hc => by cases hc; decide
  | cons c pre => exact .inl rfl

theorem dropWhile_head_not (f : Char → Bool) (cs : List Char) :
    ∀ c ∈ (cs.dropWhile f).head?, f c = false := by
  intro c hc
  have hnot := List.head?_dropWhile_not f cs
  rwa [Option.mem_def.mp hc] at hnot

theorem biteSymbol_minus {cs : List Char} (h : cs.head? ≠ some '>') :
    biteSymbol '-' cs = ⟨[], cs, .ok .minus⟩ := by
  unfold biteSymbol
  split <;> simp_all

theorem biteSymbol_equal {cs : List Char} (h : cs.head? ≠ some '=') :
    biteSymbol '=' cs = ⟨[], cs, .ok .equal⟩ := by
  unfold biteSymbol
  split <;> simp_all

theorem biteSymbol_again {c : Char} {cs w : List Char} {kind : Token.Kind}
    (h : (biteSymbol c cs).verdict = .ok kind) (hw : Resumes (biteSymbol c cs).rest w) :
    biteSymbol c ((biteSymbol c cs).tail ++ w) = ⟨(biteSymbol c cs).tail, w, .ok kind⟩ := by
  have hne {d : Char} (hcs : ∀ rest, cs = d :: rest → False) : cs.head? ≠ some d := by
    intro hhead
    obtain ⟨rest, hrest⟩ := List.head?_eq_some_iff.mp hhead
    exact hcs rest hrest
  -- the two signs that may be the beginning of a longer one need the rest, the others do not
  unfold biteSymbol at h
  split at h <;> cases h
  case h_4 hcs =>
    rw [biteSymbol_minus (hne hcs)] at hw ⊢
    rw [List.nil_append, biteSymbol_minus (hw.head_ne (.inl rfl) (hne hcs))]
  case h_5 hcs =>
    rw [biteSymbol_equal (hne hcs)] at hw ⊢
    rw [List.nil_append, biteSymbol_equal (hw.head_ne (.inr rfl) (hne hcs))]
  all_goals rfl

theorem biteNumber_again {c : Char} {cs w : List Char} {kind : Token.Kind}
    (h : (biteNumber c cs).verdict = .ok kind) (hw : Resumes (biteNumber c cs).rest w) :
    biteNumber c ((biteNumber c cs).tail ++ w) = ⟨(biteNumber c cs).tail, w, .ok kind⟩ := by
  obtain ⟨htake, hdrop⟩ := takeWhile_append_eq (List.all_eq_true.mp (List.all_takeWhile (l := cs)))
    (hw.head_not isIdentRest_of_isDigit (dropWhile_head_not Char.isDigit cs))
  simp only [biteNumber] at h
  split at h
  next => cases h
  next hident =>
    have hrest := (Option.any_eq_false _ _).mp (Bool.eq_false_iff.mpr hident)
    have hnext := (Option.any_eq_false _ _).mpr (hw.head_not isIdentRest_of_isIdentStart hrest)
    change biteNumber c (cs.takeWhile Char.isDigit ++ w) = ⟨cs.takeWhile Char.isDigit, w, .ok kind⟩
    simp only [biteNumber, htake, hdrop, hnext, h, if_false, Bool.false_eq_true]

theorem biteIdentifier_again {c : Char} {cs w : List Char}
    (hw : Resumes (biteIdentifier c cs).rest w) :
    biteIdentifier c ((biteIdentifier c cs).tail ++ w) =
      ⟨(biteIdentifier c cs).tail, w, (biteIdentifier c cs).verdict⟩ := by
  simp only [biteIdentifier] at hw ⊢
  obtain ⟨htake, hdrop⟩ := takeWhile_append_eq (List.all_eq_true.mp (List.all_takeWhile (l := cs)))
    (hw.head_not id (dropWhile_head_not isIdentRest cs))
  rw [htake, hdrop]

theorem bite_again {c : Char} {cs w : List Char} {kind : Token.Kind}
    (h : (bite c cs).verdict = .ok kind) (hw : Resumes (bite c cs).rest w) :
    bite c ((bite c cs).tail ++ w) = ⟨(bite c cs).tail, w, .ok kind⟩ := by
  unfold bite at h hw ⊢
  split at h
  next hdigit =>
    rw [if_pos hdigit] at hw
    simp only [if_pos hdigit]
    exact biteNumber_again h hw
  next hdigit =>
    split at h
    next hident =>
      rw [if_neg hdigit, if_pos hident] at hw
      simp only [if_neg hdigit, if_pos hident]
      rw [biteIdentifier_again hw, h]
    next hident =>
      rw [if_neg hdigit, if_neg hident] at hw
      simp only [if_neg hdigit, if_neg hident]
      exact biteSymbol_again h hw

/-- Trivia is skipped whatever follows the character behind it, if no comment starts there. -/
theorem skipTrivia_again {inComment : Bool} {p q : Position} {c : Char} {cs rest : List Char}
    (h : skipTrivia inComment p cs = (q, c :: rest)) (hc : c ≠ '/') :
    ∃ gap, cs = gap ++ c :: rest ∧
      ∀ rest', skipTrivia inComment p (gap ++ c :: rest') = (q, c :: rest') := by
  fun_induction skipTrivia inComment p cs with
  | case1 => simp at h
  | case2 p d cs ih =>
    obtain ⟨gap, rfl, hgap⟩ := ih h
    exact ⟨d :: gap, rfl, fun rest' => by simpa [skipTrivia] using hgap rest'⟩
  | case3 inComment p d cs hopen hblank ih =>
    obtain ⟨gap, rfl, hgap⟩ := ih h
    exact ⟨d :: gap, rfl, fun rest' => by simpa [skipTrivia, hopen, hblank] using hgap rest'⟩
  | case4 inComment p d cs hopen hblank hslash ih =>
    obtain ⟨gap, rfl, hgap⟩ := ih h
    obtain ⟨rfl, hslash⟩ := hslash
    refine ⟨'/' :: gap, rfl, fun rest' => ?_⟩
    have hhead : (gap ++ c :: rest').head? = some '/' := by simpa using hslash
    rw [List.cons_append, skipTrivia, if_neg hopen, if_neg hblank, if_pos ⟨rfl, hhead⟩, hgap]
  | case5 inComment p d cs hopen hblank hslash =>
    obtain ⟨rfl, rfl, rfl⟩ : p = q ∧ d = c ∧ cs = rest := by simpa using h
    exact ⟨[], rfl, fun rest' => by simp [skipTrivia, hopen, hblank, hc]⟩

/-- A text can be cut behind each of its tokens, and go on in any way behind a space. -/
theorem scanAll_cut {p : Position} {cs : List Char} {ts : List Token}
    {scans : List Scan} {eof : Token} (h : scanAll p cs = (ts.map .ok ++ scans, eof)) :
    ∃ pre, pre <+: cs ∧ ∀ rest, ∃ q, scanAll p (pre ++ ' ' :: rest) =
      (ts.map .ok ++ (scanAll q (' ' :: rest)).1, (scanAll q (' ' :: rest)).2) := by
  induction ts generalizing p cs with
  | nil => exact ⟨[], List.nil_prefix, fun rest => ⟨p, rfl⟩⟩
  | cons t ts ih =>
    rw [scanAll_eq] at h
    rcases hskip : skipTrivia false p cs with ⟨q, _ | ⟨c, rest⟩⟩
    · simp [hskip] at h
    simp only [hskip, List.map_cons, List.cons_append, Prod.mk.injEq, List.cons.injEq] at h
    obtain ⟨⟨hscan, hscans⟩, heof⟩ := h
    obtain ⟨hverdict, -⟩ := scan_eq_ok hscan
    obtain ⟨pre, hpre, hcut⟩ := ih (Prod.ext hscans heof)
    have hc : c ≠ '/' := by
      rintro rfl
      cases hverdict
    obtain ⟨gap, rfl, hgap⟩ := skipTrivia_again hskip hc
    -- The cut is made right behind the lexeme: the blank that follows it stops the bite there,
    -- whatever `more` is.
    refine ⟨gap ++ c :: ((bite c rest).tail ++ pre), ?_, fun more => ?_⟩
    · rw [List.prefix_append_right_inj, List.prefix_cons_inj]
      nth_rewrite 2 [bite_split c rest]
      exact (List.prefix_append_right_inj _).mpr hpre
    · obtain ⟨r, hr⟩ := hcut more
      refine ⟨r, ?_⟩
      have hbite := bite_again hverdict (Resumes.of_append (w := more) hpre)
      rw [List.append_assoc, List.cons_append, List.append_assoc, scanAll_eq, hgap]
      simp only [hbite, hr, List.map_cons, List.cons_append, Prod.mk.injEq, and_true,
        List.cons.injEq]
      rw [← hscan]
      simp only [Bite.scan, hverdict]

/-- Every kind but the end has a spelling. -/
theorem exists_spelling {kind : Token.Kind} (h : kind ≠ .eof) :
    ∃ text x, Lexes text [x] ∧ x.kind = kind := by
  cases kind with
  | number => exact ⟨_, _, Lexes.number (n := 1) (by decide), rfl⟩
  | ident => exact ⟨_, _, Lexes.identifier (x := "x") ⟨⟨'x', [], rfl, rfl, by simp⟩, rfl⟩, rfl⟩
  | comma => exact ⟨_, _, Lexes.cons (c := ',') (by simp) .nil, rfl⟩
  | leftParen => exact ⟨_, _, Lexes.cons (c := '(') (by simp) .nil, rfl⟩
  | rightParen => exact ⟨_, _, Lexes.cons (c := ')') (by simp) .nil, rfl⟩
  | trueLit => exact ⟨_, _, Lexes.keyword "true" _ (by simp), rfl⟩
  | falseLit => exact ⟨_, _, Lexes.keyword "false" _ (by simp), rfl⟩
  | letKw => exact ⟨_, _, Lexes.keyword "let" _ (by simp), rfl⟩
  | inKw => exact ⟨_, _, Lexes.keyword "in" _ (by simp), rfl⟩
  | numTy => exact ⟨_, _, Lexes.type .num, rfl⟩
  | boolTy => exact ⟨_, _, Lexes.type .bool, rfl⟩
  | plus => exact ⟨_, _, Lexes.operator .add, rfl⟩
  | minus => exact ⟨_, _, Lexes.operator .sub, rfl⟩
  | equalEqual => exact ⟨_, _, Lexes.operator .eq, rfl⟩
  | less => exact ⟨_, _, Lexes.operator .lt, rfl⟩
  | equal => exact ⟨_, _, Lexes.sign "=" _ (by simp), rfl⟩
  | colon => exact ⟨_, _, Lexes.sign ":" _ (by simp), rfl⟩
  | arrow => exact ⟨_, _, Lexes.sign "->" _ (by simp), rfl⟩
  | eof => exact absurd rfl h

theorem exists_text {kinds : List Token.Kind} (h : .eof ∉ kinds) :
    ∃ text w, Lexes text w ∧ w.map Symbol.kind = kinds := by
  induction kinds with
  | nil => exact ⟨[], [], .nil, rfl⟩
  | cons kind kinds ih =>
    obtain ⟨hne, hkinds⟩ := not_or.mp (List.mem_cons.not.mp h)
    obtain ⟨text, x, htext, hx⟩ := exists_spelling (Ne.symm hne)
    obtain ⟨more, w, hmore, hw⟩ := ih hkinds
    exact ⟨text ++ ' ' :: more, [x] ++ w, htext.space hmore, by simp [hx, hw]⟩

end Lexer

/-- Behind any of its tokens, a text can go on with tokens of any kinds. -/
theorem exists_continued {source : String} {ts us : List Token} {eof : Token}
    (h : Stream.ofSource source = .of eof (ts ++ us)) {kinds : List Token.Kind}
    (hkinds : .eof ∉ kinds) :
    ∃ (source' : String) (us' : List Token) (eof' : Token),
      Stream.ofSource source' = .of eof' (ts ++ us') ∧ us'.map Token.kind = kinds := by
  obtain ⟨text, w, htext, rfl⟩ := Lexer.exists_text hkinds
  obtain ⟨hscans, -⟩ := Stream.mk.injEq .. |>.mp h
  rw [List.map_append] at hscans
  obtain ⟨pre, -, hcut⟩ := Lexer.scanAll_cut (Prod.ext hscans rfl)
  obtain ⟨q, hq⟩ := hcut text
  obtain ⟨r, us', rfl, hr⟩ := htext (q.step ' ') [] (by simp [Lexer.Breaks])
  rw [List.append_nil] at hr
  refine ⟨String.ofList (pre ++ ' ' :: text), us', (Lexer.scanAll r []).2, ?_, by simp⟩
  rw [Stream.ofSource, String.toList_ofList, hq, Lexer.scanAll_blank rfl, hr, Lexer.scanAll_nil]
  simp [Stream.of]

end LetStack
