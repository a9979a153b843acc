import LetStack.Proofs.ContinuedTexts

namespace LetStack

def Token.written (t : Token) : Kind × String := (t.kind, t.lexeme)

def lexemes (tokens : List Token) : List String :=
  (tokens.filter (·.kind ≠ .eof)).map Token.lexeme

namespace Lexer

/-- The text consists of these lexemes in this order. Trivia keeps each from the next, and may
follow the last one. -/
inductive Spread : List String → List Char → Prop
  | nil : Spread [] []
  | last {x : String} {gap : List Char} (hgap : Trivia [] gap) : Spread [x] (x.toList ++ gap)
  | cons {x y : String} {xs : List String} {gap rest : List Char} (hgap : Trivia rest gap)
      (hapart : gap ≠ []) (h : Spread (y :: xs) rest) :
      Spread (x :: y :: xs) (x.toList ++ (gap ++ rest))

theorem spread_intercalate (xs : List String) : Spread xs (" ".intercalate xs).toList := by
  induction xs with
  | nil => exact .nil
  | cons x xs ih =>
    cases xs with
    | nil => simpa using Spread.last (x := x) .nil
    | cons y xs =>
      have hspread := Spread.cons (x := x) (.blank (c := ' ') (by decide) .nil) (by simp) ih
      simpa [String.intercalate_cons_cons] using hspread

theorem skipTrivia_comment {body w : List Char} (hbody : '\n' ∉ body)
    (hend : ∀ c ∈ w.head?, c = '\n') (p : Position) :
    skipTrivia true p (body ++ w) = skipTrivia false (p.after body) w := by
  induction body generalizing p with
  | nil =>
    cases w with
    | nil => rfl
    | cons c w =>
      obtain rfl := hend c rfl
      rfl
  | cons c body ih =>
    obtain ⟨hc, hbody⟩ := not_or.mp (List.mem_cons.not.mp hbody)
    have hopen : (c != '\n') = true := bne_iff_ne.mpr (Ne.symm hc)
    rw [List.cons_append, skipTrivia, if_pos rfl, hopen, ih hbody]
    rfl

theorem skipTrivia_trivia {rest gap : List Char} (h : Trivia rest gap) (p : Position) :
    skipTrivia false p (gap ++ rest) = skipTrivia false (p.after gap) rest := by
  induction h generalizing p with
  | nil => rfl
  | blank hc h ih =>
    rw [List.cons_append, skipTrivia, if_neg Bool.false_ne_true, if_pos hc, ih]
    rfl
  | @comment body cs hbody hend h ih =>
    calc skipTrivia false p ('/' :: '/' :: (body ++ cs) ++ rest)
        = skipTrivia true ((p.step '/').step '/') (body ++ (cs ++ rest)) := by
          rw [List.cons_append, List.cons_append, List.append_assoc]
          rfl
      _ = skipTrivia false (((p.step '/').step '/').after body) (cs ++ rest) :=
          skipTrivia_comment hbody hend _
      _ = skipTrivia false (p.after ('/' :: '/' :: (body ++ cs))) rest := by
          rw [ih, ← Position.after_append]
          rfl

theorem scanAll_trivia {rest gap : List Char} (h : Trivia rest gap) (p : Position) :
    scanAll p (gap ++ rest) = scanAll (p.after gap) rest := by
  rw [scanAll_eq, scanAll_eq (p.after gap), skipTrivia_trivia h]

theorem stops_of_blank {c : Char} (h : Text.isBlank c = true) (w : List Char) : Stops (c :: w) := by
  intro d hd
  obtain rfl : c = d := Option.some.inj hd
  have hnot {f : Char → Bool} (hf : f c = true → Text.isBlank c = false) : f c = false := by
    by_contra hfalse
    rw [hf (Bool.eq_true_of_not_eq_false hfalse)] at h
    cases h
  have hdigit : c.isDigit = false := hnot fun hc => (not_trivia (.inl hc)).1
  have hstart : isIdentStart c = false := hnot fun hc => (not_trivia (.inr hc)).1
  refine ⟨?_, ?_, ?_⟩
  · simp_all [isIdentStart, isIdentRest, Char.isAlphanum]
  · rintro rfl
    exact absurd h (by decide)
  · rintro rfl
    exact absurd h (by decide)

/-- Trivia ends the token in front of it. -/
theorem stops_of_trivia {rest gap : List Char} (h : Trivia rest gap) (hne : gap ≠ []) :
    Stops (gap ++ rest) := by
  cases h with
  | nil => exact absurd rfl hne
  | blank hc h => exact stops_of_blank hc _
  | comment hbody hend h =>
    intro c hc
    obtain rfl : '/' = c := Option.some.inj hc
    decide

/-- Wherever it is not carried on, the lexeme is bitten off as a token of this kind. -/
def Lexeme (kind : Token.Kind) (x : String) : Prop :=
  ∃ c cs, x.toList = c :: cs ∧ Text.isBlank c = false ∧ c ≠ '/' ∧
    ∀ w, Stops w → bite c (cs ++ w) = ⟨cs, w, .ok kind⟩

theorem bite_not_trivia {c : Char} {cs : List Char} {kind : Token.Kind}
    (h : (bite c cs).verdict = .ok kind) : Text.isBlank c = false ∧ c ≠ '/' := by
  unfold bite at h
  split at h
  next hdigit => exact not_trivia (.inl hdigit)
  next =>
    split at h
    next hstart => exact not_trivia (.inr hstart)
    next =>
      unfold biteSymbol at h
      split at h
      case h_11 => cases h
      all_goals decide

theorem lexeme_of_bite {c : Char} {cs : List Char} {kind : Token.Kind}
    (h : (bite c cs).verdict = .ok kind) : Lexeme kind (String.ofList (c :: (bite c cs).tail)) := by
  obtain ⟨hblank, hslash⟩ := bite_not_trivia h
  exact ⟨c, (bite c cs).tail, String.toList_ofList, hblank, hslash, fun w hw =>
    bite_again h (.inr hw)⟩

theorem scanAll_lexeme {p : Position} {cs : List Char} {t : Token} (ht : .ok t ∈ (scanAll p cs).1) :
    Lexeme t.kind t.lexeme := by
  fun_induction scanAll p cs with
  | case1 => simp at ht
  | case2 p cs q c cs' h _ b scans eof heq ih =>
    rcases List.mem_cons.mp ht with ht | ht
    · obtain ⟨hverdict, ht⟩ := scan_eq_ok ht.symm
      rw [ht]
      exact lexeme_of_bite hverdict
    · rw [heq] at ih
      exact ih ht

/-- In front of what does not carry it on, a lexeme is read as one token. -/
theorem Lexeme.scanAll {kind : Token.Kind} {x : String} (h : Lexeme kind x) {w : List Char}
    (hw : Stops w) (p : Position) :
    ∃ q t, t.written = (kind, x) ∧
      scanAll p (x.toList ++ w) = (.ok t :: (scanAll q w).1, (scanAll q w).2) := by
  obtain ⟨c, cs, hx, hblank, hslash, hbite⟩ := h
  obtain ⟨q, t, hkind, hlexeme, hscan⟩ := scanAll_token cs hblank hslash (hbite w hw) p
  refine ⟨q, t, ?_, by rw [hx, hscan]⟩
  rw [Token.written, hkind, hlexeme, ← hx, String.ofList_toList]

theorem scanAll_gap {gap : List Char} (h : Trivia [] gap) (p : Position) :
    (scanAll p gap).1 = [] := by
  have hgap := scanAll_trivia h p
  rw [List.append_nil] at hgap
  rw [hgap, scanAll_nil]

/-- Lexemes that are kept apart are read one by one. -/
theorem Spread.scanAll {items : List (Token.Kind × String)} {text : List Char}
    (h : Spread (items.map Prod.snd) text) (hitems : ∀ x ∈ items, Lexeme x.1 x.2) (p : Position) :
    ∃ ts : List Token, ts.map Token.written = items ∧ (scanAll p text).1 = ts.map .ok := by
  generalize hxs : items.map Prod.snd = xs at h
  induction h generalizing items p with
  | nil =>
    obtain rfl := List.map_eq_nil_iff.mp hxs
    exact ⟨[], rfl, scanAll_nil p⟩
  | @last _ gap hgap =>
    obtain ⟨⟨kind, x⟩, rfl, rfl⟩ := List.map_eq_singleton_iff.mp hxs
    -- Behind the last lexeme the gap may be empty: the end of the text stops it as well.
    have hstops : Stops gap := by
      by_cases hne : gap = []
      · simp [hne, Stops]
      · simpa using stops_of_trivia hgap hne
    obtain ⟨q, t, ht, hscan⟩ := (hitems (kind, x) (by simp)).scanAll hstops p
    refine ⟨[t], by rw [List.map_singleton, ht], ?_⟩
    rw [hscan, scanAll_gap hgap]
    rfl
  | @cons _ y xs gap rest hgap hapart h ih =>
    obtain ⟨⟨kind, x⟩, items, rfl, rfl, hrest⟩ := List.map_eq_cons_iff.mp hxs
    obtain ⟨q, t, ht, hscan⟩ :=
      (hitems (kind, x) (by simp)).scanAll (stops_of_trivia hgap hapart) p
    obtain ⟨ts, hts, htail⟩ :=
      ih (fun z hz => hitems z (List.mem_cons_of_mem _ hz)) (q.after gap) hrest
    refine ⟨t :: ts, by rw [List.map_cons, ht, hts], ?_⟩
    rw [hscan, scanAll_trivia hgap, htail]
    rfl

theorem scanAll_eof_written (p : Position) (cs : List Char) :
    (scanAll p cs).2.written = (.eof, "") := by
  obtain ⟨span, h⟩ := exists_scanAll_eof p cs
  rw [h, Token.written]

end Lexer

theorem lexemes_concat {ts : List Token} {eof : Token} (hts : ∀ t ∈ ts, t.kind ≠ .eof)
    (heof : eof.kind = .eof) : lexemes (ts ++ [eof]) = ts.map Token.lexeme := by
  rw [lexemes, List.filter_append, List.filter_eq_self.mpr fun t ht => decide_eq_true (hts t ht)]
  simp [heof]

theorem kind_ne_eof_of_mem {p : Lexer.Position} {cs : List Char} {t : Token}
    (ht : .ok t ∈ (Lexer.scanAll p cs).1) : t.kind ≠ .eof := by
  intro hkind
  have hproper := Lexer.scanAll_proper ht
  rw [Token.symbol_of_kind hkind (by decide) (by decide)] at hproper
  exact hproper

/-- A text that keeps the lexemes of another one apart falls into the same tokens. -/
theorem tokenize_spread {source : String} {tokens : List Token} (h : tokenize source = .ok tokens)
    {gap body : List Char} (hgap : Lexer.Trivia body gap)
    (hbody : Lexer.Spread (lexemes tokens) body) :
    ∃ again, tokenize (String.ofList (gap ++ body)) = .ok again ∧
      again.map Token.written = tokens.map Token.written := by
  obtain ⟨ts, eof, rfl, hsource⟩ := ofSource_of_tokenize h
  obtain ⟨hscans, heof⟩ := Stream.mk.injEq .. |>.mp hsource
  have hmem : ∀ t ∈ ts, .ok t ∈ (Lexer.scanAll .start source.toList).1 := fun t ht => by
    rw [hscans]
    exact List.mem_map_of_mem ht
  have hlexemes : lexemes (ts ++ [eof]) = (ts.map Token.written).map Prod.snd := by
    rw [lexemes_concat (fun t ht => kind_ne_eof_of_mem (hmem t ht)) (heof ▸ Lexer.scanAll_eof _ _),
      List.map_map]
    rfl
  have hitems : ∀ x ∈ ts.map Token.written, Lexer.Lexeme x.1 x.2 := by
    intro x hx
    obtain ⟨t, ht, rfl⟩ := List.mem_map.mp hx
    exact Lexer.scanAll_lexeme (hmem t ht)
  rw [hlexemes] at hbody
  obtain ⟨us, hus, hagain⟩ := hbody.scanAll hitems (Lexer.Position.start.after gap)
  rw [← Lexer.scanAll_trivia hgap] at hagain
  refine ⟨us ++ [(Lexer.scanAll .start (gap ++ body)).2], tokenize_of_ofSource ?_, ?_⟩
  · rw [Stream.ofSource, String.toList_ofList]
    exact congrArg (fun scans => Stream.mk scans _) hagain
  · simp only [List.map_append, List.map_cons, List.map_nil, hus, ← heof, Lexer.scanAll_eof_written]

theorem tokenize_spaced {source : String} {tokens : List Token} (h : tokenize source = .ok tokens) :
    ∃ again, tokenize (" ".intercalate (lexemes tokens)) = .ok again ∧
      again.map Token.written = tokens.map Token.written := by
  have hspread := tokenize_spread h .nil (Lexer.spread_intercalate (lexemes tokens))
  rwa [List.nil_append, String.ofList_toList] at hspread

/-- Tokens are read again as themselves. Joined by single spaces, the lexemes of a text fall into
tokens of the same kinds with the same lexemes, and they do so in every layout that keeps neighbours
apart. Two texts with the same lexemes have the same tokens, whatever their layout and comments. -/
theorem tokenize_lexemes_again {source : String} {tokens : List Token}
    (h : tokenize source = .ok tokens) :
    (∃ again, tokenize (" ".intercalate (lexemes tokens)) = .ok again ∧
      again.map Token.written = tokens.map Token.written) ∧
    (∀ gap body, Lexer.Trivia body gap → Lexer.Spread (lexemes tokens) body →
      ∃ again, tokenize (String.ofList (gap ++ body)) = .ok again ∧
        again.map Token.written = tokens.map Token.written) ∧
    ∀ source' tokens', tokenize source' = .ok tokens' → lexemes tokens' = lexemes tokens →
      tokens'.map Token.written = tokens.map Token.written := by
  refine ⟨tokenize_spaced h, fun gap body => tokenize_spread h, fun source' tokens' h' hsame => ?_⟩
  obtain ⟨again, hagain, hwritten⟩ := tokenize_spaced h
  obtain ⟨again', hagain', hwritten'⟩ := tokenize_spaced h'
  rw [hsame, hagain] at hagain'
  obtain rfl := Except.ok.inj hagain'
  rw [← hwritten', hwritten]

/-- Leading zeros, the greatest number, a keyword that goes on, and signs that are parts of longer
ones. -/
theorem tokenize_lexemes_again_touching :
    ∃ tokens, tokenize "in1=007-->2147483647==_//->\n:let" = .ok tokens ∧
      lexemes tokens = ["in1", "=", "007", "-", "->", "2147483647", "==", "_", ":", "let"] ∧
      (∃ again, tokenize "in1 = 007 - -> 2147483647 == _ : let" = .ok again ∧
        again.map Token.written = tokens.map Token.written) ∧
      ∃ again, tokenize "//=\n\tin1 = 007 - -> 2147483647 == _ : let" = .ok again ∧
        again.map Token.written = tokens.map Token.written := by
  have h : tokenize "in1=007-->2147483647==_//->\n:let" = .ok [⟨.ident, "in1", ⟨1, 1, 3⟩⟩,
      ⟨.equal, "=", ⟨1, 4, 1⟩⟩, ⟨.number, "007", ⟨1, 5, 3⟩⟩, ⟨.minus, "-", ⟨1, 8, 1⟩⟩,
      ⟨.arrow, "->", ⟨1, 9, 2⟩⟩, ⟨.number, "2147483647", ⟨1, 11, 10⟩⟩,
        ⟨.equalEqual, "==", ⟨1, 21, 2⟩⟩,
      ⟨.ident, "_", ⟨1, 23, 1⟩⟩, ⟨.colon, ":", ⟨2, 1, 1⟩⟩, ⟨.letKw, "let", ⟨2, 2, 3⟩⟩,
      ⟨.eof, "", ⟨2, 5, 0⟩⟩] := by cbv
  obtain ⟨hspaced, hspread, -⟩ := tokenize_lexemes_again h
  have hgap (body : List Char) : Lexer.Trivia body ('/' :: '/' :: (['='] ++ ['\n', '\t'])) :=
    .comment (by decide) (by simp) (.blank (by decide) (.blank (by decide) .nil))
  have hcommented := hspread _ _ (hgap _) (Lexer.spread_intercalate _)
  have htext : String.ofList ('/' :: '/' :: (['='] ++ ['\n', '\t']) ++
      (" ".intercalate ["in1", "=", "007", "-", "->", "2147483647", "==", "_", ":", "let"]).toList) =
      "//=\n\tin1 = 007 - -> 2147483647 == _ : let" := by cbv
  exact ⟨_, h, by cbv, hspaced, htext ▸ hcommented⟩

end LetStack
