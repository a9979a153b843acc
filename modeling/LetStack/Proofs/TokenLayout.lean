import Mathlib
import LetStack.Proofs.ParserCompleteness

namespace LetStack

namespace Lexer

/-- Trivia in front of `rest`: white space and comments. A comment goes as far as the newline behind
it, which does not belong to it, or to the end of the text. -/
inductive Trivia (rest : List Char) : List Char → Prop
  | nil : Trivia rest []
  | blank {c : Char} {cs : List Char} (hc : Text.isBlank c = true) (h : Trivia rest cs) :
      Trivia rest (c :: cs)
  | comment {body cs : List Char} (hbody : '\n' ∉ body) (hend : ∀ c ∈ (cs ++ rest).head?, c = '\n')
      (h : Trivia rest cs) : Trivia rest ('/' :: '/' :: (body ++ cs))

def spanBehind (before : List Char) (lexeme : String) : Span where
  line := 1 + before.count '\n'
  col := 1 + (String.ofList (before.rtakeWhile (· ≠ '\n'))).utf8ByteSize
  len := lexeme.utf8ByteSize

/-- Behind the characters `before`, the text consists of these tokens, each behind its trivia. The
last token, and no other, stands for the end. -/
inductive Laid : (before text : List Char) → List Token → Prop
  | eof {before gap : List Char} (hgap : Trivia [] gap) :
      Laid before gap [⟨.eof, "", spanBehind (before ++ gap) ""⟩]
  | token {before gap rest : List Char} {t : Token} {ts : List Token}
      (hgap : Trivia (t.lexeme.toList ++ rest) gap) (hkind : t.kind ≠ .eof)
      (hspan : t.span = spanBehind (before ++ gap) t.lexeme)
      (h : Laid (before ++ gap ++ t.lexeme.toList) rest ts) :
      Laid before (gap ++ t.lexeme.toList ++ rest) (t :: ts)

namespace Position

@[simp] theorem after_nil (p : Position) : p.after [] = p := rfl

theorem after_append (p : Position) (cs ds : List Char) :
    p.after (cs ++ ds) = (p.after cs).after ds :=
  List.foldl_append

theorem after_concat (p : Position) (cs : List Char) (c : Char) :
    p.after (cs ++ [c]) = (p.after cs).step c := by
  rw [after_append]
  rfl

end Position

theorem utf8ByteSize_concat (cs : List Char) (c : Char) :
    (String.ofList (cs ++ [c])).utf8ByteSize = (String.ofList cs).utf8ByteSize + c.utf8Size := by
  simp

/-- The lexer's counters are right. -/
theorem start_after (before : List Char) (lexeme : String) :
    (⟨(Position.start.after before).line, (Position.start.after before).col,
      lexeme.utf8ByteSize⟩ : Span) =
      spanBehind before lexeme := by
  induction before using List.reverseRecOn with
  | nil => simp [spanBehind, Position.start]
  | append_singleton cs c ih =>
    obtain ⟨hline, hcol, -⟩ := Span.mk.injEq .. |>.mp ih
    simp only [spanBehind, Position.after_concat, Position.step, List.count_append,
      Span.mk.injEq, and_true]
    by_cases hc : c = '\n'
    · subst hc
      simp [hline, Nat.add_assoc]
    · rw [List.rtakeWhile_concat_pos _ _ _ (by simpa using hc), utf8ByteSize_concat]
      simp [hc, hline, hcol, Nat.add_assoc]

def InComment (rest cs : List Char) : Prop :=
  ∃ body gap, cs = body ++ gap ∧ '\n' ∉ body ∧ (∀ c ∈ (gap ++ rest).head?, c = '\n') ∧
    Trivia rest gap

theorem InComment.newline {rest gap : List Char} (h : Trivia rest gap) :
    InComment rest ('\n' :: gap) :=
  ⟨[], '\n' :: gap, rfl, by simp, by simp, .blank (by decide) h⟩

theorem InComment.cons {rest cs : List Char} {c : Char} (hc : c ≠ '\n') (h : InComment rest cs) :
    InComment rest (c :: cs) := by
  obtain ⟨body, gap, rfl, hbody, hend, hgap⟩ := h
  exact ⟨c :: body, gap, rfl, by simp [hbody, hc.symm], hend, hgap⟩

/-- A comment that goes on with a slash has begun with the slash in front of it. -/
theorem InComment.trivia {rest cs : List Char} (h : InComment rest cs)
    (hslash : (cs ++ rest).head? = some '/') : Trivia rest ('/' :: cs) := by
  obtain ⟨body, gap, rfl, hbody, hend, hgap⟩ := h
  cases body with
  | nil => exact absurd (hend '/' hslash) (by decide)
  | cons c body =>
    obtain rfl : c = '/' := by simpa using hslash
    exact .comment (fun h => hbody (List.mem_cons_of_mem _ h)) hend hgap

/-- What is skipped is trivia, or what is left of a comment if one was open. -/
theorem skipTrivia_split (inComment : Bool) (p : Position) (cs : List Char) :
    ∃ gap, cs = gap ++ (skipTrivia inComment p cs).2 ∧
      (skipTrivia inComment p cs).1 = p.after gap ∧
      if inComment then InComment (skipTrivia inComment p cs).2 gap
      else Trivia (skipTrivia inComment p cs).2 gap := by
  fun_induction skipTrivia inComment p cs with
  | case1 inComment p =>
    refine ⟨[], rfl, rfl, ?_⟩
    split
    · exact ⟨[], [], rfl, by simp, by simp, .nil⟩
    · exact .nil
  | case2 p c cs ih =>
    obtain ⟨gap, hcs, hpos, hgap⟩ := ih
    refine ⟨c :: gap, by rw [List.cons_append, ← hcs], hpos, ?_⟩
    -- A newline closes the comment; any other character stays inside it.
    by_cases hc : c = '\n'
    · subst hc
      exact .newline hgap
    · rw [if_pos (bne_iff_ne.mpr hc)] at hgap
      exact InComment.cons hc hgap
  | case3 inComment p c cs hopen hblank ih =>
    obtain ⟨gap, hcs, hpos, hgap⟩ := ih
    refine ⟨c :: gap, by rw [List.cons_append, ← hcs], hpos, ?_⟩
    simpa [hopen] using .blank hblank hgap
  | case4 inComment p c cs hopen hblank hslash ih =>
    obtain ⟨gap, hcs, hpos, hgap⟩ := ih
    refine ⟨c :: gap, by rw [List.cons_append, ← hcs], hpos, ?_⟩
    obtain ⟨rfl, hslash⟩ := hslash
    rw [if_neg hopen]
    exact InComment.trivia hgap (hcs ▸ hslash)
  | case5 inComment p c cs hopen hblank hslash =>
    exact ⟨[], rfl, rfl, by simpa [hopen] using .nil⟩

theorem bite_split (c : Char) (cs : List Char) : cs = (bite c cs).tail ++ (bite c cs).rest := by
  unfold bite
  split
  · exact List.takeWhile_append_dropWhile.symm
  · split
    · exact List.takeWhile_append_dropWhile.symm
    · unfold biteSymbol
      split <;> rfl

/-- A scan in a text: the trivia in front of it, and what is bitten off behind. -/
theorem scanAll_split {p : Position} {cs : List Char} {scan : Scan} {scans : List Scan} {eof : Token}
    (h : scanAll p cs = (scan :: scans, eof)) :
    ∃ gap c rest, cs = gap ++ c :: rest ∧ Trivia (c :: rest) gap ∧
      scan = (bite c rest).scan (p.after gap) (String.ofList (c :: (bite c rest).tail)) ∧
      scanAll ((p.after gap).after (c :: (bite c rest).tail)) (bite c rest).rest = (scans, eof) := by
  obtain ⟨gap, hcs, hpos, hgap⟩ := skipTrivia_split false p cs
  rw [scanAll_eq] at h
  rcases hskip : skipTrivia false p cs with ⟨q, _ | ⟨c, rest⟩⟩
  · simp [hskip] at h
  · simp only [hskip, Prod.mk.injEq, List.cons.injEq] at h hcs hpos hgap
    obtain ⟨⟨rfl, rfl⟩, rfl⟩ := h
    subst hpos
    exact ⟨gap, c, rest, hcs, hgap, rfl, rfl⟩

theorem scan_eq_ok {b : Bite} {p : Position} {lexeme : String} {t : Token}
    (h : b.scan p lexeme = .ok t) :
    b.verdict = .ok t.kind ∧ t = ⟨t.kind, lexeme, ⟨p.line, p.col, lexeme.utf8ByteSize⟩⟩ := by
  unfold Bite.scan at h
  split at h
  next kind hkind =>
    obtain rfl := Except.ok.inj h
    exact ⟨hkind, rfl⟩
  next => cases h

theorem kind_ne_eof {c : Char} {cs : List Char} {kind : Token.Kind}
    (h : (bite c cs).verdict = .ok kind) : kind ≠ .eof := by
  rintro rfl
  exact bite_proper (.point 0 0) h

/-- All tokens of a text lie in it. -/
theorem scanAll_laid {before cs : List Char} {ts : List Token} {eof : Token}
    (h : scanAll (Position.start.after before) cs = (ts.map .ok, eof)) :
    Laid before cs (ts ++ [eof]) := by
  induction ts generalizing before cs with
  | nil =>
    obtain ⟨gap, hcs, hpos, hgap⟩ := skipTrivia_split false (Position.start.after before) cs
    rw [scanAll_eq] at h
    rcases hskip : skipTrivia false (Position.start.after before) cs with ⟨q, _ | ⟨c, rest⟩⟩
    · simp only [hskip, Prod.mk.injEq, List.append_nil] at h hcs hpos hgap
      obtain ⟨-, rfl⟩ := h
      subst hcs hpos
      rw [← Position.after_append, Span.point]
      exact start_after (before ++ cs) "" ▸ .eof hgap
    · simp [hskip] at h
  | cons t ts ih =>
    -- Trivia, one lexeme, and the same again from the position behind it.
    obtain ⟨gap, c, rest, rfl, hgap, hscan, htail⟩ := scanAll_split h
    obtain ⟨hverdict, ht⟩ := scan_eq_ok hscan.symm
    have hlexeme : t.lexeme.toList = c :: (bite c rest).tail := by rw [ht, String.toList_ofList]
    have hrest : c :: rest = t.lexeme.toList ++ (bite c rest).rest := by
      rw [hlexeme, List.cons_append, ← bite_split]
    rw [← Position.after_append] at ht
    rw [hrest, ← List.append_assoc]
    refine .token (hrest ▸ hgap) (kind_ne_eof hverdict) ?_ (ih ?_)
    · rw [ht]
      exact start_after _ _
    · rw [hlexeme, Position.after_append, Position.after_append, htail]

end Lexer

theorem ofSource_laid {source : String} {ts : List Token} {eof : Token}
    (h : Stream.ofSource source = .of eof ts) : Lexer.Laid [] source.toList (ts ++ [eof]) := by
  obtain ⟨hscans, heof⟩ := Stream.mk.injEq .. |>.mp h
  exact Lexer.scanAll_laid (Prod.ext hscans heof)

/-- Lexing loses nothing, and places are exact: a text that falls into tokens consists of them and
of the trivia in front of each, in this order, and each token has the place that the text in front
of it gives. -/
theorem tokenize_laid {source : String} {tokens : List Token} (h : tokenize source = .ok tokens) :
    Lexer.Laid [] source.toList tokens := by
  obtain ⟨ts, eof, rfl, hsource⟩ := ofSource_of_tokenize h
  exact ofSource_laid hsource

/-- Bytes are counted, not characters, and a comment leaves its newline behind. -/
theorem tokenize_laid_wideCharacters :
    ∃ tokens, tokenize "let x // π\n\u2003= 12" = .ok tokens ∧
      tokens.map Token.span = [⟨1, 1, 3⟩, ⟨1, 5, 1⟩, ⟨2, 4, 1⟩, ⟨2, 6, 2⟩, ⟨2, 8, 0⟩] ∧
      Lexer.Laid [] "let x // π\n\u2003= 12".toList tokens := by
  have h : tokenize "let x // π\n\u2003= 12" =
      .ok [⟨.letKw, "let", ⟨1, 1, 3⟩⟩, ⟨.ident, "x", ⟨1, 5, 1⟩⟩,
      ⟨.equal, "=", ⟨2, 4, 1⟩⟩, ⟨.number, "12", ⟨2, 6, 2⟩⟩, ⟨.eof, "", ⟨2, 8, 0⟩⟩] := by cbv
  exact ⟨_, h, rfl, tokenize_laid h⟩

/-- The token ends on an earlier line than the other one starts, or on the same line and not behind
it. -/
def Token.Before (t u : Token) : Prop :=
  t.span.line < u.span.line ∨ t.span.line = u.span.line ∧ t.span.stop ≤ u.span.col

namespace Lexer

theorem spanBehind_col_append {cs : List Char} (h : '\n' ∉ cs) (before : List Char)
    (lexeme : String) :
    (spanBehind (before ++ cs) lexeme).col =
      (spanBehind before lexeme).col + (String.ofList cs).utf8ByteSize := by
  have hall : ∀ c ∈ cs.reverse, decide (c ≠ '\n') = true := by
    intro c hc
    simp only [decide_eq_true_eq]
    rintro rfl
    exact h (List.mem_reverse.mp hc)
  simp only [spanBehind, List.rtakeWhile, List.reverse_append, List.takeWhile_append_of_pos hall,
    List.reverse_reverse, String.ofList_append, String.utf8ByteSize_append, Nat.add_assoc]

/-- What stands in front of one span stands in front of a later one too. -/
theorem spanBehind_before {t u : Token} {before more : List Char}
    (ht : t.span = spanBehind before t.lexeme)
    (hu : u.span = spanBehind (before ++ t.lexeme.toList ++ more) u.lexeme) : t.Before u := by
  have hline : u.span.line = t.span.line + (t.lexeme.toList ++ more).count '\n' := by
    simp only [ht, hu, spanBehind, List.append_assoc, List.count_append]
    omega
  by_cases hnewline : '\n' ∈ t.lexeme.toList ++ more
  · have hpos := List.count_pos_iff.mpr hnewline
    exact .inl (by omega)
  · refine .inr ⟨by rw [hline, List.count_eq_zero.mpr hnewline, Nat.add_zero], ?_⟩
    have hcol := spanBehind_col_append hnewline before u.lexeme
    rw [← List.append_assoc, ← hu, String.ofList_append, String.utf8ByteSize_append,
      String.ofList_toList] at hcol
    have hsame : (spanBehind before u.lexeme).col = t.span.col := by rw [ht]; rfl
    have hlen : t.span.len = t.lexeme.utf8ByteSize := by rw [ht]; rfl
    simp only [Span.stop, hlen]
    omega

theorem Laid.span_eq {before text : List Char} {ts : List Token}
    (h : Laid before text ts) {t : Token}
    (ht : t ∈ ts) : ∃ more, t.span = spanBehind (before ++ more) t.lexeme := by
  induction h with
  | @eof before gap hgap =>
    obtain rfl := List.mem_singleton.mp ht
    exact ⟨gap, rfl⟩
  | @token before gap rest u ts hgap hkind hspan h ih =>
    rcases List.mem_cons.mp ht with rfl | ht
    · exact ⟨gap, hspan⟩
    · obtain ⟨more, hmore⟩ := ih ht
      exact ⟨gap ++ u.lexeme.toList ++ more, by rw [hmore]; simp⟩

/-- The tokens of a text stand one behind the other. -/
theorem Laid.pairwise_before {before text : List Char} {ts : List Token} (h : Laid before text ts) :
    ts.Pairwise Token.Before := by
  induction h with
  | eof => exact List.pairwise_singleton _ _
  | token hgap hkind hspan h ih =>
    refine List.pairwise_cons.mpr ⟨fun u hu => ?_, ih⟩
    obtain ⟨more, hmore⟩ := h.span_eq hu
    exact spanBehind_before hspan hmore

end Lexer

end LetStack
