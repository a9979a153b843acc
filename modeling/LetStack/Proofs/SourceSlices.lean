import Mathlib
import LetStack.Proofs.Lookahead
import LetStack.Proofs.SpacedTexts
import LetStack.Token.SourceCursor

namespace LetStack

open Lexer

/-- A result for this text, unless the text is too long to be counted in 32 bits. -/
def Counted (source : String) {α : Type} (x : Option α) (post : α → Prop) : Prop :=
  (∃ a, x = some a ∧ post a) ∨ x = none ∧ 4294967294 < source.utf8ByteSize

namespace Counted

variable {source : String} {α β : Type} {x : Option α} {post : α → Prop}

theorem pure {a : α} (h : post a) : Counted source (some a) post := .inl ⟨a, rfl, h⟩

theorem bind {f : α → Option β} {post' : β → Prop} (h : Counted source x post)
    (hf : ∀ a, post a → Counted source (f a) post') : Counted source (x >>= f) post' := by
  rcases h with ⟨a, rfl, ha⟩ | ⟨rfl, hlong⟩
  · exact hf a ha
  · exact .inr ⟨rfl, hlong⟩

theorem imp {post' : α → Prop} (h : Counted source x post) (himp : ∀ a, post a → post' a) :
    Counted source x post' :=
  h.imp_left fun ⟨a, hx, ha⟩ => ⟨a, hx, himp a ha⟩

theorem of_some {a : α} (h : Counted source x post) (hx : x = some a) : post a := by
  rcases h with ⟨b, hb, hpost⟩ | ⟨hnone, -⟩
  · cases hb.symm.trans hx
    exact hpost
  · cases hnone.symm.trans hx

theorem of_none {x' : Option β} {post' : β → Prop} (h : Counted source x post) (hx : x = none)
    (hx' : x' = none) : Counted source x' post' := by
  rcases h with ⟨a, ha, -⟩ | ⟨-, hlong⟩
  · cases hx.symm.trans ha
  · exact .inr ⟨hx', hlong⟩

end Counted

namespace Lexer

theorem skipTrivia_blanks (p : Position) (cs : List Char) :
    skipTrivia false p cs =
      skipTrivia false (p.after (cs.takeWhile Text.isBlank)) (cs.dropWhile Text.isBlank) := by
  induction cs generalizing p with
  | nil => rfl
  | cons c cs ih =>
    by_cases hc : Text.isBlank c = true
    · rw [List.takeWhile_cons_of_pos hc, List.dropWhile_cons_of_pos hc, skipTrivia,
        if_neg (by decide), if_pos hc, ih]
      rfl
    · rw [List.takeWhile_cons_of_neg hc, List.dropWhile_cons_of_neg hc]
      rfl

theorem skipTrivia_toNewline (p : Position) (cs : List Char) :
    skipTrivia true p cs =
      skipTrivia false (p.after (cs.takeWhile (· != '\n'))) (cs.dropWhile (· != '\n')) := by
  have hbody : '\n' ∉ cs.takeWhile (· != '\n') := by
    intro h
    exact absurd (List.mem_takeWhile_imp h) (by decide)
  have hend : ∀ c ∈ (cs.dropWhile (· != '\n')).head?, c = '\n' := by
    intro c hc
    have hstop := List.head?_dropWhile_not (· != '\n') cs
    rw [Option.mem_def.mp hc] at hstop
    simpa using hstop
  rw [← skipTrivia_comment hbody hend, List.takeWhile_append_dropWhile]

theorem skipTrivia_slashes (p : Position) {cs : List Char} (h : cs.head? = some '/')
    (h' : cs[1]? = some '/') : skipTrivia false p cs = skipTrivia true p cs := by
  obtain ⟨_, rfl⟩ := List.head?_eq_some_iff.mp h
  have hnext : List.head? _ = some '/' := List.head?_eq_getElem?.trans h'
  rw [skipTrivia, skipTrivia, if_neg (by decide), if_neg (by decide),
    if_pos ⟨rfl, hnext⟩, if_pos rfl]
  rfl

theorem skipTrivia_stop (p : Position) {cs : List Char}
    (hblank : ∀ c ∈ cs.head?, Text.isBlank c = false)
    (hslash : ¬(cs.head? = some '/' ∧ cs[1]? = some '/')) : skipTrivia false p cs = (p, cs) := by
  cases cs with
  | nil => rfl
  | cons c cs =>
    have hslash' : ¬(c = '/' ∧ cs.head? = some '/') := by
      rintro ⟨rfl, hcs⟩
      exact hslash ⟨rfl, List.head?_eq_getElem?.symm.trans hcs⟩
    have hblank' := hblank c rfl
    rw [skipTrivia, if_neg (by decide), if_neg (by simp [hblank']), if_neg hslash']

end Lexer

namespace Lexer.Position

/-- Lines and columns are counted from one, and every character takes a byte at least. -/
theorem start_after_le (before : List Char) :
    (start.after before).line ≤ 1 + (String.ofList before).utf8ByteSize ∧
      (start.after before).col ≤ 1 + (String.ofList before).utf8ByteSize := by
  induction before using List.reverseRecOn with
  | nil => simp [start]
  | append_singleton cs c ih =>
    have hpos := Char.utf8Size_pos c
    rw [after_concat, utf8ByteSize_concat, step]
    split <;> simp only <;> omega

end Lexer.Position

namespace Counters

structure Behind (k : Counters) (before : List Char) : Prop where
  offset : k.offset.toNat = (String.ofList before).utf8ByteSize
  line : k.line.toNat = (Position.start.after before).line
  col : k.col.toNat = (Position.start.after before).col

variable {source : String} {before cs rest : List Char} {k : Counters}

theorem add_counted {n : UInt32} {m : Nat} (h : n.toNat + m ≤ 1 + source.utf8ByteSize) :
    Counted source (add n m) fun sum => sum.toNat = n.toNat + m := by
  unfold add
  split
  next hlt => exact .pure (UInt32.toNat_ofNat_of_lt' hlt)
  next => exact .inr ⟨rfl, by omega⟩

theorem step_counted {c : Char} (h : k.Behind before)
    (hsource : source.toList = before ++ c :: rest) :
    Counted source (k.step c) fun k' => k'.Behind (before ++ [c]) := by
  -- The counters are bounded by the bytes read, and those by the size of the source.
  have hsize : (String.ofList (before ++ [c])).utf8ByteSize ≤ source.utf8ByteSize := by
    have hsplit : source = String.ofList (before ++ [c]) ++ String.ofList rest := by
      rw [← String.ofList_append, List.append_assoc, List.singleton_append, ← hsource,
        String.ofList_toList]
    rw [hsplit, String.utf8ByteSize_append]
    exact Nat.le_add_right _ _
  obtain ⟨hline, hcol⟩ := Position.start_after_le before
  have hconcat := utf8ByteSize_concat before c
  have hpos := Char.utf8Size_pos c
  have hstep := Position.after_concat Position.start before c
  rw [← h.line] at hline
  rw [← h.col] at hcol
  unfold step
  refine (add_counted (by rw [h.offset]; omega)).bind fun offset hoffset => ?_
  rw [h.offset, ← hconcat] at hoffset
  by_cases hc : c = '\n'
  · rw [if_pos hc]
    refine (add_counted (by omega)).bind fun line hline' => .pure ⟨hoffset, ?_, ?_⟩
    · rw [hline', hstep, Position.step, if_pos hc, h.line]
    · rw [hstep, Position.step, if_pos hc]
      rfl
  · rw [if_neg hc]
    refine (add_counted (by omega)).bind fun col hcol' => .pure ⟨hoffset, ?_, ?_⟩
    · rw [hstep, Position.step, if_neg hc, h.line]
    · rw [hcol', hstep, Position.step, if_neg hc, h.col]

theorem stepAll_counted (h : k.Behind before) (hsource : source.toList = before ++ cs ++ rest) :
    Counted source (k.stepAll cs) fun k' => k'.Behind (before ++ cs) := by
  unfold stepAll
  induction cs generalizing k before with
  | nil => exact .pure (by simpa using h)
  | cons c cs ih =>
    have hfirst : Counted source (k.step c) fun k₁ => k₁.Behind (before ++ [c]) :=
      step_counted h (by simpa using hsource)
    refine hfirst.bind fun k₁ hk₁ => ?_
    simpa using ih hk₁ (by simpa using hsource)

theorem Behind.span_eq (h : k.Behind before) (lexeme : String) :
    k.span lexeme = spanBehind before lexeme := by
  rw [← start_after, span, h.line, h.col]

end Counters

namespace SourceCursor

open Counters

variable {source : String} {before cs rest : List Char} {k : Counters}

theorem extract_middle (a b c : ByteArray) :
    (a ++ (b ++ c)).extract a.size (a.size + b.size) = b := by
  have h := ByteArray.extract_append_size_add (a := a) (b := b ++ c) (i := 0) (j := b.size)
  rw [Nat.add_zero] at h
  exact h.trans (ByteArray.extract_append_eq_left rfl)

theorem fromUTF8?_toByteArray (s : String) : String.fromUTF8? s.toByteArray = some s := by
  unfold String.fromUTF8?
  rw [dif_pos s.isValidUTF8]
  rfl

/-- A slice of the text is what was read between its ends. -/
theorem slice_eq {k' : Counters} (h : k.Behind before) (h' : k'.Behind (before ++ cs))
    (hsource : source.toList = before ++ cs ++ rest) :
    slice source k.offset k'.offset = some (String.ofList cs) := by
  have hbytes : source.toByteArray = (String.ofList before).toByteArray ++
      ((String.ofList cs).toByteArray ++ (String.ofList rest).toByteArray) := by
    rw [← String.toByteArray_append, ← String.toByteArray_append, ← String.ofList_append,
      ← String.ofList_append, ← List.append_assoc, ← hsource, String.ofList_toList]
  rw [slice, hbytes, h.offset, h'.offset, String.ofList_append, String.utf8ByteSize_append,
    ← String.size_toByteArray, ← String.size_toByteArray, extract_middle, fromUTF8?_toByteArray]

structure Eaten (f : Char → Bool) (before cs : List Char) (p : SourceCursor) : Prop where
  rest : p.rest = cs.dropWhile f
  counters : p.counters.Behind (before ++ cs.takeWhile f)

namespace Eaten

variable {f : Char → Bool} {p : SourceCursor}

theorem split (h : Eaten f before cs p) : cs = cs.takeWhile f ++ p.rest := by
  rw [h.rest]
  exact List.takeWhile_append_dropWhile.symm

theorem source_eq (h : Eaten f before cs p) (hsource : source.toList = before ++ cs) :
    source.toList = before ++ cs.takeWhile f ++ p.rest := by
  rw [hsource, List.append_assoc, ← h.split]

/-- What was eaten from its first character on is a slice of the text. -/
theorem lexeme {c : Char} (h : Eaten f before (c :: rest) p) (hc : f c = true)
    (hk : k.Behind before) (hsource : source.toList = before ++ c :: rest) :
    p.rest = rest.dropWhile f ∧ p.counters.Behind (before ++ c :: rest.takeWhile f) ∧
      slice source k.offset p.counters.offset = some (String.ofList (c :: rest.takeWhile f)) := by
  have hslice := slice_eq hk h.counters (h.source_eq hsource)
  have hcounters := h.counters
  rw [List.takeWhile_cons_of_pos hc] at hslice hcounters
  exact ⟨h.rest.trans (List.dropWhile_cons_of_pos hc), hcounters, hslice⟩

end Eaten

theorem eatWhile_counted (f : Char → Bool) (h : k.Behind before)
    (hsource : source.toList = before ++ cs) :
    Counted source (eatWhile f cs k) (Eaten f before cs) := by
  induction cs generalizing k before with
  | nil => exact .pure ⟨rfl, by simpa using h⟩
  | cons c cs ih =>
    rw [eatWhile]
    by_cases hc : f c = true
    · rw [if_pos hc]
      refine (step_counted h hsource).bind fun k₁ hk₁ => ?_
      refine (ih hk₁ (by simpa using hsource)).imp fun p hp => ⟨?_, ?_⟩
      · rw [List.dropWhile_cons_of_pos hc, hp.rest]
      · simpa [List.takeWhile_cons_of_pos hc] using hp.counters
    · rw [if_neg hc]
      refine .pure ⟨(List.dropWhile_cons_of_neg hc).symm, ?_⟩
      simpa [List.takeWhile_cons_of_neg hc] using h

/-- The loop over blanks and comments skips what one pass over the characters skips. -/
theorem skipTrivia_counted (h : k.Behind before) (hsource : source.toList = before ++ cs) :
    Counted source (skipTrivia cs k) fun p => ∃ gap, cs = gap ++ p.rest ∧
      p.counters.Behind (before ++ gap) ∧ Lexer.skipTrivia false (Position.start.after before) cs =
        (Position.start.after (before ++ gap), p.rest) := by
  fun_induction skipTrivia cs k generalizing before with
  | case1 cs k hnone => exact (eatWhile_counted Text.isBlank h hsource).of_none hnone rfl
  | case2 cs k p hp hslash hnone =>
    have hblanks := (eatWhile_counted Text.isBlank h hsource).of_some hp
    have hcomment := eatWhile_counted (· != '\n') hblanks.counters (hblanks.source_eq hsource)
    exact hcomment.of_none hnone rfl
  | case3 cs k p hp hslash q hq hlt ih =>
    have hblanks := (eatWhile_counted Text.isBlank h hsource).of_some hp
    have hsource' := hblanks.source_eq hsource
    have hcomment := (eatWhile_counted (· != '\n') hblanks.counters hsource').of_some hq
    -- The comment stops before a newline or the end; more trivia may follow it.
    have hskip := ih hcomment.counters (hcomment.source_eq hsource')
    refine hskip.imp fun r hr => ?_
    obtain ⟨gap, hgap, hk, hskip⟩ := hr
    refine ⟨cs.takeWhile Text.isBlank ++ (p.rest.takeWhile (· != '\n') ++ gap), ?_, ?_, ?_⟩
    · rw [List.append_assoc, List.append_assoc, ← hgap, ← hcomment.split, ← hblanks.split]
    · simpa only [List.append_assoc] using hk
    · rw [skipTrivia_blanks, ← hblanks.rest, skipTrivia_slashes _ hslash.1 hslash.2,
        skipTrivia_toNewline, ← hcomment.rest, ← Position.after_append, ← Position.after_append]
      simpa only [List.append_assoc] using hskip
  | case4 cs k p hp hslash =>
    have hblanks := (eatWhile_counted Text.isBlank h hsource).of_some hp
    refine .pure ⟨cs.takeWhile Text.isBlank, hblanks.split, hblanks.counters, ?_⟩
    have hblank : ∀ c ∈ p.rest.head?, Text.isBlank c = false := by
      intro c hc
      have hstop := List.head?_dropWhile_not Text.isBlank cs
      rwa [← hblanks.rest, Option.mem_def.mp hc] at hstop
    rw [skipTrivia_blanks, ← hblanks.rest, skipTrivia_stop _ hblank hslash, Position.after_append]

structure At (source : String) (p : SourceCursor) (cursor : Lexer.Cursor) : Prop where
  rest : cursor.rest = p.rest
  before : ∃ before, source.toList = before ++ p.rest ∧ p.counters.Behind before ∧
    cursor.pos = Position.start.after before

theorem At.start (source : String) : At source ⟨source.toList, {}⟩ ⟨.start, source.toList⟩ :=
  ⟨rfl, [], rfl, ⟨rfl, rfl, rfl⟩, rfl⟩

/-- The scan of a text whose next token starts with `c`, and where it leaves the text. -/
structure Bitten (before : List Char) (c : Char) (cs : List Char) (r : Scan × SourceCursor) :
    Prop where
  scan : r.1 = (bite c cs).scan (Position.start.after before) (String.ofList (c :: (bite c cs).tail))
  rest : r.2.rest = (bite c cs).rest
  counters : r.2.counters.Behind (before ++ c :: (bite c cs).tail)

theorem scanNumber_counted {c : Char} (hc : c.isDigit = true) (h : k.Behind before)
    (hsource : source.toList = before ++ c :: rest) :
    Counted source (scanNumber source (c :: rest) k) (Bitten before c rest) := by
  have hbite : bite c rest = biteNumber c rest := if_pos hc
  refine (eatWhile_counted Char.isDigit h hsource).bind fun stop hstop => ?_
  obtain ⟨hrest, hbehind, hslice⟩ := hstop.lexeme hc h hsource
  rw [hslice]
  refine .pure ⟨?_, by rw [hbite]; exact hrest, by rw [hbite]; exact hbehind⟩
  have hspan : k.span (String.ofList (c :: rest.takeWhile Char.isDigit)) = _ := h.span_eq _
  rw [hbite]
  simp only [biteNumber, Bite.scan, hrest, String.toList_ofList, hspan, ← start_after]
  split
  · rfl
  · split <;> rfl

theorem scanIdentifier_counted {c : Char} (hdigit : ¬c.isDigit = true) (hc : isIdentStart c = true)
    (h : k.Behind before) (hsource : source.toList = before ++ c :: rest) :
    Counted source (scanIdentifier source (c :: rest) k) (Bitten before c rest) := by
  have hbite : bite c rest = biteIdentifier c rest := (if_neg hdigit).trans (if_pos hc)
  refine (eatWhile_counted isIdentRest h hsource).bind fun stop hstop => ?_
  obtain ⟨hrest, hbehind, hslice⟩ := hstop.lexeme (isIdentRest_of_isIdentStart hc) h hsource
  rw [hslice]
  refine .pure ⟨?_, by rw [hbite]; exact hrest, by rw [hbite]; exact hbehind⟩
  rw [hbite]
  simp only [biteIdentifier, Bite.scan, h.span_eq, ← start_after]

theorem biteSymbol_tail_of_error {c : Char} {cause : LexError.Cause}
    (h : (biteSymbol c rest).verdict = .error cause) : (biteSymbol c rest).tail = [] := by
  unfold biteSymbol at h ⊢
  split at h <;> simp_all

theorem scanSymbol_counted {c : Char} (hdigit : ¬c.isDigit = true) (hident : ¬isIdentStart c = true)
    (h : k.Behind before) (hsource : source.toList = before ++ c :: rest) :
    Counted source (scanSymbol source c rest k) (Bitten before c rest) := by
  have hbite : bite c rest = biteSymbol c rest := (if_neg hdigit).trans (if_neg hident)
  have hsplit : source.toList =
      before ++ c :: (biteSymbol c rest).tail ++ (biteSymbol c rest).rest := by
    rw [hsource, List.append_assoc, List.cons_append, ← hbite, ← bite_split]
  refine (stepAll_counted h hsplit).bind fun k' hk' => ?_
  cases hverdict : (biteSymbol c rest).verdict with
  | error cause =>
    have htail := biteSymbol_tail_of_error hverdict
    refine .pure ⟨?_, by rw [hbite], by rw [hbite]; exact hk'⟩
    simp only [hbite, Bite.scan, hverdict, htail, h.line, h.col]
    simp
  | ok kind =>
    simp only
    rw [slice_eq h hk' hsplit]
    refine .pure ⟨?_, by rw [hbite], by rw [hbite]; exact hk'⟩
    simp only [hbite, Bite.scan, hverdict, h.span_eq, ← start_after]

theorem scan_counted {p : SourceCursor} {cursor : Lexer.Cursor} (h : At source p cursor) :
    Counted source (scan source p) fun r => r.1 = cursor.scan.1 ∧ At source r.2 cursor.scan.2 := by
  obtain ⟨pos, cs⟩ := cursor
  obtain ⟨rfl, before, hsource, hk, rfl⟩ := h
  refine (skipTrivia_counted hk hsource).bind fun q ⟨gap, hgap, hq, hskip⟩ => ?_
  simp only [Cursor.scan, hskip]
  rw [hgap, ← List.append_assoc] at hsource
  cases hrest : q.rest with
  | nil =>
    rw [hrest] at hsource
    refine .pure ⟨?_, hrest.symm, before ++ gap, by rw [hrest]; exact hsource, hq, rfl⟩
    simp only [span, hq.line, hq.col]
    rfl
  | cons c rest =>
    rw [hrest] at hsource
    -- The three ways to scan a lexeme all take the bite the lexer takes at `c`.
    have hbite (r : Scan × SourceCursor) (h : Bitten (before ++ gap) c rest r) :
        r.1 = (bite c rest).scan (Position.start.after (before ++ gap))
          (String.ofList (c :: (bite c rest).tail)) ∧
        At source r.2 ⟨(Position.start.after (before ++ gap)).after (c :: (bite c rest).tail),
          (bite c rest).rest⟩ := by
      refine ⟨h.scan, h.rest.symm, _, ?_, h.counters, ?_⟩
      · rw [h.rest, hsource, List.append_assoc (before ++ gap), List.cons_append, ← bite_split]
      · rw [Position.after_append _ (before ++ gap)]
    simp only
    split
    next hdigit => exact (scanNumber_counted hdigit hq hsource).imp hbite
    next hdigit =>
      split
      next hident => exact (scanIdentifier_counted hdigit hident hq hsource).imp hbite
      next hident => exact (scanSymbol_counted hdigit hident hq hsource).imp hbite

end SourceCursor

namespace Lexer.Cursor

def tokens (cursor : Cursor) : Except LexError (List Token) := do
  let ts ← cursor.view.ahead.mapM id
  return ts ++ [cursor.view.eof]

variable {cursor : Cursor} {t : Token}

theorem tokens_of_error {e : LexError} (h : cursor.scan.1 = .error e) :
    cursor.tokens = .error e := by
  rw [tokens, view_of_error (Prod.ext h rfl)]
  rfl

theorem view_cases (h : cursor.scan.1 = .ok t) :
    (cursor.view = ⟨[], t⟩ ∧ t.kind = .eof) ∨
      cursor.view = ⟨.ok t :: cursor.scan.2.view.ahead, cursor.scan.2.view.eof⟩ ∧ t.kind ≠ .eof := by
  have hnext := cursor.view_next
  rw [h] at hnext
  rcases hview : cursor.view with ⟨_ | ⟨scan, scans⟩, eof⟩ <;> rw [hview] at hnext
  · obtain ⟨heof, -⟩ := Prod.mk.inj hnext
    cases heof
    have heof : (scanAll cursor.pos cursor.rest).2 = eof := congrArg Stream.eof hview
    exact .inl ⟨rfl, heof ▸ scanAll_eof cursor.pos cursor.rest⟩
  · obtain ⟨hscan, hrest⟩ := Prod.mk.inj hnext
    cases hscan
    rw [← hrest]
    refine .inr ⟨rfl, fun heof => ?_⟩
    have hmem : .ok t ∈ (scanAll cursor.pos cursor.rest).1 := by
      have hahead : (scanAll cursor.pos cursor.rest).1 = _ := congrArg Stream.ahead hview
      simp [hahead]
    have hproper := scanAll_proper hmem
    simp [Symbol.Proper, Token.symbol, heof] at hproper

theorem tokens_of_eof (h : cursor.scan.1 = .ok t) (ht : t.kind = .eof) :
    cursor.tokens = .ok [t] := by
  rcases view_cases h with ⟨hview, -⟩ | ⟨-, hne⟩
  · rw [tokens, hview]
    rfl
  · exact absurd ht hne

theorem tokens_of_token (h : cursor.scan.1 = .ok t) (ht : t.kind ≠ .eof) :
    cursor.tokens = cursor.scan.2.tokens.map (t :: ·) := by
  rcases view_cases h with ⟨-, heof⟩ | ⟨hview, -⟩
  · exact absurd heof ht
  · rw [tokens, tokens, hview]
    cases hrest : cursor.scan.2.view.ahead.mapM id <;>
      simp [List.mapM_cons, hrest, bind, Except.bind, pure, Except.pure, Except.map]

end Lexer.Cursor

namespace SourceCursor

variable {source : String}

theorem tokens_counted {p : SourceCursor} {cursor : Lexer.Cursor} (h : At source p cursor) :
    Counted source (tokens source p) (· = cursor.tokens) := by
  fun_induction tokens source p generalizing cursor with
  | case1 p hscan => exact (scan_counted h).of_none hscan rfl
  | case2 p e q hscan =>
    obtain ⟨he, -⟩ := (scan_counted h).of_some hscan
    exact .pure (Lexer.Cursor.tokens_of_error he.symm).symm
  | case3 p t q hscan ht =>
    obtain ⟨hok, -⟩ := (scan_counted h).of_some hscan
    exact .pure (Lexer.Cursor.tokens_of_eof hok.symm ht).symm
  | case4 p t q hscan ht hlt ih =>
    obtain ⟨hok, hq⟩ := (scan_counted h).of_some hscan
    rw [Lexer.Cursor.tokens_of_token hok.symm ht]
    rcases ih hq with ⟨ts, hts, rfl⟩ | ⟨hnone, hlong⟩
    · exact .inl ⟨_, by rw [hts]; rfl, rfl⟩
    · exact .inr ⟨by rw [hnone]; rfl, hlong⟩

/-- Tokens made of slices of the text are the tokens that were read character by character, as long
as the text can be counted in 32 bits. -/
theorem tokenize_counted (source : String) :
    Counted source (tokenize source) (· = LetStack.tokenize source) :=
  tokens_counted (.start source)

/-- Where the counters do not overflow, the tokens lie in the text. -/
theorem laid_of_tokenize {tokens : List Token} (h : tokenize source = some (.ok tokens)) :
    Laid [] source.toList tokens := by
  have hsource := (tokenize_counted source).of_some h
  obtain ⟨ts, eof, rfl, hof⟩ := ofSource_of_tokenize hsource.symm
  exact ofSource_laid hof

end SourceCursor

end LetStack
