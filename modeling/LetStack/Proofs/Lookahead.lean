import Mathlib
import LetStack.Proofs.ParserCompleteness
import LetStack.Token.Reader

namespace LetStack

inductive Call where
  | next
  | peek (n : Nat)
deriving DecidableEq, Repr

namespace Call

def ahead : Call → Nat
  | next => 0
  | peek n => n

def onStream : Call → Stream → Scan × Stream
  | next, s => s.next
  | peek n, s => s.peek n

def onReader : Call → Reader → Scan × Reader
  | next, r => r.next
  | peek n, r => r.peek n

end Call

def Stream.answers (s : Stream) : List Call → List Scan
  | [] => []
  | call :: calls => (call.onStream s).1 :: (call.onStream s).2.answers calls

def Reader.answers (r : Reader) : List Call → List Scan
  | [] => []
  | call :: calls => (call.onReader r).1 :: (call.onReader r).2.answers calls

namespace Stream

/-- A look among the tokens in front stays there, and one past them goes on behind them. -/
theorem look_append (eof : Token) (ts : List Token) (n : Nat) (rest : List Scan) :
    look eof n (ts.map .ok ++ rest) = match ts[n]? with
      | some t => (.ok t, ts.map .ok ++ rest)
      | none =>
        ((look eof (n - ts.length) rest).1, ts.map .ok ++ (look eof (n - ts.length) rest).2) := by
  induction ts generalizing n with
  | nil => rfl
  | cons t ts ih =>
    cases n with
    | zero => rfl
    | succ n =>
      rw [List.map_cons, List.cons_append, look, ih n, List.getElem?_cons_succ, List.length_cons,
        Nat.add_sub_add_right]
      cases ts[n]? <;> rfl

theorem look_of (eof : Token) (ts : List Token) (n : Nat) :
    look eof n (ts.map .ok) = (.ok (ts.getD n eof), ts.map .ok) := by
  have hlook := look_append eof ts n []
  rw [List.append_nil] at hlook
  rw [hlook, List.getD_eq_getElem?_getD]
  cases ts[n]? <;> simp [look]

/-- Ends added behind the last scan stay there. -/
theorem look_pads (eof : Token) (k n : Nat) (scans : List Scan) :
    look eof n (scans ++ List.replicate k (.ok eof)) =
      ((look eof n scans).1, (look eof n scans).2 ++ List.replicate k (.ok eof)) := by
  fun_induction look eof n scans with
  | case1 n =>
    have hends := look_of eof (List.replicate k eof) n
    have heof : (List.replicate k eof).getD n eof = eof := by
      rw [List.getD_eq_getElem?_getD, List.getElem?_replicate]
      split <;> rfl
    rwa [heof, List.map_replicate] at hends
  | case2 n => simp [look]
  | case3 => rfl
  | case4 n t rest scan rest' heq ih =>
    rw [List.cons_append, look, ih, heq]
    rfl

/-- The second stream has the scans of the first, and after them the end several times over. -/
def Pads (s s' : Stream) : Prop :=
  s'.eof = s.eof ∧ ∃ k, s'.ahead = s.ahead ++ List.replicate k (.ok s.eof)

namespace Pads

variable {s s' s'' : Stream}

theorem refl (s : Stream) : Pads s s := ⟨rfl, 0, by simp⟩

theorem trans (h : Pads s s') (h' : Pads s' s'') : Pads s s'' := by
  obtain ⟨heof, k, hk⟩ := h
  obtain ⟨heof', j, hj⟩ := h'
  refine ⟨heof'.trans heof, k + j, ?_⟩
  rw [hj, hk, heof, List.append_assoc, List.replicate_append_replicate]

/-- Scans in front of both change nothing. -/
theorem prepend (h : Pads s s') (front : List Scan) :
    Pads ⟨front ++ s.ahead, s.eof⟩ ⟨front ++ s'.ahead, s'.eof⟩ := by
  obtain ⟨heof, k, hk⟩ := h
  exact ⟨heof, k, by simp only [hk, List.append_assoc]⟩

theorem next (h : Pads s s') : s'.next.1 = s.next.1 ∧ Pads s.next.2 s'.next.2 := by
  obtain ⟨heof, k, hk⟩ := h
  rcases s with ⟨_ | ⟨scan, scans⟩, eof⟩ <;> rcases s' with ⟨scans', _⟩ <;> cases heof <;> cases hk
  · cases k with
    | zero => exact ⟨rfl, .refl _⟩
    | succ k => exact ⟨rfl, rfl, k, rfl⟩
  · exact ⟨rfl, rfl, k, rfl⟩

theorem peek (h : Pads s s') (n : Nat) :
    (s'.peek n).1 = (s.peek n).1 ∧ Pads (s.peek n).2 (s'.peek n).2 := by
  obtain ⟨heof, k, hk⟩ := h
  simp only [Stream.peek, heof, hk, look_pads]
  exact ⟨trivial, rfl, k, rfl⟩

end Pads

theorem next_of (eof : Token) (ts : List Token) :
    (of eof ts).next = (.ok (ts.getD 0 eof), of eof (ts.drop 1)) := by
  cases ts <;> rfl

theorem peek_of (eof : Token) (ts : List Token) (n : Nat) :
    (of eof ts).peek n = (.ok (ts.getD n eof), of eof ts) := by
  simp only [peek, of, look_of]

/-- After `k` tokens have been taken, every call gives the token at its place. -/
theorem answers_of {eof : Token} {ts : List Token} {calls : List Call} {i : Nat} {call : Call}
    (h : calls[i]? = some call) (k : Nat) :
    ((of eof (ts.drop k)).answers calls)[i]? =
      some (.ok (ts.getD (k + (calls.take i).count .next + call.ahead) eof)) := by
  induction calls generalizing i k with
  | nil => simp at h
  | cons first calls ih =>
    cases i with
    | zero =>
      obtain rfl : first = call := by simpa using h
      cases first with
      | next => simp [answers, Call.onStream, next_of, Call.ahead, List.getD_eq_getElem?_getD]
      | peek n => simp [answers, Call.onStream, peek_of, Call.ahead, List.getD_eq_getElem?_getD]
    | succ i =>
      have hrest : calls[i]? = some call := by simpa using h
      cases first with
      | next =>
        have htail := ih hrest (k + 1)
        simp only [answers, Call.onStream, next_of, List.drop_drop, List.getElem?_cons_succ, htail,
          List.take_succ_cons, List.count_cons_self]
        congr 3
        omega
      | peek n =>
        have htail := ih hrest k
        simpa [answers, Call.onStream, peek_of] using htail

end Stream

def Lexer.Cursor.view (cursor : Cursor) : Stream :=
  ⟨(scanAll cursor.pos cursor.rest).1, (scanAll cursor.pos cursor.rest).2⟩

theorem Lexer.Cursor.view_next (cursor : Cursor) :
    cursor.view.next = (cursor.scan.1, cursor.scan.2.view) := by
  rcases hskip : skipTrivia false cursor.pos cursor.rest with ⟨q, _ | ⟨c, cs⟩⟩
  · have hview : cursor.view = ⟨[], ⟨.eof, "", .point q.line q.col⟩⟩ := by
      simp only [view, scanAll_eq cursor.pos, hskip]
    have hend : view ⟨q, []⟩ = ⟨[], ⟨.eof, "", .point q.line q.col⟩⟩ := by
      simp only [view, scanAll_eq q, skipTrivia]
    simp only [scan, hskip, hview, hend, Stream.next]
  · simp only [view, scan, scanAll_eq cursor.pos, hskip, Stream.next]

namespace Lexer.Cursor

variable {cursor cursor' : Cursor}

/-- A token that is scanned was the first scan, or it is one more end behind the last. -/
theorem view_of_ok {t : Token} (h : cursor.scan = (.ok t, cursor')) :
    cursor.view.Pads ⟨.ok t :: cursor'.view.ahead, cursor'.view.eof⟩ := by
  have hnext := cursor.view_next
  rw [h] at hnext
  rcases hview : cursor.view with ⟨_ | ⟨scan, scans⟩, eof⟩
  · obtain ⟨heof, hrest⟩ := Prod.mk.inj (hview ▸ hnext)
    cases heof
    rw [← hrest]
    exact ⟨rfl, 1, rfl⟩
  · obtain ⟨hscan, hrest⟩ := Prod.mk.inj (hview ▸ hnext)
    cases hscan
    rw [← hrest]
    exact .refl _

theorem view_of_error {e : LexError} (h : cursor.scan = (.error e, cursor')) :
    cursor.view = ⟨.error e :: cursor'.view.ahead, cursor'.view.eof⟩ := by
  have hnext := cursor.view_next
  rw [h] at hnext
  rcases hview : cursor.view with ⟨_ | ⟨scan, scans⟩, eof⟩
  · obtain ⟨heof, -⟩ := Prod.mk.inj (hview ▸ hnext)
    cases heof
  · obtain ⟨hscan, hrest⟩ := Prod.mk.inj (hview ▸ hnext)
    cases hscan
    rw [← hrest]

end Lexer.Cursor

namespace Reader

/-- The buffered tokens, and all scans from the cursor on. -/
def view (r : Reader) : Stream :=
  ⟨r.buffer.toList.map .ok ++ r.cursor.view.ahead, r.cursor.view.eof⟩

theorem view_ofSource (source : String) : (ofSource source).view = Stream.ofSource source := rfl

theorem view_next (r : Reader) : r.view.next = (r.next.1, r.next.2.view) := by
  rcases r with ⟨⟨_ | ⟨t, buffer⟩⟩, cursor⟩
  · exact cursor.view_next
  · simp [view, next, Stream.next]

theorem view_push {r : Reader} {t : Token} {cursor : Lexer.Cursor}
    (h : r.cursor.scan = (.ok t, cursor)) :
    r.view.Pads (view ⟨r.buffer.push t, cursor⟩) := by
  have hpads := (Lexer.Cursor.view_of_ok h).prepend (r.buffer.toList.map .ok)
  simpa [view] using hpads

theorem fill_ok {n : Nat} {r r' : Reader} (h : fill n r = (none, r')) : r.view.Pads r'.view := by
  induction n generalizing r with
  | zero =>
    cases h
    exact .refl _
  | succ n ih =>
    unfold fill at h
    split at h
    next t cursor hscan => exact (view_push hscan).trans (ih h)
    next => cases h

/-- An error stood behind the tokens that are now in the buffer, and is gone. -/
theorem fill_error {n : Nat} {r r' : Reader} {e : LexError} (h : fill n r = (some e, r')) :
    r.buffer.size ≤ r'.buffer.size ∧ r'.buffer.size < r.buffer.size + n ∧
      r.view.Pads ⟨r'.buffer.toList.map .ok ++ .error e :: r'.cursor.view.ahead,
        r'.cursor.view.eof⟩ := by
  induction n generalizing r with
  | zero => cases h
  | succ n ih =>
    unfold fill at h
    split at h
    next t cursor hscan =>
      obtain ⟨hle, hlt, hpads⟩ := ih h
      rw [Array.size_push] at hle hlt
      exact ⟨by omega, by omega, (view_push hscan).trans hpads⟩
    next e' cursor hscan =>
      cases h
      refine ⟨Nat.le_refl _, by simp, ?_⟩
      rw [view, Lexer.Cursor.view_of_error hscan]
      exact .refl _

/-- Looking ahead answers as on a stream that ends later. -/
theorem view_peek (r : Reader) (n : Nat) :
    ∃ s, r.view.Pads s ∧ s.peek n = ((r.peek n).1, (r.peek n).2.view) := by
  unfold peek
  split
  next e r' h =>
    obtain ⟨hle, hlt, hpads⟩ := fill_error h
    refine ⟨_, hpads, ?_⟩
    -- the buffer was short of `n + 1` tokens, or nothing would have been scanned
    have hnone : r'.buffer.toList[n]? = none := List.getElem?_eq_none (by
      rw [Array.length_toList]
      omega)
    simp only [Stream.peek, Stream.look_append, hnone, Stream.look]
    rfl
  next r' h =>
    have hlt : n < r'.buffer.size := by
      have := fill_size h
      omega
    have htoken : r'.buffer.toList[n]? = some r'.buffer[n] := by
      rw [Array.getElem?_toList, Array.getElem?_eq_getElem hlt]
    refine ⟨r'.view, fill_ok h, ?_⟩
    simp only [Stream.peek, view, Stream.look_append, htoken]

/-- One call: a reader answers as a stream that ends earlier, and goes on as that one does. -/
theorem onReader_pads {r : Reader} {s : Stream} (h : s.Pads r.view) (call : Call) :
    (call.onReader r).1 = (call.onStream s).1 ∧
    (call.onStream s).2.Pads (call.onReader r).2.view := by
  cases call with
  | next =>
    have hnext := h.next
    rw [view_next] at hnext
    exact hnext
  | peek n =>
    obtain ⟨s', hpads, hpeek⟩ := r.view_peek n
    have hboth := (h.trans hpads).peek n
    rw [hpeek] at hboth
    exact hboth

theorem answers_of_pads {r : Reader} {s : Stream} (h : s.Pads r.view) (calls : List Call) :
    r.answers calls = s.answers calls := by
  induction calls generalizing r s with
  | nil => rfl
  | cons call calls ih =>
    obtain ⟨hanswer, hnext⟩ := onReader_pads h call
    rw [answers, Stream.answers, hanswer, ih hnext]

/-- On every text a reader answers as the stream of that text, lexical errors included. -/
theorem answers_ofSource (source : String) (calls : List Call) :
    (ofSource source).answers calls = (Stream.ofSource source).answers calls :=
  answers_of_pads (.refl _) calls

end Reader

/-- Look-ahead is transparent: if a text falls into tokens, no call on it ever fails, whatever the
calls before it. A call gives the token as many places behind those already taken as it asks for;
past the last token that is the end, for ever. -/
theorem calls_give_tokens {source : String} {tokens : List Token}
    (h : tokenize source = .ok tokens) :
    ∃ eof, tokens.getLast? = some eof ∧ eof.kind = .eof ∧
      ∀ (calls : List Call) (i : Nat) (call : Call), calls[i]? = some call →
        let token := tokens.getD ((calls.take i).count .next + call.ahead) eof
        ((Reader.ofSource source).answers calls)[i]? = some (.ok token) ∧
          ((Stream.ofSource source).answers calls)[i]? = some (.ok token) := by
  obtain ⟨ts, eof, rfl, hsource⟩ := ofSource_of_tokenize h
  refine ⟨eof, by simp, by simpa [hsource, Stream.of] using ofSource_eof source, ?_⟩
  intro calls i call hcall
  have hgetD (k : Nat) : (ts ++ [eof]).getD k eof = ts.getD k eof := by
    simp only [List.getD_eq_getElem?_getD, List.getElem?_append, List.getElem?_singleton]
    split
    · rfl
    · split <;> simp_all
  have hanswer : ((Stream.of eof (ts.drop 0)).answers calls)[i]? = _ := Stream.answers_of hcall 0
  rw [List.drop_zero, Nat.zero_add, ← hgetD, ← hsource] at hanswer
  exact ⟨by rw [Reader.answers_ofSource, hanswer], hanswer⟩

/-- A look past the end fills the buffer with ends, and the tokens in front of them still come
first. -/
theorem calls_give_tokens_pastEnd :
    ∃ tokens, tokenize "f 1" = .ok tokens ∧
      let answers := (Reader.ofSource "f 1").answers [.peek 5, .next, .peek 0, .next, .next]
      answers[0]? = some (.ok ⟨.eof, "", ⟨1, 4, 0⟩⟩) ∧
        answers[2]? = some (.ok ⟨.number, "1", ⟨1, 3, 1⟩⟩) ∧
        answers[4]? = some (.ok ⟨.eof, "", ⟨1, 4, 0⟩⟩) := by
  have h : tokenize "f 1" = .ok [⟨.ident, "f", ⟨1, 1, 1⟩⟩, ⟨.number, "1", ⟨1, 3, 1⟩⟩,
      ⟨.eof, "", ⟨1, 4, 0⟩⟩] := by cbv
  obtain ⟨eof, hlast, -, hcalls⟩ := calls_give_tokens h
  obtain rfl := Option.some.inj hlast
  have hcall := hcalls [.peek 5, .next, .peek 0, .next, .next]
  exact ⟨_, h, (hcall 0 (.peek 5) rfl).1, (hcall 2 (.peek 0) rfl).1, (hcall 4 .next rfl).1⟩

end LetStack
