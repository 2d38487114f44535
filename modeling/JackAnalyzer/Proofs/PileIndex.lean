/-
  JackAnalyzer.Proofs.PileIndex — questions put to a pile one after another, in any order and also
  behind the end. A pile counts down what is pending and remembers one place; behind every such run
  it tells what an index into the tokens of the unit tells, the index being the number of tokens
  handed out.
  - `askAll_map`: two things that answer each question alike answer every run alike.
  - `behind_askAll`: a run puts the tokens that it hands out behind the cursor.
  - `tells_ofCursor`: a pile told by the index where its cursor stands.
  - `run_tells_index`: so it is behind every run on a unit.
-/

import JackAnalyzer.Pile

namespace JackAnalyzer

/-! ## Runs -/

/-- What answers one question alike through `f` answers every run alike. -/
theorem askAll_map {σ τ : Type} {answer : σ → Question → Answer × σ} {answer' : τ → Question → Answer × τ} {f : σ → τ}
    (h : ∀ s q, answer' (f s) q = ((answer s q).1, f (answer s q).2)) (qs : List Question) :
    ∀ s, askAll answer' (f s) qs = ((askAll answer s qs).1, f (askAll answer s qs).2) := by
  induction qs with
  | nil => exact fun s => rfl
  | cons q qs ih =>
    intro s
    simp only [askAll, h s q, ih (answer s q).2]

theorem handedOut_cons (a : Answer) (as : List Answer) : handedOut (a :: as) = handedOut [a] ++ handedOut as := by
  rw [← List.singleton_append]
  exact List.filterMap_append

namespace Cursor

theorem answer_tokens (c : Cursor) (q : Question) : (c.answer q).2.tokens = c.tokens := by
  cases q with
  | advance => exact c.tokens_advance
  | _ => rfl

theorem behind_answer (c : Cursor) (q : Question) :
    (c.answer q).2.behind.reverse = c.behind.reverse ++ handedOut [(c.answer q).1] := by
  cases q with
  | advance =>
    simp only [answer, advance]
    split <;> simp [handedOut]
  | _ => simp [answer, handedOut]

theorem tokens_askAll (qs : List Question) : ∀ c : Cursor, (askAll answer c qs).2.tokens = c.tokens := by
  induction qs with
  | nil => exact fun c => rfl
  | cons q qs ih =>
    intro c
    exact (ih (c.answer q).2).trans (c.answer_tokens q)

theorem behind_askAll (qs : List Question) : ∀ c : Cursor,
    (askAll answer c qs).2.behind.reverse = c.behind.reverse ++ handedOut (askAll answer c qs).1 := by
  induction qs with
  | nil => exact fun c => (List.append_nil _).symm
  | cons q qs ih =>
    intro c
    simp only [askAll]
    rw [ih (c.answer q).2, behind_answer, List.append_assoc, ← handedOut_cons]

end Cursor

namespace Pile

/-! ## The index -/

/-- What a pile of the tokens `ts` tells where `p` of them are handed out. -/
structure Tells (ts : List Token) (p : Nat) (s : Pile) : Prop where
  /-- The index does not leave the unit, and what is pending lies behind it. -/
  within : p ≤ ts.length
  pending : s.pending = (ts.drop p).reverse.toArray
  current : s.current = ts[p]?
  /-- Where there is a token it is handed out, and the index goes on by one. -/
  handsOut : ∀ t, ts[p]? = some t → s.advance.1 = some t ∧ s.advance.2.position? = some (p + 1)
  /-- At the end nothing is handed out and nothing changes. -/
  stays : p = ts.length → s.advance = (none, s)
  position : s.position? = some p
  exhausted : s.isExhausted = true ↔ p = ts.length
  length : s.length = ts.length
  empty : s.isEmpty = true ↔ ts = []
  /-- Behind a token the end told is its end, on its line. -/
  behind : 0 < p → ∃ t, ts[p - 1]? = some t ∧ s.endPosition = (⟨t.span.stop, t.span.stop⟩, t.line)
  /-- In front of all tokens it is the start of the text. -/
  front : p = 0 → s.endPosition = (⟨0, 0⟩, 1)

/-- The pile of a cursor is told by the index where the cursor stands. -/
theorem tells_ofCursor (c : Cursor) : (ofCursor c).Tells c.tokens c.position := by
  constructor
  case within => exact c.position_le_length
  case pending => rw [← c.ahead_eq_drop, ofCursor]
  case current => rw [current_ofCursor, c.current_eq]
  case handsOut =>
    intro t ht
    obtain ⟨hfirst, hnext⟩ := Cursor.advance_of_current (c.current_eq.trans ht)
    rw [advance_ofCursor]
    exact ⟨hfirst, by rw [position?_ofCursor, hnext]⟩
  case stays =>
    intro hend
    have hnone : c.current = none := by rw [c.current_eq, hend, List.getElem?_eq_none (Nat.le_refl _)]
    rw [advance_ofCursor, Cursor.advance_of_end hnone]
  case position => exact position?_ofCursor c
  case exhausted => rw [isExhausted_ofCursor, c.isExhausted_iff]
  case length => rw [length_ofCursor, c.length_eq]
  case empty => rw [isEmpty_ofCursor, c.isEmpty_iff]
  case behind =>
    intro h
    rw [endPosition_ofCursor]
    exact Cursor.exists_endPosition h
  case front =>
    intro h
    rw [endPosition_ofCursor]
    exact Cursor.endPosition_of_position_eq_zero h

theorem askAll_ofTokens (ts : List Token) (qs : List Question) :
    askAll answer (ofTokens ts) qs =
      ((askAll Cursor.answer (.ofTokens ts) qs).1, ofCursor (askAll Cursor.answer (.ofTokens ts) qs).2) := by
  rw [← ofCursor_ofTokens]
  exact askAll_map answer_ofCursor qs (.ofTokens ts)

/-- Whatever was asked, a pile of the tokens of a unit then tells what an index into them tells: the
    number of tokens handed out, which are the first ones in their order. Its answers are those
    of a cursor. -/
theorem run_tells_index (ts : List Token) (qs : List Question) :
    let run := askAll answer (ofTokens ts) qs
    let p := (handedOut run.1).length
    run.2.Tells ts p ∧ handedOut run.1 = ts.take p ∧ (askAll Cursor.answer (.ofTokens ts) qs).1 = run.1 := by
  intro run p
  let c := (askAll Cursor.answer (.ofTokens ts) qs).2
  have htokens : c.tokens = ts := (Cursor.tokens_askAll qs _).trans (Cursor.tokens_ofTokens ts)
  have hrun : run = ((askAll Cursor.answer (.ofTokens ts) qs).1, ofCursor c) := askAll_ofTokens ts qs
  have hbehind : handedOut run.1 = c.behind.reverse := by
    rw [hrun]
    exact (Cursor.behind_askAll qs (.ofTokens ts)).symm
  have hposition : p = c.position := (congrArg List.length hbehind).trans List.length_reverse
  refine ⟨?_, ?_, by rw [hrun]⟩
  · rw [hposition, hrun, ← htokens]
    exact tells_ofCursor c
  · rw [hposition, hbehind, ← htokens, c.reverse_behind]

/-- Behind the last token nothing more is handed out, and the end of that token is still told. -/
example :
    let name : Token := ⟨.identifier, "x", ⟨4, 5⟩, 1⟩
    let semicolon : Token := ⟨.symbol .semicolon, ";", ⟨5, 6⟩, 1⟩
    (askAll answer (ofTokens [name, semicolon]) [.advance, .current, .advance, .advance, .position, .endPosition]).1 =
      [.handed name, .next semicolon, .handed semicolon, .handed none, .number (some 2), .place ⟨6, 6⟩ 1] := by decide

end Pile

end JackAnalyzer
