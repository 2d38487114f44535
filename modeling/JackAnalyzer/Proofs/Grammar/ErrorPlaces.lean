/-
  JackAnalyzer.Proofs.Grammar.ErrorPlaces — where the errors of calls on one cursor are told. A
  call that fails tells the token that the cursor is then in front of; it is the one that the
  run of the rule stopped at, and it is not taken. Where no token is left the end of the
  last one is told, whichever call took it.
  - `Call.stopped_of_error`: a call that fails has stopped where its cursor is.
  - `Call.pinned`: the place that one call tells.
  - `session_errors_pinned`: so it is for every call of a run, behind failed ones as well.
-/

import JackAnalyzer.Proofs.Grammar.Answers
import JackAnalyzer.Proofs.Grammar.Conservation

namespace JackAnalyzer.Grammar

/-- The call stops in front of the tokens `vs`, wanting something else: the run of a rule does, or
    the question for the end has tokens left. -/
def Call.Stopped (call : Call) (us vs : List Token) (expected : Expected) : Prop :=
  match call with
  | .rule r => ∃ trees, r.run us = .stop trees vs expected
  | .finish => us = vs ∧ us ≠ [] ∧ expected = .endOfInput

/-- A call that fails has stopped where its cursor is, and tells this place. -/
theorem Call.stopped_of_error {call : Call} {c : Cursor} {e : Error} (h : (call.answer c).1 = .error e) :
    ∃ expected, call.Stopped c.ahead (call.answer c).2.ahead expected ∧ e = (call.answer c).2.errorHere expected := by
  cases call with
  | rule r =>
    have hahead := r.apply_ahead c
    simp only [answer] at h ⊢
    cases hrun : r.run c.ahead with
    | done children rest =>
      rw [Rule.apply, hrun] at h
      cases h
    | stop trees rest expected =>
      rw [hrun] at hahead
      rw [hahead]
      rw [Rule.apply, hrun] at h ⊢
      exact ⟨expected, ⟨trees, hrun⟩, (Except.error.inj h).symm⟩
  | finish =>
    simp only [answer, Grammar.finish] at h ⊢
    by_cases hleft : c.isExhausted = true
    · rw [if_pos hleft] at h
      cases h
    · rw [if_neg hleft] at h
      refine ⟨.endOfInput, ⟨rfl, ?_, rfl⟩, (Except.error.inj h).symm⟩
      simpa [Cursor.isExhausted] using hleft

/-- Where a call on a unit tells that it failed. -/
structure Visit.Pinned (ts : List Token) (v : Visit) (span : Span) (line : Nat) (found detail : String) : Prop where
  /-- Nothing is taken behind the place where the call stopped. -/
  stopped : ∃ expected : Expected, v.call.Stopped v.before.ahead (ts.drop v.after.position) expected ∧
    detail = expected.detail
  /-- The token there is told, and the cursor is in front of it. -/
  token : ∀ t, ts[v.after.position]? = some t →
    span = t.span ∧ line = t.line ∧ found = t.display ∧ v.after.current = some t
  /-- Behind all tokens it is the end of the last one. -/
  last : ts.length ≤ v.after.position → ∀ t, ts.getLast? = some t →
    span = .point t.span.stop ∧ line = t.line ∧ found = "end of input"
  /-- Where there are no tokens it is the start of the text. -/
  none : ts = [] → span = ⟨0, 0⟩ ∧ line = 1 ∧ found = "end of input"

/-- A call that fails tells a place of the unit: the token that its cursor is in front of, or the end
    of the last one. -/
theorem Call.pinned {call : Call} {ts : List Token} {c : Cursor} (hc : c.tokens = ts) {e : Error}
    (h : (call.answer c).1 = .error e) : ∃ span line found detail, e = .parse span line found detail ∧
      Visit.Pinned ts ⟨call, c, (call.answer c).1, (call.answer c).2⟩ span line found detail := by
  obtain ⟨expected, hstopped, rfl⟩ := Call.stopped_of_error h
  generalize hnext : (call.answer c).2 = next at hstopped ⊢
  have htokens : next.tokens = ts := by rw [← hnext, call.answer_tokens, hc]
  have hcurrent : next.current = ts[next.position]? := by rw [Cursor.current_eq, htokens]
  have hplace : next.errorHere expected = expected.error (ts.take next.position).getLast? ts[next.position]? := by
    rw [errorHere_eq_error, Cursor.head?_behind, hcurrent, htokens]
  rw [next.ahead_eq_drop, htokens] at hstopped
  rw [hplace]
  cases hat : ts[next.position]? with
  | some t =>
    obtain ⟨hlt, -⟩ := List.getElem?_eq_some_iff.mp hat
    refine ⟨t.span, t.line, t.display, expected.detail, rfl, ⟨expected, hstopped, rfl⟩, fun u hu => ?_, fun hend => ?_,
      fun hnil => ?_⟩
    · obtain rfl := Option.some.inj (hat.symm.trans hu)
      exact ⟨rfl, rfl, rfl, hcurrent.trans hat⟩
    · exact absurd hlt (Nat.not_lt.mpr hend)
    · rw [hnil] at hlt
      exact absurd hlt (Nat.not_lt_zero _)
  | none =>
    have hnone : ∀ t, ts[next.position]? ≠ some t := fun t ht => nomatch hat.symm.trans ht
    have htake : ts.take next.position = ts := List.take_of_length_le (List.getElem?_eq_none_iff.mp hat)
    rw [htake]
    cases hlast : ts.getLast? with
    | some t =>
      refine ⟨.point t.span.stop, t.line, "end of input", expected.detail, rfl, ⟨expected, hstopped, rfl⟩,
        fun u hu => absurd hu (hnone u), fun _ u hu => ?_, fun hnil => ?_⟩
      · obtain rfl := Option.some.inj (hlast.symm.trans hu)
        exact ⟨rfl, rfl, rfl⟩
      · rw [hnil] at hlast
        cases hlast
    | none =>
      refine ⟨default, 1, "end of input", expected.detail, rfl, ⟨expected, hstopped, rfl⟩,
        fun u hu => absurd hu (hnone u), fun _ u hu => ?_, fun _ => ⟨rfl, rfl, rfl⟩⟩
      cases hlast.symm.trans hu

/-- Whatever was called before and whatever failed of it, a call that fails tells a parse error at
    its place: the token that is not taken, or the end of the last one where all are. -/
theorem session_errors_pinned (ts : List Token) (calls : List Call) :
    ∀ v ∈ visits (.ofTokens ts) calls, ∀ e, v.answer = .error e →
      ∃ span line found detail, e = .parse span line found detail ∧ v.Pinned ts span line found detail := by
  intro v hv e he
  obtain ⟨call, c, hc, -, rfl⟩ := exists_cursor_of_mem_visits calls v hv
  exact Call.pinned (hc.trans (Cursor.tokens_ofTokens ts)) he

/-- A statement fails in front of its third token, a term takes this token, and a call behind it
    fails at its end. -/
theorem session_errors_pinned_behind_failure :
    let ts : List Token := [⟨.keyword .letKw, "let", ⟨0, 3⟩, 1⟩, ⟨.identifier, "x", ⟨4, 5⟩, 1⟩,
      ⟨.integerConstant 1, "1", ⟨6, 7⟩, 2⟩]
    let calls : List Call := [.rule .letStatement, .rule .term, .rule .doStatement]
    let e : Error := .parse ⟨7, 7⟩ 2 "end of input" "expected 'do'"
    ∃ v ∈ visits (.ofTokens ts) calls, v.after.position = 3 ∧ v.answer = .error e ∧
      ∃ span line found detail, e = .parse span line found detail ∧ v.Pinned ts span line found detail := by
  intro ts calls e
  let c := ((Call.rule .term).answer ((Call.rule .letStatement).answer (.ofTokens ts)).2).2
  let v : Visit := ⟨.rule .doStatement, c, ((Call.rule .doStatement).answer c).1, ((Call.rule .doStatement).answer c).2⟩
  have hv : v ∈ visits (.ofTokens ts) calls := List.mem_cons_of_mem _ (List.mem_cons_of_mem _ List.mem_cons_self)
  -- the term has taken the last token
  have hbehind : c.behind = ts.reverse := by decide +kernel
  have hahead : c.ahead = [] := by decide +kernel
  have he : v.answer = .error e := by
    show ((Call.rule .doStatement).answer ⟨c.behind, c.ahead⟩).1 = _
    rw [hbehind, hahead]
    rfl
  exact ⟨v, hv, by decide +kernel, he, session_errors_pinned ts calls v hv e he⟩

end JackAnalyzer.Grammar
