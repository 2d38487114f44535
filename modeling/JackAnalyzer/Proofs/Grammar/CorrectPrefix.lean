/-
  JackAnalyzer.Proofs.Grammar.CorrectPrefix — an error is told at the first wrong token. What a
  class has taken where it fails is the beginning of a class, and with the next token it is not:
  the tokens taken are the longest row from the front that goes on to a class.
  - `classDec_completable_take_iff`: the rows from the front that go on to a class.
  - `classDec_error_at_first_wrong`: where a class fails.
-/

import JackAnalyzer.Proofs.Grammar.Conservation
import JackAnalyzer.Proofs.Grammar.Exactness
import JackAnalyzer.Proofs.Grammar.NextToken
import JackAnalyzer.Proofs.Grammar.Stops

namespace JackAnalyzer.Grammar

/-! ## The tokens taken -/

/-- The number of tokens that a rule takes, whether it ends or fails. -/
def Rule.consumed (rule : Rule) (ts : List Token) : Nat := (rule.apply (.ofTokens ts)).2.position

/-- The tokens go on to something that the rule parses. -/
def Rule.Completable (rule : Rule) (us : List Token) : Prop := ∃ ws tree, rule.parse (us ++ ws) = .ok tree

theorem Rule.Completable.take {rule : Rule} {us : List Token} (h : rule.Completable us) (n : Nat) :
    rule.Completable (us.take n) := by
  obtain ⟨ws, tree, hparse⟩ := h
  exact ⟨us.drop n ++ ws, tree, by rwa [← List.append_assoc, List.take_append_drop]⟩

theorem Rule.consumed_eq (rule : Rule) (ts : List Token) : rule.consumed ts = (rule.run ts).taken := by
  rw [consumed, apply_position]
  exact Nat.zero_add _

theorem Rule.consumed_le (rule : Rule) (ts : List Token) : rule.consumed ts ≤ ts.length := by
  rw [consumed_eq]
  exact rule.taken_le ts

theorem Rule.drop_consumed (rule : Rule) (ts : List Token) : ts.drop (rule.consumed ts) = (rule.run ts).rest := by
  have h := rule.apply_ahead (.ofTokens ts)
  rw [apply_cursor] at h
  rw [consumed_eq]
  exact h

theorem Rule.take_consumed (rule : Rule) (ts : List Token) :
    ts.take (rule.consumed ts) = (rule.run ts).trees.flatMap Tree.leaves := by
  have hcov := rule.run_leaves ts
  rw [Outcome.Covers, ← drop_consumed] at hcov
  exact (List.append_cancel_right (hcov.trans (List.take_append_drop _ _).symm)).symm

/-! ## Classes -/

theorem classDec_takes_iff {us : List Token} :
    (Phrase.node .classDec).Takes us ↔ ∃ tree, Rule.classDec.parse us = .ok tree := by
  rw [Phrase.takes_node_iff]
  exact exists_congr fun tree => classDec_parse_iff.symm

theorem classDec_completable_consumed (ts : List Token) :
    Rule.classDec.Completable (ts.take (Rule.classDec.consumed ts)) := by
  rw [Rule.take_consumed]
  cases h : Rule.classDec.run ts with
  | done cs rest =>
    refine ⟨[], classDec_takes_iff.mp ?_⟩
    rw [List.append_nil]
    exact Phrase.takes_node_iff.mpr ⟨_, (Rule.run_sound h).1, Tree.leaves_node _ _⟩
  | stop cs rest e =>
    obtain ⟨ws, hws⟩ := Rule.exists_completion (Rule.stops_of_run h)
    exact ⟨ws, classDec_takes_iff.mp hws⟩

theorem classDec_not_completable {ts vs : List Token} (hvs : vs ≠ []) (h : next vs = next (Rule.classDec.run ts).rest) :
    ¬Rule.classDec.Completable (ts.take (Rule.classDec.consumed ts) ++ vs) := by
  intro hx
  obtain ⟨ws, tree, hparse⟩ := hx
  obtain ⟨cs, rest, -, hrun⟩ := Rule.parse_eq_ok_iff.mp hparse
  have hnext : next (vs ++ ws) = next (Rule.classDec.run ts).rest := by
    cases vs with
    | nil => exact absurd rfl hvs
    | cons v vs => exact h
  -- The run in front of these tokens leaves them, and a class leaves nothing.
  have hleft := Rule.classDec.run_next ts (vs ++ ws) hnext
  rw [← Rule.take_consumed, ← List.append_assoc, hrun] at hleft
  obtain rfl := classDec_rest hrun
  cases hts : Rule.classDec.run ts with
  | stop cs' rest' e => rw [hts] at hleft; cases hleft
  | done cs' rest' =>
    rw [hts] at hleft
    have hnil : [] = vs ++ ws := (Outcome.done.inj hleft).2
    exact hvs (List.append_eq_nil_iff.mp hnil.symm).1

/-- The rows from the front that go on to a class are those of the tokens that a class takes. -/
theorem classDec_completable_take_iff {ts : List Token} {n : Nat} (hn : n ≤ ts.length) :
    Rule.classDec.Completable (ts.take n) ↔ n ≤ Rule.classDec.consumed ts := by
  generalize hk : Rule.classDec.consumed ts = k
  constructor
  · intro hx
    by_contra hlt
    have hrest : (ts.take n).drop k ≠ [] := by
      rw [Ne, List.drop_eq_nil_iff, List.length_take]
      omega
    have hnext : next ((ts.take n).drop k) = next (Rule.classDec.run ts).rest := by
      rw [← Rule.drop_consumed, hk, List.drop_take, next, List.head?_take, if_neg (by omega)]
      rfl
    refine classDec_not_completable hrest hnext ?_
    have htake : ts.take k = (ts.take n).take k := by rw [List.take_take, Nat.min_eq_left (by omega)]
    rwa [hk, htake, List.take_append_drop]
  · intro hle
    have h := (classDec_completable_consumed ts).take n
    rwa [hk, List.take_take, Nat.min_eq_left hle] at h

/-- A class fails at the first wrong token: what it has taken goes on to a class, and with the
    next token it does not. Where no token is left, more tokens make it a class. -/
theorem classDec_error_at_first_wrong {ts : List Token} {e : Error} (h : Rule.classDec.parse ts = .error e) :
    Rule.classDec.Completable (ts.take (Rule.classDec.consumed ts)) ∧
      (Rule.classDec.consumed ts < ts.length →
        ∀ ws tree, Rule.classDec.parse (ts.take (Rule.classDec.consumed ts + 1) ++ ws) ≠ .ok tree) ∧
      (Rule.classDec.consumed ts = ts.length → ∃ ws, ws ≠ [] ∧ ∃ tree, Rule.classDec.parse (ts ++ ws) = .ok tree) := by
  refine ⟨classDec_completable_consumed ts, fun hlt ws tree hparse => ?_, fun hend => ?_⟩
  · have hle := (classDec_completable_take_iff (n := Rule.classDec.consumed ts + 1) hlt).mp ⟨ws, tree, hparse⟩
    omega
  · have hts := classDec_completable_consumed ts
    rw [hend, List.take_length] at hts
    obtain ⟨ws, tree, hparse⟩ := hts
    refine ⟨ws, fun hnil => ?_, tree, hparse⟩
    rw [hnil, List.append_nil, h] at hparse
    cases hparse

/-- A type is wanted behind the word `static`, and there is a number. -/
theorem classDec_error_at_first_wrong_number :
    let ts := [Terminal.keyword .classKw, .identifier, .symbol .lbrace, .keyword .staticKw, .integerConstant].map
      Terminal.token
    (∃ e, Rule.classDec.parse ts = .error e) ∧ Rule.classDec.consumed ts = 4 ∧
      Rule.classDec.Completable (ts.take 4) ∧ ∀ ws tree, Rule.classDec.parse (ts.take 5 ++ ws) ≠ .ok tree := by
  intro ts
  have hk : Rule.classDec.consumed ts = 4 := rfl
  have hparse : ∃ e, Rule.classDec.parse ts = .error e := ⟨_, rfl⟩
  obtain ⟨e, he⟩ := hparse
  have h := classDec_error_at_first_wrong he
  rw [hk] at h
  exact ⟨⟨e, he⟩, hk, h.1, h.2.1 (by decide)⟩

end JackAnalyzer.Grammar
