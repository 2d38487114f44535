/-
  JackAnalyzer.Proofs.Grammar.Answers — what the answer of a rule depends on. A rule that fails
  tells the token behind those that it took or, where none is left, the last of them. So the
  tokens taken and the one behind them decide the answer, and renaming tokens renames it.
  - `Rule.parse_eq_ok_or_error`: a tree, or the place where the rule stopped.
  - `Rule.answer_of_take_eq`: what stands behind the next token does not count.
  - `Rule.answer_map`: of a token its terminal counts, and nothing else.
-/

import JackAnalyzer.Proofs.Grammar.CorrectPrefix
import JackAnalyzer.Proofs.Grammar.Renaming

namespace JackAnalyzer

namespace Grammar

/-! ## Where an error is told -/

/-- The error of a rule that stops between two tokens. At the end of the input no token is next,
    and at its start none is last. -/
def Expected.error (e : Expected) (last next : Option Token) : Error :=
  match next, last with
  | some t, _ => .parse t.span t.line t.display e.detail
  | none, some t => .parse (.point t.span.stop) t.line "end of input" e.detail
  | none, none => .parse default 1 "end of input" e.detail

theorem errorHere_eq_error (c : Cursor) (e : Expected) : c.errorHere e = e.error c.behind.head? c.current := by
  unfold Cursor.errorHere Expected.error
  cases c.current with
  | some t => rfl
  | none =>
    obtain ⟨behind, ahead⟩ := c
    cases behind <;> rfl

/-- A rule answers the tree of its run, or the error of the place where that stopped. -/
theorem Rule.parse_eq_ok_or_error (rule : Rule) (ts : List Token) :
    (∃ cs rest, rule.run ts = .done cs rest ∧ rule.parse ts = .ok (.node rule.label cs)) ∨
      ∃ cs rest e, rule.run ts = .stop cs rest e ∧
        rule.parse ts = .error (e.error (ts.take (rule.consumed ts)).getLast? ts[rule.consumed ts]?) := by
  rw [consumed_eq]
  unfold parse apply
  cases h : rule.run (Cursor.ofTokens ts).ahead with
  | done cs rest => exact Or.inl ⟨cs, rest, h, rfl⟩
  | stop cs rest e =>
    refine Or.inr ⟨cs, rest, e, h, ?_⟩
    rw [show rule.run ts = _ from h]
    simp [errorHere_eq_error, Cursor.skip, Cursor.current, Cursor.ofTokens]

/-! ## The rules that were entered -/

theorem take_eq_of_le {us vs : List Token} {m n : Nat} (hmn : m ≤ n) (h : us.take n = vs.take n) :
    us.take m = vs.take m := by
  have := congrArg (List.take m) h
  rwa [List.take_take, List.take_take, Nat.min_eq_left hmn] at this

mutual

theorem entries_snd : ∀ (t : Tree) (us : List Token), (entries t us).2 = us.drop t.leaves.length
  | .leaf _, us => by simp [entries]
  | .node _ cs, us => by
    rw [Tree.leaves]
    exact entriesAll_snd cs us

theorem entriesAll_snd : ∀ (ts : List Tree) (us : List Token),
    (entriesAll ts us).2 = us.drop (Tree.leavesAll ts).length
  | [], _ => rfl
  | t :: ts, us => by
    rw [entriesAll, Tree.leavesAll, List.length_append, ← List.drop_drop, ← entries_snd t us]
    exact entriesAll_snd ts (entries t us).2

end

mutual

/-- The nodes of a tree begin in front of its leaves or of the token behind them. -/
theorem entries_of_take_eq : ∀ (t : Tree) {us vs : List Token},
    us.take (t.leaves.length + 1) = vs.take (t.leaves.length + 1) → (entries t us).1 = (entries t vs).1
  | .leaf _, _, _, _ => rfl
  | .node _ cs, us, vs, h => by
    have hhead := congrArg List.head? h
    rw [List.head?_take, List.head?_take, if_neg (Nat.succ_ne_zero _), if_neg (Nat.succ_ne_zero _)] at hhead
    rw [Tree.leaves] at h
    simp only [entries, hhead, entriesAll_of_take_eq cs h]

theorem entriesAll_of_take_eq : ∀ (ts : List Tree) {us vs : List Token},
    us.take ((Tree.leavesAll ts).length + 1) = vs.take ((Tree.leavesAll ts).length + 1) →
      (entriesAll ts us).1 = (entriesAll ts vs).1
  | [], _, _, _ => rfl
  | t :: ts, us, vs, h => by
    rw [Tree.leavesAll, List.length_append] at h
    have hfirst : us.take (t.leaves.length + 1) = vs.take (t.leaves.length + 1) := take_eq_of_le (by omega) h
    have hothers := congrArg (List.drop t.leaves.length) h
    rw [List.drop_take, List.drop_take, Nat.add_assoc, Nat.add_sub_cancel_left] at hothers
    simp only [entriesAll, entries_of_take_eq t hfirst, entries_snd, entriesAll_of_take_eq ts hothers]

end

/-! ## The next token -/

theorem Outcome.trees_withRest (us : List Token) (o : Outcome) : (o.withRest us).trees = o.trees := by
  cases o <;> rfl

section Next

variable {rule : Rule} {ts us : List Token} (h : us.take (rule.consumed ts + 1) = ts.take (rule.consumed ts + 1))

include h

/-- Tokens that begin as others do, up to the one behind those taken, are taken alike. -/
theorem Rule.run_of_take_eq : rule.run us = (rule.run ts).withRest (us.drop (rule.consumed ts)) := by
  have htake : us.take (rule.consumed ts) = ts.take (rule.consumed ts) := take_eq_of_le (Nat.le_succ _) h
  have hnext : next (us.drop (rule.consumed ts)) = next (rule.run ts).rest := by
    rw [← rule.drop_consumed, next, next, List.head?_drop, List.head?_drop]
    simpa using congrArg (·[rule.consumed ts]?.map Token.terminal) h
  have hrun := rule.run_next ts (us.drop (rule.consumed ts)) hnext
  rwa [← rule.take_consumed, ← htake, List.take_append_drop] at hrun

theorem Rule.consumed_of_take_eq : rule.consumed us = rule.consumed ts := by
  rw [consumed_eq, consumed_eq, run_of_take_eq h, Outcome.taken, Outcome.trees_withRest, Outcome.taken]

theorem Rule.parse_of_take_eq : rule.parse us = rule.parse ts := by
  have hrun := run_of_take_eq h
  have hconsumed := consumed_of_take_eq h
  rcases rule.parse_eq_ok_or_error ts with ⟨cs, rest, hts, hparse⟩ | ⟨cs, rest, e, hts, hparse⟩ <;>
    rcases rule.parse_eq_ok_or_error us with ⟨cs', rest', hus, hparse'⟩ | ⟨cs', rest', e', hus, hparse'⟩ <;>
    rw [hts, hus] at hrun <;> cases hrun
  · rw [hparse, hparse']
  · -- the two stop in front of the same token, behind the same
    have hlast : us.take (rule.consumed ts) = ts.take (rule.consumed ts) := take_eq_of_le (Nat.le_succ _) h
    have hnext : us[rule.consumed ts]? = ts[rule.consumed ts]? := by
      simpa using congrArg (·[rule.consumed ts]?) h
    rw [hparse, hparse', hconsumed, hlast, hnext]

end Next

/-- One token of lookahead: tokens that begin as others do, up to the one behind those that a rule
    takes, give the same tree or the same error, as many of them are taken, and the same rules are
    entered on the way. -/
theorem Rule.answer_of_take_eq (rule : Rule) {ts us : List Token}
    (h : us.take (rule.consumed ts + 1) = ts.take (rule.consumed ts + 1)) :
    rule.parse us = rule.parse ts ∧ rule.consumed us = rule.consumed ts ∧ rule.trace us = rule.trace ts := by
  refine ⟨parse_of_take_eq h, consumed_of_take_eq h, ?_⟩
  unfold trace
  rw [run_of_take_eq h, Outcome.trees_withRest]
  rw [consumed_eq] at h
  exact entries_of_take_eq (.node rule.label (rule.run ts).trees) (by rwa [Tree.leaves])

/-- An expression that a semicolon ends, in front of one statement and in front of another. -/
theorem Rule.answer_of_take_eq_semicolon :
    let front := [Terminal.identifier, .symbol .plus, .integerConstant, .symbol .semicolon].map Terminal.token
    let ts := front ++ [Terminal.token (.keyword .letKw)]
    let us := front ++ [Terminal.token (.keyword .doKw), Terminal.token .identifier]
    let rule := Rule.expression .statement
    rule.consumed ts = 3 ∧ us.take 4 = ts.take 4 ∧ ts ≠ us ∧ (∃ tree, rule.parse ts = .ok tree) ∧
      rule.parse us = rule.parse ts ∧ rule.consumed us = 3 := by
  intro front ts us rule
  have hk : rule.consumed ts = 3 := by decide +kernel
  have hparse : ∃ tree, rule.parse ts = .ok tree := ⟨_, rfl⟩
  have htake : us.take (rule.consumed ts + 1) = ts.take (rule.consumed ts + 1) := by
    rw [hk]
    rfl
  obtain ⟨hsame, hconsumed, -⟩ := Rule.answer_of_take_eq rule htake
  exact ⟨hk, rfl, by decide, hparse, hsame, hconsumed.trans hk⟩

/-! ## Renamed tokens -/

theorem Outcome.taken_map (f : Token → Token) (o : Outcome) : (o.map f).taken = o.taken := by
  cases o <;> simp [map, taken, trees, ← Tree.mapAll_eq_map, Tree.leavesAll_mapAll]

/-- A rule looks at the terminals of tokens only: of tokens that are renamed, terminals kept, it
    takes as many. Where it answers a tree it answers the renamed tree, and where it fails it asks
    for the same and tells the renamed token. -/
theorem Rule.answer_map {f : Token → Token} (hf : ∀ t, (f t).terminal = t.terminal) (rule : Rule) (ts : List Token) :
    rule.consumed (ts.map f) = rule.consumed ts ∧
      (∀ tree, rule.parse ts = .ok tree → rule.parse (ts.map f) = .ok (tree.map f)) ∧
      ∀ error, rule.parse ts = .error error → ∃ e : Expected,
        error = e.error (ts.take (rule.consumed ts)).getLast? ts[rule.consumed ts]? ∧
        rule.parse (ts.map f) =
          .error (e.error ((ts.take (rule.consumed ts)).getLast?.map f) (ts[rule.consumed ts]?.map f)) := by
  have hrun := rule.run_map hf ts
  have hconsumed : rule.consumed (ts.map f) = rule.consumed ts := by
    rw [consumed_eq, consumed_eq, hrun, Outcome.taken_map]
  refine ⟨hconsumed, ?_⟩
  rcases rule.parse_eq_ok_or_error ts with ⟨cs, rest, hts, hparse⟩ | ⟨cs, rest, e, hts, hparse⟩ <;>
    rcases rule.parse_eq_ok_or_error (ts.map f) with ⟨cs', rest', hmap, hparse'⟩ | ⟨cs', rest', e', hmap, hparse'⟩ <;>
    rw [hts, hmap] at hrun <;> cases hrun
  · rw [hparse, hparse']
    refine ⟨fun tree htree => ?_, fun error herror => nomatch herror⟩
    obtain rfl := Except.ok.inj htree
    rw [Tree.map_node]
  · rw [hparse, hparse', hconsumed, ← List.map_take, List.getLast?_map, List.getElem?_map]
    refine ⟨fun tree htree => (nomatch htree), fun error herror => ⟨e, (Except.error.inj herror).symm, rfl⟩⟩

/-- A statement without its semicolon, its tokens moved to another line and the number changed: it
    fails behind the last token, which is told on the new line. -/
theorem Rule.answer_map_moved :
    let f : Token → Token := fun t =>
      { t with kind := (match t.kind with | .integerConstant _ => .integerConstant 7 | k => k), text := "7", line := 2 }
    let ts := [Terminal.keyword .letKw, .identifier, .symbol .equals, .integerConstant].map Terminal.token
    (∀ t, (f t).terminal = t.terminal) ∧ Rule.letStatement.consumed (ts.map f) = 4 ∧
      ∃ e : Expected, Rule.letStatement.parse ts = .error (e.error (some (Terminal.token .integerConstant)) none) ∧
        Rule.letStatement.parse (ts.map f) =
          .error (e.error (some ⟨.integerConstant 7, "7", default, 2⟩) none) := by
  intro f ts
  have hf : ∀ t, (f t).terminal = t.terminal := fun ⟨k, _, _, _⟩ => by cases k <;> rfl
  have hk : Rule.letStatement.consumed ts = 4 := by decide +kernel
  have hparse : ∃ error, Rule.letStatement.parse ts = .error error := ⟨_, rfl⟩
  obtain ⟨error, herror⟩ := hparse
  obtain ⟨hconsumed, -, hfails⟩ := Rule.answer_map hf Rule.letStatement ts
  obtain ⟨e, rfl, hmap⟩ := hfails error herror
  rw [hk] at herror hmap
  exact ⟨hf, hconsumed.trans hk, e, herror, hmap⟩

end Grammar

end JackAnalyzer
