/-
  JackAnalyzer.Proofs.Grammar.Statements — rows of statements, exactly. They are taken as far as
  they go: what is left does not begin as a statement does. An `else` belongs to the nearest `if`
  that can have it, so an `if` without an else part, also as the last of a row, never leaves one.
  - `ifStatement_rest`, `statements_rest`: what is left.
  - `statement_rules_exact`: both rules.
-/

import JackAnalyzer.Proofs.Grammar.Exactness

namespace JackAnalyzer.Grammar

/-! ## The tokens of a phrase itself -/

/-- The terminals that a phrase takes itself, not within the rules that it names. -/
def Phrase.terminals : Phrase → List Terminal
  | accept set _ => set
  | both p q | ifAt _ p q => p.terminals ++ q.terminals
  | whileAt _ p => p.terminals
  | skip | node _ | ahead .. | atEnd _ | refuse _ => []

theorem Phrase.terminal_mem_terminals (p : Phrase) : ∀ {ts : List Tree} {t : Token},
    ts.map Tree.constituent ∈ p.shape.matches' → .leaf t ∈ ts → t.terminal ∈ p.terminals := by
  induction p with
  | skip | ahead | atEnd =>
    intro ts t h ht
    obtain rfl := List.map_eq_nil_iff.mp ((Language.mem_one _).mp h)
    cases ht
  | accept set e =>
    intro ts t h ht
    obtain ⟨u, rfl, hu⟩ := map_constituent_mem_oneOf.mp h
    cases List.mem_singleton.mp ht
    exact hu
  | node r =>
    intro ts t h ht
    obtain ⟨u, rfl, hu⟩ := map_constituent_mem_char.mp h
    obtain rfl := List.mem_singleton.mp ht
    cases hu
  | both p q ihp ihq =>
    intro ts t h ht
    obtain ⟨us, vs, rfl, hu, hv⟩ := map_constituent_mem_mul.mp h
    rcases List.mem_append.mp ht with ht | ht
    · exact List.mem_append_left _ (ihp hu ht)
    · exact List.mem_append_right _ (ihq hv ht)
  | ifAt set p q ihp ihq =>
    intro ts t h ht
    rcases h with h | h
    · exact List.mem_append_left _ (ihp h ht)
    · exact List.mem_append_right _ (ihq h ht)
  | whileAt set p ih =>
    intro ts t h ht
    obtain ⟨rounds, rfl, hr⟩ := map_constituent_mem_star.mp h
    obtain ⟨us, hus, ht⟩ := List.mem_flatten.mp ht
    exact ih (hr us hus) ht
  | refuse e =>
    intro ts t h
    cases h

/-! ## The else part -/

structure LacksElse (tree : Tree) : Prop where
  constituent : tree.constituent = .node .ifStatement
  terminal_ne : ∀ t ∈ tree.childTokens, t.terminal ≠ .keyword .elseKw

def elsePart : Phrase := .ifAt [.keyword .elseKw] (.both (.keyword .elseKw) block) .skip

theorem elsePart_rest {us vs : List Token} {ts : List Tree} (h : elsePart.run Rule.call us = .done ts vs)
    (hts : ∀ t : Token, .leaf t ∈ ts → t.terminal ≠ .keyword .elseKw) : isAt [.keyword .elseKw] vs = false := by
  simp only [elsePart, Phrase.run] at h
  split at h
  · obtain ⟨t, ws, ds, -, ht, -, rfl⟩ := Phrase.run_accept_both_eq_done_iff.mp h
    exact absurd (List.mem_singleton.mp ht) (hts t List.mem_cons_self)
  · rename_i hat
    cases h
    simpa using hat

theorem elsePart_complete {ts : List Tree} {rest : List Token} (h : ts.map Tree.constituent ∈ elsePart.shape.matches')
    (hd : ∀ t ∈ ts, Derivation t) (hrest : ts = [] → isAt [.keyword .elseKw] rest = false) :
    elsePart.run Rule.call (ts.flatMap Tree.leaves ++ rest) = .done ts rest := by
  simp only [elsePart, Phrase.run]
  rcases h with helse | hskip
  · have hrun := Phrase.run_complete _ (by decide +kernel) (mem_anyNext (next rest)) helse hd
      fun t ht => (hd t ht).taken
    obtain ⟨t, ws, ds, hus, ht, -, -⟩ := Phrase.run_accept_both_eq_done_iff.mp hrun
    have hat : isAt [.keyword .elseKw] (ts.flatMap Tree.leaves ++ rest) = true := by
      rw [hus]
      exact List.contains_iff_mem.mpr ht
    rw [if_pos hat]
    exact hrun
  · obtain rfl := List.map_eq_nil_iff.mp ((Language.mem_one _).mp hskip)
    rw [List.flatMap_nil, List.nil_append, if_neg (by simp [hrest rfl])]

theorem mem_childTokens {l : Label} {cs : List Tree} {t : Token} :
    t ∈ (Tree.node l cs).childTokens ↔ .leaf t ∈ cs := by
  simp only [Tree.childTokens, Tree.children, List.mem_filterMap]
  constructor
  · rintro ⟨c, hc, ht⟩
    cases c with
    | leaf u => cases ht; exact hc
    | node l cs => cases ht
  · exact fun h => ⟨_, h, rfl⟩

/-! ## An if -/

theorem ifStatement_rest {us vs : List Token} {cs : List Tree} (h : Rule.ifStatement.run us = .done cs vs)
    (hlacks : LacksElse (.node .ifStatement cs)) : isAt [.keyword .elseKw] vs = false := by
  rw [Rule.run_eq] at h
  obtain ⟨ws, front, ts, hlast, rfl⟩ := Phrase.exists_run_last (p := elsePart) [_, _, _] h
  exact elsePart_rest hlast fun t ht => hlacks.terminal_ne t (mem_childTokens.mpr (List.mem_append_right _ ht))

theorem ifStatement_complete {cs : List Tree} {rest : List Token} (h : Derives .ifStatement (.node .ifStatement cs))
    (hrest : LacksElse (.node .ifStatement cs) → isAt [.keyword .elseKw] rest = false) :
    Rule.ifStatement.run (cs.flatMap Tree.leaves ++ rest) = .done cs rest := by
  have taken : ∀ {p : Phrase} {ts : List Tree} (us : List Token), p.fits anyNext = true →
      ts.map Tree.constituent ∈ p.shape.matches' → (∀ t ∈ ts, Derivation t) →
      p.run Rule.call (ts.flatMap Tree.leaves ++ us) = .done ts us :=
    fun us hf hp hd => Phrase.run_complete _ hf (mem_anyNext (next us)) hp hd fun t ht => (hd t ht).taken
  cases h.2 with
  | node row below =>
    have hrow : cs.map Tree.constituent ∈ Rule.ifStatement.body.shape.matches' := by
      rw [Rule.shape_body]
      exact row
    -- The keyword, the condition and the block of the `if` itself, and then its else part.
    obtain ⟨ks, cs, rfl, hks, hcs⟩ := map_constituent_mem_mul.mp hrow
    obtain ⟨us, cs, rfl, hus, hcs⟩ := map_constituent_mem_mul.mp hcs
    obtain ⟨bs, cs, rfl, hbs, hcs⟩ := map_constituent_mem_mul.mp hcs
    obtain ⟨es, _, rfl, hes, hnil⟩ := map_constituent_mem_mul.mp hcs
    obtain rfl := List.map_eq_nil_iff.mp ((Language.mem_one _).mp hnil)
    have helse : es = [] → isAt [.keyword .elseKw] rest = false := by
      intro he
      subst he
      refine hrest ⟨rfl, fun t ht => ?_⟩
      simp only [mem_childTokens, List.append_nil, List.mem_append] at ht
      rcases ht with ht | ht | ht
      · exact fun hk => absurd (hk ▸ Phrase.terminal_mem_terminals _ hks ht) (by decide)
      · exact fun hk => absurd (hk ▸ Phrase.terminal_mem_terminals _ hus ht) (by decide)
      · exact fun hk => absurd (hk ▸ Phrase.terminal_mem_terminals _ hbs ht) (by decide)
    simp only [List.append_nil, List.forall_mem_append] at below
    obtain ⟨hdk, hdu, hdb, hde⟩ := below
    rw [Rule.run_eq]
    simp only [List.append_nil, List.flatMap_append, List.append_assoc]
    refine Outcome.andThen_eq_done.mpr ⟨ks, _, _, taken _ (by decide) hks hdk, ?_, rfl⟩
    refine Outcome.andThen_eq_done.mpr ⟨us, _, _, taken _ (by decide +kernel) hus hdu, ?_, rfl⟩
    refine Outcome.andThen_eq_done.mpr ⟨bs, _, _, taken _ (by decide +kernel) hbs hdb, ?_, rfl⟩
    exact Outcome.andThen_eq_done.mpr ⟨es, rest, [], elsePart_complete hes hde helse, rfl, (List.append_nil es).symm⟩

/-! ## One statement -/

def statementRules : List Rule := [.letStatement, .ifStatement, .whileStatement, .doStatement, .returnStatement]

/-- A round of the loop over statements. -/
def statement : Phrase :=
  .ifAt [.keyword .letKw] (.node .letStatement) <|
  .ifAt [.keyword .ifKw] (.node .ifStatement) <|
  .ifAt [.keyword .whileKw] (.node .whileStatement) <|
  .ifAt [.keyword .doKw] (.node .doStatement) (.node .returnStatement)

theorem statement_run_cases (call : Rule → List Token → Outcome) (us : List Token) :
    ∃ r ∈ statementRules, statement.run call us = call r us := by
  simp only [statement, Phrase.run]
  repeat' split
  all_goals exact ⟨_, by simp [statementRules], rfl⟩

/-- A round runs the rule that starts with the next token. -/
theorem statement_run_eq {call : Rule → List Token → Outcome} {r : Rule} (hr : r ∈ statementRules) {us : List Token}
    (h : next us ∈ r.first.map some) : statement.run call us = call r us := by
  simp only [statementRules, List.mem_cons, List.not_mem_nil, or_false] at hr
  rcases hr with rfl | rfl | rfl | rfl | rfl <;>
    obtain h := List.mem_singleton.mp h <;>
    simp [statement, Phrase.run, isAt_eq, isIn, h]

theorem statement_shape {ts : List Tree} (h : ts.map Tree.constituent ∈ statement.shape.matches') :
    ∃ t, ∃ r ∈ statementRules, ts = [t] ∧ t.constituent = .node r.label := by
  rcases h with h | h | h | h | h <;>
    obtain ⟨t, rfl, ht⟩ := map_constituent_mem_char.mp h <;>
    exact ⟨t, _, by simp [statementRules], rfl, ht⟩

theorem Rule.eq_ifStatement {r : Rule} (h : r.label = .ifStatement) : r = .ifStatement := by
  cases r <;> first | rfl | cases h

/-- Every statement begins with a keyword of its own, which is no `else`, and all but an `if` may
    stand in front of anything. -/
theorem Rule.first_of_statement {r : Rule} (hr : r ∈ statementRules) :
    r.takesSome = true ∧ r.first ⊆ statementStarts ∧ .keyword .elseKw ∉ r.first ∧
      (r.label = .ifStatement ∨ r.follow = anyNext) := by
  simp only [statementRules, List.mem_cons, List.not_mem_nil, or_false] at hr
  rcases hr with rfl | rfl | rfl | rfl | rfl <;> decide +kernel

theorem statement_complete {r : Rule} (hr : r ∈ statementRules) {t : Tree} (ht : t.constituent = .node r.label)
    (hd : Derivation t) {rest : List Token} (hrest : LacksElse t → isAt [.keyword .elseKw] rest = false) :
    r.call (t.leaves ++ rest) = .done [t] rest := by
  rcases (Rule.first_of_statement hr).2.2.2 with hif | hany
  · obtain rfl := Rule.eq_ifStatement hif
    obtain ⟨cs, rfl⟩ := Derives.exists_children ⟨ht, hd⟩
    rw [Tree.leaves_node]
    exact Outcome.wrap_eq_done.mpr ⟨cs, ifStatement_complete ⟨ht, hd⟩ hrest, rfl⟩
  · exact hd.taken r rest ht (hany ▸ mem_anyNext _)

theorem next_statement {r : Rule} (hr : r ∈ statementRules) {t : Tree} (ht : t.constituent = .node r.label)
    (hd : Derivation t) (rest : List Token) : next (t.leaves ++ rest) ∈ r.first.map some := by
  obtain ⟨hsome, -⟩ := Rule.first_of_statement hr
  rcases Phrase.mem_start.mp (hd.starts r anyNext rest ht (mem_anyNext _)) with ⟨x, hx, heq⟩ | ⟨hnone, -⟩
  · exact List.mem_map.mpr ⟨x, hx, heq⟩
  · rw [Phrase.takesSome, hsome] at hnone
    cases hnone

/-! ## Rows of statements -/

/-- A loop ends in front of no token of its set. It took nothing, or it ends as its last round
    does, and with what that takes. -/
theorem Phrase.run_whileAt_last {call : Rule → List Token → Outcome} (hc : Regular call) {p : Phrase}
    (hp : p.takesSome = true) {set : List Terminal} : ∀ (n : Nat) {us vs : List Token} {ts : List Tree},
      us.length ≤ n → (whileAt set p).run call us = .done ts vs →
        isAt set vs = false ∧ (ts = [] ∨ ∃ ws front last, p.run call ws = .done last vs ∧ ts = front ++ last) := by
  intro n
  induction n with
  | zero =>
    intro us vs ts hn h
    obtain rfl := List.length_eq_zero_iff.mp (Nat.le_zero.mp hn)
    cases h
    exact ⟨rfl, Or.inl rfl⟩
  | succ n ih =>
    intro us vs ts hn h
    rw [run_whileAt hc hp] at h
    split at h
    · obtain ⟨ts₁, ws, ts₂, h₁, h₂, rfl⟩ := Outcome.andThen_eq_done.mp h
      have hlt := run_length_lt hc hp h₁
      obtain ⟨hat, hlast⟩ := ih (by omega) h₂
      refine ⟨hat, Or.inr ?_⟩
      rcases hlast with rfl | ⟨ws', front, last, hrun, rfl⟩
      · -- No round follows: this one leaves what the loop leaves.
        have hcov := run_leaves hc.covers (whileAt set p) ws
        rw [h₂] at hcov
        obtain rfl : ws = vs := hcov.eq_append
        exact ⟨us, [], ts₁, h₁, List.append_nil ts₁⟩
      · exact ⟨ws', ts₁ ++ front, last, hrun, (List.append_assoc _ _ _).symm⟩
    · rename_i hat
      cases h
      exact ⟨by simpa using hat, Or.inl rfl⟩

theorem statements_rest {us vs : List Token} {cs : List Tree} (h : Rule.statements.run us = .done cs vs) :
    isAt statementStarts vs = false ∧ ∀ last ∈ cs.getLast?, LacksElse last → isAt [.keyword .elseKw] vs = false := by
  rw [Rule.run_eq] at h
  obtain ⟨hat, hlast⟩ := Phrase.run_whileAt_last (p := statement) Rule.regular_call rfl us.length (Nat.le_refl _) h
  refine ⟨hat, ?_⟩
  rcases hlast with rfl | ⟨ws, front, ts, hrun, rfl⟩
  · exact fun _ hlast => nomatch hlast
  · obtain ⟨r, -, heq⟩ := statement_run_cases Rule.call ws
    obtain ⟨ds, hrule, rfl⟩ := Outcome.wrap_eq_done.mp (heq.symm.trans hrun)
    intro last hlast hlacks
    rw [List.getLast?_append, List.getLast?_singleton] at hlast
    cases hlast
    obtain rfl := Rule.eq_ifStatement (Constituent.node.inj hlacks.constituent)
    exact ifStatement_rest hrule hlacks

/-- Statements are taken, one after the other, up to where no statement begins. -/
theorem statements_complete {cs : List Tree} {rest : List Token}
    (hcs : ∀ t ∈ cs, Derivation t ∧ ∃ r ∈ statementRules, t.constituent = .node r.label)
    (hat : isAt statementStarts rest = false)
    (hrest : ∀ last ∈ cs.getLast?, LacksElse last → isAt [.keyword .elseKw] rest = false) :
    Rule.statements.run (cs.flatMap Tree.leaves ++ rest) = .done cs rest := by
  have hloop : ∀ us, Rule.statements.run us = if isAt statementStarts us then
      (statement.run Rule.call us).andThen Rule.statements.run else .done [] us := by
    intro us
    have hrun : Rule.statements.run = (Phrase.whileAt statementStarts statement).run Rule.call :=
      funext Rule.statements.run_eq
    rw [hrun, Phrase.run_whileAt Rule.regular_call rfl]
  induction cs with
  | nil => rw [List.flatMap_nil, List.nil_append, hloop, if_neg (by simp [hat])]
  | cons t cs ih =>
    obtain ⟨⟨hd, r, hr, ht⟩, hcs⟩ := List.forall_mem_cons.mp hcs
    have hnext := next_statement hr ht hd (cs.flatMap Tree.leaves ++ rest)
    have hlater := ih hcs fun last hlast => hrest last (List.mem_getLast?_cons hlast)
    -- Behind a statement there is another one, or what is left behind the last.
    have helse : LacksElse t → isAt [.keyword .elseKw] (cs.flatMap Tree.leaves ++ rest) = false := by
      intro hlacks
      cases cs with
      | nil => exact hrest t rfl hlacks
      | cons u cs =>
        obtain ⟨⟨hd', r', hr', ht'⟩, -⟩ := List.forall_mem_cons.mp hcs
        have hnext' := next_statement hr' ht' hd' (cs.flatMap Tree.leaves ++ rest)
        obtain ⟨x, hx, heq⟩ := List.mem_map.mp hnext'
        have hne : x ≠ .keyword .elseKw := fun hne => (Rule.first_of_statement hr').2.2.1 (hne ▸ hx)
        rw [List.flatMap_cons, List.append_assoc, isAt_eq, ← heq]
        simpa [isIn] using hne
    obtain ⟨x, hx, heq⟩ := List.mem_map.mp hnext
    have hstarts : isAt statementStarts (t.leaves ++ (cs.flatMap Tree.leaves ++ rest)) = true := by
      rw [isAt_eq, ← heq]
      exact List.contains_iff_mem.mpr ((Rule.first_of_statement hr).2.1 hx)
    rw [List.flatMap_cons, List.append_assoc, hloop, if_pos hstarts, statement_run_eq hr hnext]
    exact Outcome.andThen_eq_done.mpr ⟨[t], _, cs, statement_complete hr ht hd helse, hlater, rfl⟩

/-- At any place of the input: statements are taken as far as they go, and what is left begins
    neither as a statement nor, where the last of them is an `if` without an else part, with an
    `else`; an `if` is taken with its else part where there is one. -/
theorem statement_rules_exact (c : Cursor) (tree : Tree) (rest : List Token) :
    (Rule.statements.Yields c tree rest ↔
      Derives .statements tree ∧ c.ahead = tree.leaves ++ rest ∧ isAt statementStarts rest = false ∧
        ∀ last ∈ tree.children.getLast?, LacksElse last → isAt [.keyword .elseKw] rest = false) ∧
    (Rule.ifStatement.Yields c tree rest ↔
      Derives .ifStatement tree ∧ c.ahead = tree.leaves ++ rest ∧
        (LacksElse tree → isAt [.keyword .elseKw] rest = false)) := by
  refine ⟨⟨fun h => ?_, fun ⟨ht, hc, hat, hlast⟩ => ?_⟩, ⟨fun h => ?_, fun ⟨ht, hc, hlacks⟩ => ?_⟩⟩
  · obtain ⟨ht, hc⟩ := h.sound
    obtain ⟨cs, rfl, hrun⟩ := Rule.yields_iff.mp h
    exact ⟨ht, hc, statements_rest hrun⟩
  · obtain ⟨cs, rfl⟩ := ht.exists_children
    rw [Tree.leaves_node] at hc
    refine Rule.yields_iff.mpr ⟨cs, rfl, hc ▸ statements_complete ?_ hat hlast⟩
    cases ht.2 with
    | node row below =>
      have hrow : cs.map Tree.constituent ∈ Rule.statements.body.shape.matches' := by
        rw [Rule.shape_body]
        exact row
      obtain ⟨rounds, rfl, hrounds⟩ := map_constituent_mem_star.mp hrow
      intro t htm
      obtain ⟨us, hus, hmem⟩ := List.mem_flatten.mp htm
      obtain ⟨u, r, hr, rfl, hu⟩ := statement_shape (hrounds us hus)
      obtain rfl := List.mem_singleton.mp hmem
      exact ⟨below _ htm, r, hr, hu⟩
  · obtain ⟨ht, hc⟩ := h.sound
    obtain ⟨cs, rfl, hrun⟩ := Rule.yields_iff.mp h
    exact ⟨ht, hc, ifStatement_rest hrun⟩
  · obtain ⟨cs, rfl⟩ := ht.exists_children
    rw [Tree.leaves_node] at hc
    exact Rule.yields_iff.mpr ⟨cs, rfl, hc ▸ ifStatement_complete ht hlacks⟩

end JackAnalyzer.Grammar
