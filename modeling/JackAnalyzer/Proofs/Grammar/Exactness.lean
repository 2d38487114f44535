/-
  JackAnalyzer.Proofs.Grammar.Exactness — what the rules take, exactly. A row of tokens is a
  class just if a derivation tree of a class has it as its leaves, and then the rule builds
  that tree. An expression, an expression list and a term take a derivation tree from the
  front of the tokens and leave the token that ends it: the delimiter is the caller's.
  - `classDec_parse_exact`: classes.
  - `expression_rules_exact`: the rules of expressions.
-/

import JackAnalyzer.Grammar.Session
import JackAnalyzer.Proofs.Grammar.Lookahead

namespace JackAnalyzer.Grammar

/-! ## What a rule answers at a cursor -/

/-- The rule run at the cursor answers the tree and leaves the tokens. -/
def Rule.Yields (rule : Rule) (c : Cursor) (tree : Tree) (rest : List Token) : Prop :=
  (rule.apply c).1 = .ok tree ∧ (rule.apply c).2.ahead = rest

theorem Rule.yields_iff {rule : Rule} {c : Cursor} {tree : Tree} {rest : List Token} :
    rule.Yields c tree rest ↔ ∃ cs, tree = .node rule.label cs ∧ rule.run c.ahead = .done cs rest := by
  have hcov := rule.run_leaves c.ahead
  unfold Yields apply
  cases h : rule.run c.ahead with
  | stop ts us e => simp
  | done cs us =>
    rw [h] at hcov
    have hskip : (c.skip (Outcome.done cs us).taken).ahead = us := by
      show c.ahead.drop (Tree.leavesAll cs).length = us
      rw [hcov.eq_append, Tree.leavesAll_eq_flatMap, List.drop_left]
    simp only [hskip, Except.ok.injEq, Outcome.done.injEq]
    constructor
    · intro hx
      obtain ⟨rfl, rfl⟩ := hx
      exact ⟨cs, rfl, rfl, rfl⟩
    · intro hx
      obtain ⟨cs', rfl, rfl, rfl⟩ := hx
      exact ⟨rfl, rfl⟩

theorem Rule.parse_eq_ok_iff {rule : Rule} {ts : List Token} {tree : Tree} :
    rule.parse ts = .ok tree ↔ ∃ cs rest, tree = .node rule.label cs ∧ rule.run ts = .done cs rest := by
  have h : rule.parse ts = .ok tree ↔ ∃ rest, rule.Yields (.ofTokens ts) tree rest := by simp [Yields, parse]
  rw [h]
  simp only [yields_iff]
  exact exists_comm

theorem Rule.Yields.sound {rule : Rule} {c : Cursor} {tree : Tree} {rest : List Token} (h : rule.Yields c tree rest) :
    Derives rule.label tree ∧ c.ahead = tree.leaves ++ rest := by
  obtain ⟨cs, rfl, hrun⟩ := yields_iff.mp h
  rw [Tree.leaves_node]
  exact run_sound hrun

/-- In front of whatever may come behind it, a rule yields every derivation tree of its label. -/
theorem Rule.Yields.complete {rule : Rule} {c : Cursor} {tree : Tree} {rest : List Token}
    (ht : Derives rule.label tree) (hc : c.ahead = tree.leaves ++ rest) (hr : next rest ∈ rule.follow) :
    rule.Yields c tree rest := by
  obtain ⟨cs, rfl⟩ := ht.exists_children
  rw [Tree.leaves_node] at hc
  exact yields_iff.mpr ⟨cs, rfl, hc ▸ run_complete ht hr⟩

/-! ## What comes behind a rule -/

theorem Phrase.exists_run_last {call : Rule → List Token → Outcome} {p : Phrase} : ∀ (ps : List Phrase)
    {us vs : List Token} {ts : List Tree}, (row (ps ++ [p])).run call us = .done ts vs →
      ∃ ws front last, p.run call ws = .done last vs ∧ ts = front ++ last := by
  intro ps
  induction ps with
  | nil =>
    intro us vs ts h
    obtain ⟨ts', ws, _, hp, hskip, rfl⟩ := Outcome.andThen_eq_done.mp h
    cases hskip
    exact ⟨us, [], ts', hp, List.append_nil ts'⟩
  | cons q ps ih =>
    intro us vs ts h
    obtain ⟨front, ws, _, -, hrow, rfl⟩ := Outcome.andThen_eq_done.mp h
    obtain ⟨ws', front', last, hp, rfl⟩ := ih hrow
    exact ⟨ws', front ++ front', last, hp, (List.append_assoc _ _ _).symm⟩

theorem classDec_rest {us vs : List Token} {cs : List Tree} (h : Rule.classDec.run us = .done cs vs) : vs = [] := by
  rw [Rule.run_eq] at h
  obtain ⟨ws, _, ts, hend, -⟩ := Phrase.exists_run_last [_, _, _, _, _, _] h
  simp only [Phrase.run] at hend
  split at hend <;> cases hend
  rename_i hempty
  exact List.isEmpty_iff.mp hempty

theorem expression_rest {ctx : Context} {us vs : List Token} {cs : List Tree}
    (h : (Rule.expression ctx).run us = .done cs vs) : isAt (ctx.terminators.map .symbol) vs = true := by
  rw [Rule.run_eq] at h
  obtain ⟨ws, _, ts, hahead, -⟩ := Phrase.exists_run_last [_, _] h
  simp only [Phrase.run] at hahead
  split at hahead <;> cases hahead
  assumption

theorem expressionList_rest {us vs : List Token} {cs : List Tree} (h : Rule.expressionList.run us = .done cs vs) :
    isAt [.symbol .rparen] vs = true := by
  have argument : ∀ {us vs : List Token} {ts : List Tree},
      (Phrase.node (.expression .argument)).run Rule.call us = .done ts vs →
        isAt [.symbol .comma, .symbol .rparen] vs = true := by
    intro us vs ts h
    obtain ⟨cs, hrun, -⟩ := Outcome.wrap_eq_done.mp h
    exact expression_rest hrun
  rw [Rule.run_eq] at h
  simp only [Rule.body, Phrase.run] at h
  split at h
  · rename_i hat
    cases h
    exact hat
  · obtain ⟨_, ws, _, hfirst, hloop, -⟩ := Outcome.andThen_eq_done.mp h
    -- Behind each element there is a comma or a parenthesis, and the loop ends in front of no comma.
    obtain ⟨hat, hcomma⟩ := Phrase.run_whileAt_exit Rule.regular_call (by rfl)
      (fun us => isAt [.symbol .comma, .symbol .rparen] us = true)
      (fun us ts vs _ _ h => by
        obtain ⟨_, _, _, -, helement, -⟩ := Outcome.andThen_eq_done.mp h
        exact argument helement)
      ws.length (Nat.le_refl _) (argument hfirst) hloop
    rw [isAt_eq] at hat hcomma ⊢
    cases hn : next vs with
    | none => simp [hn, isIn] at hat
    | some t => simp [hn, isIn] at hat hcomma ⊢; tauto

/-! ## Classes -/

theorem classDec_parse_iff {ts : List Token} {tree : Tree} :
    Rule.classDec.parse ts = .ok tree ↔ Derives .classDec tree ∧ tree.leaves = ts := by
  rw [Rule.parse_eq_ok_iff]
  constructor
  · intro hx
    obtain ⟨cs, rest, rfl, h⟩ := hx
    obtain ⟨hd, hts⟩ := Rule.run_sound h
    rw [classDec_rest h, List.append_nil] at hts
    exact ⟨hd, by rw [Tree.leaves_node, hts]⟩
  · intro hx
    obtain ⟨hd, rfl⟩ := hx
    obtain ⟨cs, rfl⟩ := hd.exists_children
    refine ⟨cs, [], rfl, ?_⟩
    have h : Rule.classDec.run (cs.flatMap Tree.leaves ++ []) = .done cs [] := Rule.run_complete hd (by decide)
    simpa using h

/-- No class goes on where another class has ended. -/
theorem classDec_ends {tree tree' : Tree} {rest : List Token} (h : Derives .classDec tree)
    (h' : Derives .classDec tree') (hrest : tree'.leaves = tree.leaves ++ rest) : rest = [] := by
  -- The body of the rule without its last phrase takes a class in front of anything.
  let members : Phrase :=
    .row [.keyword .classKw, .identifier, .symbol .lbrace, .whileAt variableKinds (.node .classVarDec),
      .whileAt subroutineKinds (.node .subroutineDec), .accept [.symbol .rbrace] .classMember]
  have takes : ∀ {tree : Tree} (rest : List Token), Derives .classDec tree →
      ∃ cs, members.run Rule.call (tree.leaves ++ rest) = .done cs rest := by
    intro tree rest h
    obtain ⟨cs, rfl⟩ := h.exists_children
    cases h.2 with
    | node row below =>
      have hshape : members.shape.matches' = Rule.classDec.body.shape.matches' := by
        simp [members, Rule.body, Phrase.row, Phrase.shape, RegularExpression.matches'_mul]
      rw [Tree.leaves_node]
      refine ⟨cs, members.run_complete (by decide +kernel) (mem_anyNext _) ?_ below
        fun c hc => (below c hc).taken⟩
      rw [hshape, Rule.shape_body]
      exact row
  obtain ⟨cs, hrun⟩ := takes rest h
  obtain ⟨cs', hrun'⟩ := takes [] h'
  rw [List.append_nil, hrest, hrun] at hrun'
  cases hrun'
  rfl

/-- A row of tokens is parsed as a class just if it is what some derivation tree of a class has
    as its leaves, and the tree is that one: no row has two, and none is parsed that goes on
    behind a class. -/
theorem classDec_parse_exact (ts : List Token) :
    (∀ tree, Rule.classDec.parse ts = .ok tree ↔ Derives .classDec tree ∧ tree.leaves = ts) ∧
      (∀ tree tree', Derives .classDec tree ∧ tree.leaves = ts → Derives .classDec tree' ∧ tree'.leaves = ts →
        tree = tree') ∧
      ∀ tree t rest, Derives .classDec tree → tree.leaves ++ t :: rest = ts →
        ∀ tree', Rule.classDec.parse ts ≠ .ok tree' := by
  refine ⟨fun tree => classDec_parse_iff, fun tree tree' h h' => ?_, fun tree t rest hd hts tree' h' => ?_⟩
  · have heq := (classDec_parse_iff.mpr h).symm.trans (classDec_parse_iff.mpr h')
    exact Except.ok.inj heq
  · obtain ⟨hd', hts'⟩ := classDec_parse_iff.mp h'
    have hrest := classDec_ends hd hd' (hts'.trans hts.symm)
    cases hrest

/-- A class without members, and a semicolon behind it. -/
theorem classDec_parse_exact_empty_class :
    let token (k : Token.Kind) (text : String) : Token := ⟨k, text, default, 1⟩
    let tree : Tree := .node .classDec
      [.leaf (token (.keyword .classKw) "class"), .leaf (token .identifier "A"), .leaf (token (.symbol .lbrace) "\x7b"),
        .leaf (token (.symbol .rbrace) "\x7d")]
    let ts := tree.leaves ++ [token (.symbol .semicolon) ";"]
    Derives .classDec tree ∧ ∀ tree', Rule.classDec.parse ts ≠ .ok tree' := by
  intro token tree ts
  have hd : Derives .classDec tree := (((classDec_parse_exact tree.leaves).1 tree).mp rfl).1
  exact ⟨hd, (classDec_parse_exact ts).2.2 tree _ [] hd rfl⟩

/-! ## Terms -/

def nameRest : Phrase := .ifAt [.symbol .lbracket] subscript (.ifAt [.symbol .lparen, .symbol .dot] callRest .skip)

def parenthesisRest : Phrase := .row [.node (.expression .parenthesized), .symbol .rparen]

theorem Phrase.run_accept_eq_done_iff {call : Rule → List Token → Outcome} {set : List Terminal} {e : Expected}
    {us vs : List Token} {ts : List Tree} :
    (accept set e).run call us = .done ts vs ↔ ∃ t, us = t :: vs ∧ t.terminal ∈ set ∧ ts = [.leaf t] := by
  cases us with
  | nil => simp [run]
  | cons t ws =>
    simp only [run, List.contains_iff_mem]
    by_cases ht : t.terminal ∈ set
    · simp only [ht, if_true, Outcome.done.injEq]
      constructor
      · intro hx
        obtain ⟨rfl, rfl⟩ := hx
        exact ⟨t, rfl, ht, rfl⟩
      · intro hx
        obtain ⟨t', h, -, rfl⟩ := hx
        cases h
        exact ⟨rfl, rfl⟩
    · simp only [ht, if_false, reduceCtorEq, false_iff]
      intro hx
      obtain ⟨t', h, ht', -⟩ := hx
      cases h
      exact ht ht'

theorem Phrase.run_accept_both_eq_done_iff {call : Rule → List Token → Outcome} {set : List Terminal} {e : Expected}
    {q : Phrase} {us vs : List Token} {ts : List Tree} :
    (both (accept set e) q).run call us = .done ts vs ↔
      ∃ t ws ds, us = t :: ws ∧ t.terminal ∈ set ∧ q.run call ws = .done ds vs ∧ ts = .leaf t :: ds := by
  show ((accept set e).run call us).andThen (q.run call) = .done ts vs ↔ _
  rw [Outcome.andThen_eq_done]
  constructor
  · intro hx
    obtain ⟨ts₁, ws, ds, h, hq, rfl⟩ := hx
    obtain ⟨t, rfl, ht, rfl⟩ := run_accept_eq_done_iff.mp h
    exact ⟨t, ws, ds, rfl, ht, hq, rfl⟩
  · intro hx
    obtain ⟨t, ws, ds, rfl, ht, hq, rfl⟩ := hx
    exact ⟨[.leaf t], ws, ds, run_accept_eq_done_iff.mpr ⟨t, rfl, ht, rfl⟩, hq, rfl⟩

theorem term_run_eq (us : List Token) : Rule.term.run us =
    if isAt constants us then (Phrase.accept constants .term).run Rule.call us
    else if isAt [.identifier] us then (Phrase.both (.accept [.identifier] .identifier) nameRest).run Rule.call us
    else if isAt [.symbol .lparen] us then
      (Phrase.both (.accept [.symbol .lparen] (.symbol .lparen)) parenthesisRest).run Rule.call us
    else if isAt unaryOperators us then (Phrase.both (.accept unaryOperators .term) (.node .term)).run Rule.call us
    else .stop [] us .term := by
  rw [Rule.run_eq]
  rfl

/-- The forms of a term, each told by its first token. -/
theorem term_run_eq_done_iff {us vs : List Token} {cs : List Tree} : Rule.term.run us = .done cs vs ↔
    (∃ t, us = t :: vs ∧ t.terminal ∈ constants ∧ cs = [.leaf t]) ∨
    (∃ t ws ds, us = t :: ws ∧ t.terminal = .identifier ∧ nameRest.run Rule.call ws = .done ds vs ∧
      cs = .leaf t :: ds) ∨
    (∃ t ws ds, us = t :: ws ∧ t.terminal = .symbol .lparen ∧ parenthesisRest.run Rule.call ws = .done ds vs ∧
      cs = .leaf t :: ds) ∨
    ∃ t ws ds, us = t :: ws ∧ t.terminal ∈ unaryOperators ∧ Rule.term.run ws = .done ds vs ∧
      cs = [.leaf t, .node .term ds] := by
  rw [term_run_eq]
  constructor
  · intro h
    split at h
    · exact Or.inl (Phrase.run_accept_eq_done_iff.mp h)
    · split at h
      · obtain ⟨t, ws, ds, hus, ht, hrest, hcs⟩ := Phrase.run_accept_both_eq_done_iff.mp h
        exact Or.inr (Or.inl ⟨t, ws, ds, hus, List.mem_singleton.mp ht, hrest, hcs⟩)
      · split at h
        · obtain ⟨t, ws, ds, hus, ht, hrest, hcs⟩ := Phrase.run_accept_both_eq_done_iff.mp h
          exact Or.inr (Or.inr (Or.inl ⟨t, ws, ds, hus, List.mem_singleton.mp ht, hrest, hcs⟩))
        · split at h
          · obtain ⟨t, ws, _, hus, ht, hrest, hcs⟩ := Phrase.run_accept_both_eq_done_iff.mp h
            obtain ⟨ds, hterm, rfl⟩ := Outcome.wrap_eq_done.mp hrest
            exact Or.inr (Or.inr (Or.inr ⟨t, ws, ds, hus, ht, hterm, hcs⟩))
          · cases h
  · intro hx
    rcases hx with ⟨t, rfl, ht, rfl⟩ | ⟨t, ws, ds, rfl, ht, hrest, rfl⟩ | ⟨t, ws, ds, rfl, ht, hrest, rfl⟩ |
      ⟨t, ws, ds, rfl, ht, hterm, rfl⟩
    · rw [if_pos (by simpa [isAt] using ht)]
      exact Phrase.run_accept_eq_done_iff.mpr ⟨t, rfl, ht, rfl⟩
    · rw [if_neg (by simp [isAt, ht, constants]), if_pos (by simp [isAt, ht])]
      exact Phrase.run_accept_both_eq_done_iff.mpr ⟨t, ws, ds, rfl, List.mem_singleton.mpr ht, hrest, rfl⟩
    · rw [if_neg (by simp [isAt, ht, constants]), if_neg (by simp [isAt, ht]), if_pos (by simp [isAt, ht])]
      exact Phrase.run_accept_both_eq_done_iff.mpr ⟨t, ws, ds, rfl, List.mem_singleton.mpr ht, hrest, rfl⟩
    · have hop : t.terminal = .symbol .minus ∨ t.terminal = .symbol .tilde := by
        simpa [unaryOperators, Symbol.unary] using ht
      have hat : isAt constants (t :: ws) = false ∧ isAt [.identifier] (t :: ws) = false ∧
          isAt [.symbol .lparen] (t :: ws) = false ∧ isAt unaryOperators (t :: ws) = true := by
        rcases hop with hop | hop <;> simp [isAt, hop, constants, unaryOperators, Symbol.unary]
      rw [if_neg (by simp [hat]), if_neg (by simp [hat]), if_neg (by simp [hat]), if_pos hat.2.2.2]
      exact Phrase.run_accept_both_eq_done_iff.mpr
        ⟨t, ws, _, rfl, ht, Outcome.wrap_eq_done.mpr ⟨ds, hterm, rfl⟩, rfl⟩

/-- The term at the end of the operators in front of terms is a bare name. -/
inductive EndsInName : Tree → Prop
  | name (t : Token) : t.terminal = .identifier → EndsInName (.node .term [.leaf t])
  | operator (t : Token) {u : Tree} : EndsInName u → EndsInName (.node .term [.leaf t, u])

/-- The symbols that would go on behind a name. -/
def nameContinuations : List Terminal := [.symbol .lbracket, .symbol .lparen, .symbol .dot]

theorem nameRest_eq_done_nil {ws vs : List Token} (h : nameRest.run Rule.call ws = .done [] vs) :
    isAt nameContinuations vs = false := by
  -- A branch that is taken leaves fewer tokens, and a row without trees leaves all of them.
  have hws : ws = vs := by
    have hcov := Phrase.run_leaves Rule.regular_call.covers nameRest ws
    rw [h] at hcov
    exact hcov.eq_append
  subst hws
  have hlt : ∀ {p : Phrase}, p.takesSome = true → p.run Rule.call ws ≠ .done [] ws := fun hp h =>
    Nat.lt_irrefl _ (Phrase.run_length_lt Rule.regular_call hp h)
  simp only [nameRest, Phrase.run] at h
  split at h
  · exact absurd h (hlt (p := subscript) rfl)
  · split at h
    · exact absurd h (hlt (p := callRest) rfl)
    · rename_i hbracket hcall
      rw [isAt_eq] at hbracket hcall ⊢
      cases hn : next ws with
      | none => rfl
      | some t => simp_all [isIn, nameContinuations]

theorem EndsInName.constituent {t : Tree} (h : EndsInName t) : t.constituent = .node .term := by cases h <;> rfl

theorem mem_unaryOperators_of_derivation {t : Token} {u : Tree} (h : Derivation (.node .term [.leaf t, u]))
    (hu : u.constituent = .node .term) : t.terminal ∈ unaryOperators := by
  have checked : ∀ x ∈ allTerminals, (production .term).rmatch [.token x, .node .term] = true → x ∈ unaryOperators := by
    decide +kernel
  cases h with
  | node row _ =>
    refine checked t.terminal (mem_allTerminals _) ((RegularExpression.rmatch_iff_matches' _ _).mpr ?_)
    rw [← hu]
    exact row

theorem term_rest {tree : Tree} (hname : EndsInName tree) : ∀ {us vs : List Token},
    Rule.term.call us = .done [tree] vs → isAt nameContinuations vs = false := by
  induction hname with
  | name t ht =>
    intro us vs h
    obtain ⟨cs, hrun, heq⟩ := Outcome.wrap_eq_done.mp h
    cases heq
    rcases term_run_eq_done_iff.mp hrun with ⟨t', -, ht', hcs⟩ | ⟨t', ws, ds, -, -, hrest, hcs⟩ |
      ⟨t', ws, ds, -, ht', -, hcs⟩ | ⟨t', ws, ds, -, -, -, hcs⟩
    · cases hcs
      simp [ht, constants] at ht'
    · cases hcs
      exact nameRest_eq_done_nil hrest
    · cases hcs
      rw [ht] at ht'; cases ht'
    · cases hcs
  | operator t hu ih =>
    intro us vs h
    obtain ⟨cs, hrun, heq⟩ := Outcome.wrap_eq_done.mp h
    cases heq
    have hop := mem_unaryOperators_of_derivation (Rule.run_sound hrun).1.2 hu.constituent
    rcases term_run_eq_done_iff.mp hrun with ⟨t', -, -, hcs⟩ | ⟨t', ws, ds, -, ht', -, hcs⟩ |
      ⟨t', ws, ds, -, ht', -, hcs⟩ | ⟨t', ws, ds, -, -, hterm, hcs⟩
    · cases hcs
    · cases hcs
      simp [ht', unaryOperators, Symbol.unary] at hop
    · cases hcs
      simp [ht', unaryOperators, Symbol.unary] at hop
    · cases hcs
      exact ih (Outcome.wrap_eq_done.mpr ⟨ds, hterm, rfl⟩)

theorem nameRest_complete {ds : List Tree} {rest : List Token} (h : ds.map Tree.constituent ∈ nameRest.shape.matches')
    (hd : ∀ d ∈ ds, Derivation d) (hrest : ds = [] → isAt nameContinuations rest = false) :
    nameRest.run Rule.call (ds.flatMap Tree.leaves ++ rest) = .done ds rest := by
  have starts : ∀ {p : Phrase}, p.takesSome = true → ds.map Tree.constituent ∈ p.shape.matches' →
      ∃ t ∈ p.first, some t = next (ds.flatMap Tree.leaves ++ rest) := by
    intro p hp h
    rcases Phrase.mem_start.mp (p.next_mem_start h (fun d hm => (hd d hm).starts) (mem_anyNext _)) with hs | ⟨hs, -⟩
    · exact hs
    · rw [hp] at hs; cases hs
  have taken : ∀ {p : Phrase}, p.fits anyNext = true → ds.map Tree.constituent ∈ p.shape.matches' →
      p.run Rule.call (ds.flatMap Tree.leaves ++ rest) = .done ds rest :=
    fun hf hp => Phrase.run_complete _ hf (mem_anyNext _) hp hd fun d hm => (hd d hm).taken
  simp only [nameRest, Phrase.run, isAt_eq]
  rcases h with hsub | hcall | hskip
  · obtain ⟨t, ht, hnext⟩ := starts (p := subscript) rfl hsub
    obtain rfl := List.mem_singleton.mp ht
    rw [← hnext, if_pos (by decide)]
    exact taken (by decide +kernel) hsub
  · obtain ⟨t, ht, hnext⟩ := starts (p := callRest) rfl hcall
    have hcases : t = .symbol .dot ∨ t = .symbol .lparen := by
      have : t ∈ [Terminal.symbol .dot, .symbol .lparen] := ht
      simpa using this
    have hset : isIn [.symbol .lbracket] (some t) = false ∧ isIn [.symbol .lparen, .symbol .dot] (some t) = true := by
      rcases hcases with rfl | rfl <;> decide
    rw [← hnext, if_neg (by simp [hset]), if_pos hset.2]
    exact taken (by decide +kernel) hcall
  · obtain rfl := List.map_eq_nil_iff.mp ((Language.mem_one _).mp hskip)
    have hat := hrest rfl
    rw [isAt_eq] at hat
    have hset : isIn [.symbol .lbracket] (next rest) = false ∧
        isIn [.symbol .lparen, .symbol .dot] (next rest) = false := by
      cases hn : next rest with
      | none => exact ⟨rfl, rfl⟩
      | some t => simp_all [isIn, nameContinuations]
    simp [hset]

/-- A term is taken in front of anything that would not go on behind its last name. -/
theorem term_call_complete {tree : Tree} (h : Derivation tree) : ∀ {rest : List Token}, tree.constituent = .node .term →
    (EndsInName tree → isAt nameContinuations rest = false) →
      Rule.term.call (tree.leaves ++ rest) = .done [tree] rest := by
  induction h with
  | leaf t => intro rest ht; cases ht
  | @node l cs row below ih =>
    intro rest hl hname
    cases hl
    have hrow : cs.map Tree.constituent ∈ Rule.term.body.shape.matches' := by
      rw [Rule.shape_body]
      exact row
    refine Outcome.wrap_eq_done.mpr ⟨cs, term_run_eq_done_iff.mpr ?_, rfl⟩
    rw [Tree.leaves_node]
    rcases hrow with hconst | hident | hparen | hunary | hrefuse
    · obtain ⟨t, rfl, ht⟩ := map_constituent_mem_oneOf.mp hconst
      exact Or.inl ⟨t, rfl, ht, rfl⟩
    · obtain ⟨us, ds, rfl, hus, hds⟩ := map_constituent_mem_mul.mp hident
      obtain ⟨t, rfl, ht⟩ := map_constituent_mem_oneOf.mp hus
      have hrest := nameRest_complete hds (fun d hd => below d (List.mem_cons_of_mem _ hd)) fun hnil => by
        subst hnil
        exact hname (.name t (List.mem_singleton.mp ht))
      exact Or.inr (Or.inl ⟨t, _, ds, rfl, List.mem_singleton.mp ht, hrest, rfl⟩)
    · obtain ⟨us, ds, rfl, hus, hds⟩ := map_constituent_mem_mul.mp hparen
      obtain ⟨t, rfl, ht⟩ := map_constituent_mem_oneOf.mp hus
      have hdd : ∀ d ∈ ds, Derivation d := fun d hd => below d (List.mem_cons_of_mem _ hd)
      have hrest := parenthesisRest.run_complete (by decide +kernel) (mem_anyNext (next rest)) hds hdd
        fun d hd => (hdd d hd).taken
      exact Or.inr (Or.inr (Or.inl ⟨t, _, ds, rfl, List.mem_singleton.mp ht, hrest, rfl⟩))
    · obtain ⟨us, ds, rfl, hus, hds⟩ := map_constituent_mem_mul.mp hunary
      obtain ⟨t, rfl, ht⟩ := map_constituent_mem_oneOf.mp hus
      obtain ⟨u, rfl, hu⟩ := map_constituent_mem_char.mp hds
      have hcall := ih u (by simp) hu fun hend => hname (.operator t hend)
      obtain ⟨ds, hrun, hd⟩ := Outcome.wrap_eq_done.mp hcall
      cases hd
      exact Or.inr (Or.inr (Or.inr ⟨t, _, ds, by simp, ht, hrun, rfl⟩))
    · cases hrefuse

/-! ## Expressions -/

/-- At any place of the input: an expression, an expression list and a term take a derivation
    tree from the front of the tokens and leave what ends it there; a term that ends in a bare
    name leaves nothing that would go on behind the name. -/
theorem expression_rules_exact (c : Cursor) (tree : Tree) (rest : List Token) :
    (∀ ctx : Context, (Rule.expression ctx).Yields c tree rest ↔
      Derives .expression tree ∧ c.ahead = tree.leaves ++ rest ∧ ∃ t us, rest = t :: us ∧ ctx.isTerminator t = true) ∧
    (Rule.expressionList.Yields c tree rest ↔
      Derives .expressionList tree ∧ c.ahead = tree.leaves ++ rest ∧ isAt [.symbol .rparen] rest = true) ∧
    (Rule.term.Yields c tree rest ↔
      Derives .term tree ∧ c.ahead = tree.leaves ++ rest ∧
        (EndsInName tree → isAt nameContinuations rest = false)) := by
  refine ⟨fun ctx => ⟨fun h => ?_, fun ⟨ht, hc, t, us, hrest, hterm⟩ => ?_⟩, ⟨fun h => ?_, fun ⟨ht, hc, hat⟩ => ?_⟩,
    ⟨fun h => ?_, fun ⟨ht, hc, hname⟩ => ?_⟩⟩
  · obtain ⟨ht, hc⟩ := h.sound
    obtain ⟨cs, rfl, hrun⟩ := Rule.yields_iff.mp h
    have hat := expression_rest hrun
    cases rest with
    | nil => cases hat
    | cons t us => exact ⟨ht, hc, t, us, rfl, hat⟩
  · refine Rule.Yields.complete ht hc ?_
    subst hrest
    have hmem := List.contains_iff_mem.mp hterm
    obtain ⟨s, hs, heq⟩ := List.mem_map.mp hmem
    exact List.mem_map.mpr ⟨s, hs, by rw [next_cons, heq]⟩
  · obtain ⟨ht, hc⟩ := h.sound
    obtain ⟨cs, rfl, hrun⟩ := Rule.yields_iff.mp h
    exact ⟨ht, hc, expressionList_rest hrun⟩
  · refine Rule.Yields.complete ht hc ?_
    cases rest with
    | nil => cases hat
    | cons t us => simpa [isAt, Rule.follow, next_cons] using hat
  · obtain ⟨ht, hc⟩ := h.sound
    obtain ⟨cs, rfl, hrun⟩ := Rule.yields_iff.mp h
    exact ⟨ht, hc, fun hname => term_rest hname (Outcome.wrap_eq_done.mpr ⟨cs, hrun, rfl⟩)⟩
  · obtain ⟨cs, rfl⟩ := ht.exists_children
    obtain ⟨cs', hrun, heq⟩ := Outcome.wrap_eq_done.mp (term_call_complete ht.2 rfl hname)
    cases heq
    exact Rule.yields_iff.mpr ⟨cs, rfl, by rw [hc]; exact hrun⟩

end JackAnalyzer.Grammar
