/-
  JackAnalyzer.Proofs.Grammar.Derivation — the grammar of Jack as it is written down: a
  production for each label, a regular expression over terminals and labels. A type, a
  statement, an operator and a call are written in place: they have no label. A derivation
  tree has at each node a row of children that the node's production matches; the tokens at
  its leaves count by their terminals only.
  - `Rule.shape_body`: what a rule's body can take is what the production of its label matches.
  - `Rule.run_sound`: a rule that ends has built a derivation tree of the tokens it took.
-/

import JackAnalyzer.Proofs.Grammar.Depth
import Mathlib.Computability.RegularExpressions
import Mathlib.Tactic.Abel

namespace JackAnalyzer.Grammar

/-- A child of a node, as a production names it. -/
inductive Constituent where
  | token (t : Terminal)
  | node (l : Label)
  deriving DecidableEq, Repr

end JackAnalyzer.Grammar

namespace JackAnalyzer

open Grammar

def Tree.constituent : Tree → Constituent
  | leaf t => .token t.terminal
  | node l _ => .node l

end JackAnalyzer

namespace JackAnalyzer.Grammar

/-- The right side of a rule of the grammar. -/
abbrev Production := RegularExpression Constituent

/-! ## The productions -/

namespace Production

def terminal (t : Terminal) : Production := .char (.token t)

def keyword (k : Keyword) : Production := terminal (.keyword k)

def symbol (s : Symbol) : Production := terminal (.symbol s)

def identifier : Production := terminal .identifier

def rule (l : Label) : Production := .char (.node l)

def opt (p : Production) : Production := p + 1

def type : Production := keyword .intKw + keyword .charKw + keyword .booleanKw + identifier

def statement : Production :=
  rule .letStatement + rule .ifStatement + rule .whileStatement + rule .doStatement + rule .returnStatement

def binaryOperator : Production :=
  symbol .plus + symbol .minus + symbol .star + symbol .slash + symbol .ampersand + symbol .bar + symbol .less +
    symbol .greater + symbol .equals

def unaryOperator : Production := symbol .minus + symbol .tilde

def keywordConstant : Production := keyword .trueKw + keyword .falseKw + keyword .nullKw + keyword .thisKw

def subroutineCall : Production :=
  identifier * symbol .lparen * rule .expressionList * symbol .rparen +
    identifier * symbol .dot * identifier * symbol .lparen * rule .expressionList * symbol .rparen

end Production

open Production

def production : Label → Production
  | .classDec =>
    keyword .classKw * identifier * symbol .lbrace * (rule .classVarDec).star * (rule .subroutineDec).star *
      symbol .rbrace
  | .classVarDec =>
    (keyword .staticKw + keyword .fieldKw) * type * identifier * (symbol .comma * identifier).star * symbol .semicolon
  | .subroutineDec =>
    (keyword .constructorKw + keyword .functionKw + keyword .methodKw) * (type + keyword .voidKw) * identifier *
      symbol .lparen * rule .parameterList * symbol .rparen * rule .subroutineBody
  | .parameterList => opt (type * identifier * (symbol .comma * type * identifier).star)
  | .subroutineBody => symbol .lbrace * (rule .varDec).star * rule .statements * symbol .rbrace
  | .varDec => keyword .varKw * type * identifier * (symbol .comma * identifier).star * symbol .semicolon
  | .statements => statement.star
  | .letStatement =>
    keyword .letKw * identifier * opt (symbol .lbracket * rule .expression * symbol .rbracket) *
      symbol .equals * rule .expression * symbol .semicolon
  | .ifStatement =>
    keyword .ifKw * symbol .lparen * rule .expression * symbol .rparen * symbol .lbrace * rule .statements *
      symbol .rbrace * opt (keyword .elseKw * symbol .lbrace * rule .statements * symbol .rbrace)
  | .whileStatement =>
    keyword .whileKw * symbol .lparen * rule .expression * symbol .rparen * symbol .lbrace * rule .statements *
      symbol .rbrace
  | .doStatement => keyword .doKw * subroutineCall * symbol .semicolon
  | .returnStatement => keyword .returnKw * opt (rule .expression) * symbol .semicolon
  | .expression => rule .term * (binaryOperator * rule .term).star
  | .term =>
    terminal .integerConstant + terminal .stringConstant + keywordConstant + identifier +
      identifier * symbol .lbracket * rule .expression * symbol .rbracket + subroutineCall +
      symbol .lparen * rule .expression * symbol .rparen + unaryOperator * rule .term
  | .expressionList => opt (rule .expression * (symbol .comma * rule .expression).star)

/-! ## Derivation trees -/

/-- The children of each node are a row that the production of the node's label matches. -/
inductive Derivation : Tree → Prop
  | leaf (t : Token) : Derivation (.leaf t)
  | node {l : Label} {cs : List Tree} (row : cs.map Tree.constituent ∈ (production l).matches')
      (below : ∀ c ∈ cs, Derivation c) : Derivation (.node l cs)

/-- A derivation tree of a label. -/
def Derives (l : Label) (t : Tree) : Prop := t.constituent = .node l ∧ Derivation t

theorem derives_node {l l' : Label} {cs : List Tree} :
    Derives l (.node l' cs) ↔ l' = l ∧ Derivation (.node l' cs) := by
  simp [Derives, Tree.constituent]

theorem Derives.exists_children {l : Label} {t : Tree} (h : Derives l t) : ∃ cs, t = .node l cs := by
  obtain ⟨ht, -⟩ := h
  cases t with
  | leaf t => cases ht
  | node l' cs => cases ht; exact ⟨cs, rfl⟩

/-! ## What a phrase can take -/

def Production.oneOf (set : List Terminal) : Production := (set.map terminal).sum

/-- What a phrase can take, whatever token comes next. -/
def Phrase.shape : Phrase → Production
  | skip | ahead .. | atEnd _ => 1
  | accept set _ => oneOf set
  | node r => rule r.label
  | both p q => p.shape * q.shape
  | ifAt _ p q => p.shape + q.shape
  | whileAt _ p => p.shape.star
  | refuse _ => 0

section Languages

open RegularExpression

theorem map_constituent_mem_char {ts : List Tree} {x : Constituent} :
    ts.map Tree.constituent ∈ (char x : Production).matches' ↔ ∃ t, ts = [t] ∧ t.constituent = x := by
  show ts.map Tree.constituent ∈ ({[x]} : Set (List Constituent)) ↔ _
  rw [Set.mem_singleton_iff, List.map_eq_singleton_iff]

theorem mem_oneOf {w : List Constituent} {set : List Terminal} :
    w ∈ (oneOf set).matches' ↔ ∃ t ∈ set, w = [.token t] := by
  induction set with
  | nil => simp [oneOf]
  | cons t set ih =>
    have hcons : (oneOf (t :: set)).matches' = (terminal t).matches' + (oneOf set).matches' := rfl
    rw [hcons, Language.mem_add, ih]
    simp only [List.mem_cons, exists_eq_or_imp]
    exact Iff.rfl

theorem map_constituent_mem_oneOf {ts : List Tree} {set : List Terminal} :
    ts.map Tree.constituent ∈ (oneOf set).matches' ↔ ∃ t : Token, ts = [.leaf t] ∧ t.terminal ∈ set := by
  rw [mem_oneOf]
  constructor
  · intro hx
    obtain ⟨x, hx, h⟩ := hx
    obtain ⟨t, rfl, ht⟩ := List.map_eq_singleton_iff.mp h
    cases t with
    | leaf t => cases ht; exact ⟨t, rfl, hx⟩
    | node l cs => cases ht
  · intro hx
    obtain ⟨t, rfl, ht⟩ := hx
    exact ⟨t.terminal, ht, rfl⟩

theorem map_constituent_mem_mul {ts : List Tree} {p q : Production} :
    ts.map Tree.constituent ∈ (p * q).matches' ↔
      ∃ us vs, ts = us ++ vs ∧ us.map Tree.constituent ∈ p.matches' ∧ vs.map Tree.constituent ∈ q.matches' := by
  rw [matches'_mul, Language.mem_mul]
  constructor
  · intro hx
    obtain ⟨a, ha, b, hb, h⟩ := hx
    obtain ⟨us, vs, rfl, rfl, rfl⟩ := List.map_eq_append_iff.mp h.symm
    exact ⟨us, vs, rfl, ha, hb⟩
  · intro hx
    obtain ⟨us, vs, rfl, hu, hv⟩ := hx
    exact ⟨_, hu, _, hv, List.map_append.symm⟩

theorem map_constituent_mem_star {ts : List Tree} {p : Production} :
    ts.map Tree.constituent ∈ p.star.matches' ↔
      ∃ rounds : List (List Tree), ts = rounds.flatten ∧ ∀ us ∈ rounds, us.map Tree.constituent ∈ p.matches' := by
  rw [matches'_star, Language.mem_kstar]
  constructor
  · intro hx
    obtain ⟨ws, h, hw⟩ := hx
    induction ws generalizing ts with
    | nil => exact ⟨[], by simpa using h, by simp⟩
    | cons w ws ih =>
      rw [List.flatten_cons] at h
      obtain ⟨us, vs, rfl, rfl, hv⟩ := List.map_eq_append_iff.mp h
      obtain ⟨rounds, rfl, hr⟩ := ih hv fun y hy => hw y (List.mem_cons_of_mem _ hy)
      refine ⟨us :: rounds, rfl, fun zs hz => ?_⟩
      rcases List.mem_cons.mp hz with rfl | hz
      · exact hw _ List.mem_cons_self
      · exact hr zs hz
  · intro hx
    obtain ⟨rounds, rfl, hr⟩ := hx
    refine ⟨rounds.map (List.map Tree.constituent), List.map_flatten, fun y hy => ?_⟩
    obtain ⟨us, hu, rfl⟩ := List.mem_map.mp hy
    exact hr us hu

/-! ## The bodies of the rules match the productions -/

theorem matches'_oneOf_singleton (t : Terminal) : (oneOf [t]).matches' = (terminal t).matches' := by
  simp [oneOf, matches'_add]

theorem matches'_oneOf_types : (oneOf types).matches' = type.matches' := by
  simp [oneOf, types, type, keyword, identifier, matches'_add, add_assoc]

theorem matches'_oneOf_returnTypes : (oneOf returnTypes).matches' = (type + keyword .voidKw).matches' := by
  have h : (oneOf returnTypes).matches' = (keyword .voidKw).matches' + (oneOf types).matches' := rfl
  rw [h, matches'_oneOf_types, matches'_add, add_comm]

theorem matches'_oneOf_binary : (oneOf binaryOperators).matches' = binaryOperator.matches' := by
  simp [oneOf, binaryOperators, Symbol.binary, binaryOperator, symbol, matches'_add, add_assoc]

theorem matches'_oneOf_unary : (oneOf unaryOperators).matches' = unaryOperator.matches' := by
  simp [oneOf, unaryOperators, Symbol.unary, unaryOperator, symbol, matches'_add]

theorem matches'_oneOf_constants : (oneOf constants).matches' =
    (terminal .integerConstant).matches' + (terminal .stringConstant).matches' + keywordConstant.matches' := by
  simp [oneOf, constants, keywordConstant, keyword, matches'_add, add_assoc]

theorem matches'_oneOf_variableKinds :
    (oneOf variableKinds).matches' = (keyword .staticKw + keyword .fieldKw).matches' := by
  simp [oneOf, variableKinds, keyword, matches'_add]

theorem matches'_oneOf_subroutineKinds : (oneOf subroutineKinds).matches' =
    (keyword .constructorKw + keyword .functionKw + keyword .methodKw).matches' := by
  simp [oneOf, subroutineKinds, keyword, matches'_add, add_assoc]

/-- What a rule's body can take is what the production of its label matches. -/
theorem Rule.shape_body (r : Rule) : r.body.shape.matches' = (production r.label).matches' := by
  cases r <;>
  simp only [body, label, production, Phrase.row, Phrase.shape, Phrase.keyword, Phrase.symbol, Phrase.identifier,
    typedNames, commaSeparated, block, condition, subscript, callRest, keyword, symbol, identifier, opt, statement,
    subroutineCall, matches'_add, matches'_mul, matches'_star, matches'_epsilon, matches'_zero,
    matches'_oneOf_singleton, matches'_oneOf_types, matches'_oneOf_returnTypes, matches'_oneOf_binary,
    matches'_oneOf_unary, matches'_oneOf_constants, matches'_oneOf_variableKinds, matches'_oneOf_subroutineKinds,
    mul_one, add_zero, mul_assoc, add_assoc]
  -- Where the body puts the empty row first, or takes the common front of two forms once.
  case parameterList | expressionList => exact add_comm _ _
  case returnStatement => rw [add_comm 1]
  case doStatement | term =>
    simp only [add_mul, mul_add, one_mul, mul_one, mul_assoc]
    abel

end Languages

/-! ## Soundness -/

/-- A phrase that ends has taken what it can take, if each rule it calls builds a derivation
    tree of its own label. -/
theorem Phrase.run_sound {call : Rule → List Token → Outcome}
    (hc : ∀ r us ts vs, call r us = .done ts vs → ∃ t, ts = [t] ∧ Derives r.label t) (p : Phrase) :
    ∀ us ts vs, p.run call us = .done ts vs →
      ts.map Tree.constituent ∈ p.shape.matches' ∧ ∀ t ∈ ts, Derivation t := by
  induction p with
  | skip =>
    intro us ts vs h
    cases h
    exact ⟨Language.nil_mem_one, by simp⟩
  | accept set e =>
    intro us ts vs h
    simp only [run] at h
    split at h
    · cases h
    · rename_i t rest
      split at h
      · rename_i hmem
        cases h
        refine ⟨map_constituent_mem_oneOf.mpr ⟨t, rfl, List.contains_iff_mem.mp hmem⟩, ?_⟩
        simpa using Derivation.leaf t
      · cases h
  | node r =>
    intro us ts vs h
    obtain ⟨t, rfl, ht, hd⟩ := hc r us ts vs h
    exact ⟨map_constituent_mem_char.mpr ⟨t, rfl, ht⟩, by simpa using hd⟩
  | both p q ihp ihq =>
    intro us ts vs h
    obtain ⟨ts₁, ws, ts₂, h₁, h₂, rfl⟩ := Outcome.andThen_eq_done.mp h
    obtain ⟨hp, hdp⟩ := ihp us ts₁ ws h₁
    obtain ⟨hq, hdq⟩ := ihq ws ts₂ vs h₂
    refine ⟨map_constituent_mem_mul.mpr ⟨ts₁, ts₂, rfl, hp, hq⟩, fun t ht => ?_⟩
    exact (List.mem_append.mp ht).elim (hdp t) (hdq t)
  | ifAt set p q ihp ihq =>
    intro us ts vs h
    simp only [run] at h
    split at h
    · exact (ihp us ts vs h).imp_left Or.inl
    · exact (ihq us ts vs h).imp_left Or.inr
  | whileAt set p ih =>
    -- The induction is on the rounds that are left.
    suffices ∀ n us ts vs, repeatAt set (p.run call) n us = .done ts vs →
        ts.map Tree.constituent ∈ (whileAt set p).shape.matches' ∧ ∀ t ∈ ts, Derivation t from
      fun us ts vs h => this _ us ts vs h
    intro n
    induction n with
    | zero =>
      intro us ts vs h
      cases h
      exact ⟨Language.nil_mem_kstar _, by simp⟩
    | succ n ihn =>
      intro us ts vs h
      simp only [repeatAt] at h
      split at h
      · obtain ⟨ts₁, ws, ts₂, h₁, h₂, rfl⟩ := Outcome.andThen_eq_done.mp h
        obtain ⟨hp, hdp⟩ := ih us ts₁ ws h₁
        obtain ⟨hq, hdq⟩ := ihn ws ts₂ vs h₂
        obtain ⟨rounds, rfl, hr⟩ := map_constituent_mem_star.mp hq
        refine ⟨map_constituent_mem_star.mpr ⟨ts₁ :: rounds, rfl, ?_⟩, fun t ht => ?_⟩
        · intro us hu
          rcases List.mem_cons.mp hu with rfl | hu
          · exact hp
          · exact hr us hu
        · exact (List.mem_append.mp ht).elim (hdp t) (hdq t)
      · cases h
        exact ⟨Language.nil_mem_kstar _, by simp⟩
  | ahead set e =>
    intro us ts vs h
    simp only [run] at h
    split at h <;> cases h
    exact ⟨Language.nil_mem_one, by simp⟩
  | atEnd e =>
    intro us ts vs h
    simp only [run] at h
    split at h <;> cases h
    exact ⟨Language.nil_mem_one, by simp⟩
  | refuse e => intro us ts vs h; cases h

theorem Rule.runWithin_sound (n : Nat) : ∀ (r : Rule) us cs vs, r.runWithin n us = .done cs vs →
    Derivation (.node r.label cs) := by
  induction n with
  | zero => intro r us cs vs h; cases h
  | succ n ih =>
    intro r us cs vs h
    obtain ⟨hrow, hbelow⟩ := Phrase.run_sound (fun r us ts vs h => by
      obtain ⟨cs, hcs, rfl⟩ := Outcome.wrap_eq_done.mp h
      exact ⟨_, rfl, derives_node.mpr ⟨rfl, ih r us cs vs hcs⟩⟩) r.body us cs vs h
    rw [shape_body] at hrow
    exact .node hrow hbelow

theorem Rule.run_sound {r : Rule} {us vs : List Token} {cs : List Tree} (h : r.run us = .done cs vs) :
    Derives r.label (.node r.label cs) ∧ us = cs.flatMap Tree.leaves ++ vs := by
  refine ⟨derives_node.mpr ⟨rfl, runWithin_sound _ r us cs vs h⟩, ?_⟩
  have hcov := r.run_leaves us
  rw [h] at hcov
  exact hcov.eq_append

theorem Rule.call_sound {r : Rule} {us vs : List Token} {ts : List Tree} (h : r.call us = .done ts vs) :
    ∃ t, ts = [t] ∧ Derives r.label t := by
  obtain ⟨cs, hrun, rfl⟩ := Outcome.wrap_eq_done.mp h
  exact ⟨_, rfl, (run_sound hrun).1⟩

end JackAnalyzer.Grammar
