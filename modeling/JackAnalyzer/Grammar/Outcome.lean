/-
  JackAnalyzer.Grammar.Outcome — rules run on a row of tokens. A rule either takes some
  tokens from the front and builds trees, or stops in front of a token, or of the end, that
  it cannot take. In both cases the trees built so far and the tokens not taken are the
  answer: nothing is given back.
  - `Phrase.run_leaves`: the leaves of the trees and the rest are the tokens of before.
  - `Rule.run_leaves`: so it is for every rule.
-/

import JackAnalyzer.Grammar.Rule

namespace JackAnalyzer.Grammar

inductive Outcome where
  | done (trees : List Tree) (rest : List Token)
  | stop (trees : List Tree) (rest : List Token) (expected : Expected)

namespace Outcome

/-- The trees built, the last of them unfinished where the rule stopped. -/
def trees : Outcome → List Tree
  | done ts _ => ts
  | stop ts _ _ => ts

def rest : Outcome → List Token
  | done _ us => us
  | stop _ us _ => us

def taken (o : Outcome) : Nat := (Tree.leavesAll o.trees).length

def wrap (l : Label) : Outcome → Outcome
  | done ts us => done [.node l ts] us
  | stop ts us e => stop [.node l ts] us e

/-- After one outcome, the next on what it left. -/
def andThen (o : Outcome) (next : List Token → Outcome) : Outcome :=
  match o with
  | stop ts us e => stop ts us e
  | done ts us =>
    match next us with
    | done ts' us' => done (ts ++ ts') us'
    | stop ts' us' e => stop (ts ++ ts') us' e

end Outcome

def isAt (set : List Terminal) (us : List Token) : Bool :=
  match us with
  | [] => false
  | t :: _ => set.contains t.terminal

/-- `step` as long as the next token is in the set, `n` times at most. -/
def repeatAt (set : List Terminal) (step : List Token → Outcome) : Nat → List Token → Outcome
  | 0, us => .done [] us
  | n + 1, us => if isAt set us then (step us).andThen (repeatAt set step n) else .done [] us

/-- A phrase run on tokens, `call` running the rules that it names. A round of `whileAt` takes
    a token at least, so the tokens bound the rounds. -/
def Phrase.run (call : Rule → List Token → Outcome) : Phrase → List Token → Outcome
  | .skip, us => .done [] us
  | .accept set e, us =>
    match us with
    | [] => .stop [] [] e
    | t :: rest => if set.contains t.terminal then .done [.leaf t] rest else .stop [] us e
  | .node rule, us => call rule us
  | .both p q, us => (p.run call us).andThen (q.run call)
  | .ifAt set p q, us => if isAt set us then p.run call us else q.run call us
  | .whileAt set p, us => repeatAt set (p.run call) us.length us
  | .ahead set e, us => if isAt set us then .done [] us else .stop [] us e
  | .atEnd e, us => if us.isEmpty then .done [] us else .stop [] us e
  | .refuse e, us => .stop [] us e

/-- What a rule takes, with rules below it to a depth of `n`: the children of its node. -/
def Rule.runWithin : Nat → Rule → List Token → Outcome
  | 0, _, us => .stop [] us .endOfInput
  | n + 1, rule, us => rule.body.run (fun r vs => (r.runWithin n vs).wrap r.label) us

/-- A rule run on tokens. At most two rules are entered below a rule without a token being
    taken in between, so the depth given is never reached. -/
def Rule.run (rule : Rule) (us : List Token) : Outcome := rule.runWithin (3 * us.length + 3) us

/-! ## No token is lost -/

/-- What an outcome on `us` keeps: its leaves and its rest are `us`. -/
def Outcome.Covers (us : List Token) (o : Outcome) : Prop := o.trees.flatMap Tree.leaves ++ o.rest = us

theorem Outcome.covers_wrap {us : List Token} {o : Outcome} (l : Label) (h : o.Covers us) : (o.wrap l).Covers us := by
  cases o <;> simpa [Covers, wrap, trees, rest] using h

theorem Outcome.covers_andThen {us : List Token} {o : Outcome} {next : List Token → Outcome} (h : o.Covers us)
    (hn : ∀ vs, (next vs).Covers vs) : (o.andThen next).Covers us := by
  cases o with
  | stop ts vs e => exact h
  | done ts vs =>
    have hv := hn vs
    simp only [Covers, trees, rest] at h
    simp only [andThen]
    split <;> rename_i e <;> rw [e] at hv <;> simp only [Covers, trees, rest] at hv ⊢ <;>
      simp [List.flatMap_append, List.append_assoc, hv, h]

theorem repeatAt_covers {set : List Terminal} {step : List Token → Outcome} (hs : ∀ us, (step us).Covers us) :
    ∀ n us, (repeatAt set step n us).Covers us := by
  intro n
  induction n with
  | zero => intro us; rfl
  | succ n ih =>
    intro us
    simp only [repeatAt]
    split
    · exact Outcome.covers_andThen (hs us) ih
    · rfl

theorem Phrase.run_leaves {call : Rule → List Token → Outcome} (hc : ∀ r us, (call r us).Covers us) (p : Phrase) :
    ∀ us, (p.run call us).Covers us := by
  induction p with
  | skip => intro us; rfl
  | accept set e =>
    intro us
    simp only [run]
    split
    · rfl
    · split
      · simp [Outcome.Covers, Outcome.trees, Outcome.rest]
      · rfl
  | node r => exact hc r
  | both p q ihp ihq => intro us; exact Outcome.covers_andThen (ihp us) ihq
  | ifAt set p q ihp ihq =>
    intro us
    simp only [run]
    split
    · exact ihp us
    · exact ihq us
  | whileAt set p ih => intro us; exact repeatAt_covers ih _ us
  | ahead set e => intro us; simp only [run]; split <;> rfl
  | atEnd e => intro us; simp only [run]; split <;> rfl
  | refuse e => intro us; rfl

theorem Rule.runWithin_leaves : ∀ n (r : Rule) us, (r.runWithin n us).Covers us := by
  intro n
  induction n with
  | zero => intro r us; rfl
  | succ n ih => intro r us; exact Phrase.run_leaves (fun r vs => Outcome.covers_wrap _ (ih r vs)) _ us

theorem Rule.run_leaves (r : Rule) (us : List Token) : (r.run us).Covers us := Rule.runWithin_leaves _ r us

end JackAnalyzer.Grammar
