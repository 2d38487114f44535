/-
  JackAnalyzer.Grammar.Session — rules run one after another on one cursor. A rule moves
  the cursor past the tokens that it took, also where it fails, so the next rule goes on
  where the last one stopped. An error names the token that the cursor is then in front
  of, or the end of the input.
-/

import JackAnalyzer.Cursor
import JackAnalyzer.Error
import JackAnalyzer.Grammar.Outcome

namespace JackAnalyzer

/-- The error of a rule that stops at the cursor. -/
def Cursor.errorHere (c : Cursor) (expected : Grammar.Expected) : Error :=
  match c.current with
  | some t => .parse t.span t.line t.display expected.detail
  | none => .parse c.endPosition.1 c.endPosition.2 "end of input" expected.detail

namespace Grammar

/-- What a rule answers at a cursor, and the cursor behind what it took. -/
def Rule.apply (rule : Rule) (c : Cursor) : Except Error Tree × Cursor :=
  let outcome := rule.run c.ahead
  let next := c.skip outcome.taken
  match outcome with
  | .done children _ => (.ok (.node rule.label children), next)
  | .stop _ _ expected => (.error (next.errorHere expected), next)

def finish (c : Cursor) : Except Error Unit := if c.isExhausted then .ok () else .error (c.errorHere .endOfInput)

/-- A rule on a row of tokens; what it leaves does not matter. -/
def Rule.parse (rule : Rule) (ts : List Token) : Except Error Tree := (rule.apply (.ofTokens ts)).1

/-! ## The rules that were entered -/

/-- A rule that was entered in front of a token, and that token's line. -/
structure Entry where
  label : Label
  line : Nat
  deriving DecidableEq, Repr

mutual

/-- The entries of a tree built from the front of `us`, in the order of entering, and the
    tokens behind it. Where no token was left a rule leaves no entry. -/
def entries : Tree → List Token → List Entry × List Token
  | .leaf _, us => ([], us.tail)
  | .node l cs, us =>
    let below := entriesAll cs us
    ((us.head?.map fun t => ⟨l, t.line⟩).toList ++ below.1, below.2)

def entriesAll : List Tree → List Token → List Entry × List Token
  | [], us => ([], us)
  | t :: ts, us =>
    let first := entries t us
    let others := entriesAll ts first.2
    (first.1 ++ others.1, others.2)

end

/-- The entries of a rule's run, whether it ends or stops. -/
def Rule.trace (rule : Rule) (us : List Token) : List Entry := (entries (.node rule.label (rule.run us).trees) us).1

end Grammar

end JackAnalyzer
