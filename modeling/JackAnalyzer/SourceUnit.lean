/-
  JackAnalyzer.SourceUnit — a source unit: a text that holds one class, its tokens and its
  tree. The whole text is scanned before any of it is parsed, so a lexical fault anywhere
  wins over a parse error.
-/

import JackAnalyzer.Grammar.Session
import JackAnalyzer.Token.Scan

namespace JackAnalyzer

structure SourceUnit where
  tokens : List Token
  tree : Tree

namespace SourceUnit

def tokenize (source : String) : Except Error (List Token) :=
  match Token.scan source with
  | .ok ts => .ok ts
  | .error fault => .error fault.toError

/-- The unit of tokens: a class and nothing behind it. -/
def ofTokens (ts : List Token) : Except Error SourceUnit := (Grammar.Rule.classDec.parse ts).map fun tree => ⟨ts, tree⟩

def compile (source : String) : Except Error SourceUnit := do ofTokens (← tokenize source)

end SourceUnit

end JackAnalyzer
