/-
  JackAnalyzer.Token.Basic — tokens: the five classes of lexeme, and a lexeme of one class
  with its text and its place. The text of a string constant is what stands between its
  quotes, while its span includes them.

  The grammar looks at a token's `Terminal` only: which keyword, which symbol, or that it is
  an integer constant, a string constant or an identifier.
-/

import JackAnalyzer.Span
import JackAnalyzer.Token.Keyword
import JackAnalyzer.Token.Symbol

namespace JackAnalyzer

namespace Token

/-- What a lexeme is; an integer constant carries its value. -/
inductive Kind where
  | keyword (k : Keyword)
  | symbol (s : Symbol)
  | integerConstant (value : Nat)
  | stringConstant
  | identifier
  deriving DecidableEq, Repr

def Kind.label : Kind → String
  | .keyword _ => "keyword"
  | .symbol _ => "symbol"
  | .integerConstant _ => "integerConstant"
  | .stringConstant => "stringConstant"
  | .identifier => "identifier"

end Token

structure Token where
  kind : Token.Kind
  text : String
  span : Span
  /-- Lines count from 1. -/
  line : Nat
  deriving DecidableEq, Repr

/-- A token as a grammar sees it. -/
inductive Terminal where
  | keyword (k : Keyword)
  | symbol (s : Symbol)
  | integerConstant
  | stringConstant
  | identifier
  deriving DecidableEq, Repr

namespace Token

def Kind.terminal : Kind → Terminal
  | .keyword k => .keyword k
  | .symbol s => .symbol s
  | .integerConstant _ => .integerConstant
  | .stringConstant => .stringConstant
  | .identifier => .identifier

def terminal (t : Token) : Terminal := t.kind.terminal

/-- How a message names the token it found. -/
def display (t : Token) : String :=
  match t.kind with
  | .keyword _ => "keyword '" ++ t.text ++ "'"
  | .symbol _ => "'" ++ t.text ++ "'"
  | .integerConstant _ => "integer constant " ++ t.text
  | .stringConstant => "string constant \"" ++ t.text ++ "\""
  | .identifier => "identifier '" ++ t.text ++ "'"

end Token

end JackAnalyzer
