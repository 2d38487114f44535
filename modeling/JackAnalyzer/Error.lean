/-
  JackAnalyzer.Error — everything that can go wrong with a source unit, as a report: what
  was found, where, and in which words it is told. Each of them ends the work on its unit.
-/

import JackAnalyzer.Span

namespace JackAnalyzer

inductive Error where
  /-- A file or directory could not be read or written. -/
  | io (path detail : String)
  /-- A lexeme is in none of the five classes. -/
  | lexical (span : Span) (line : Nat) (lexeme detail : String)
  /-- A grammar rule met a token that it cannot take. -/
  | parse (span : Span) (line : Nat) (found detail : String)
  /-- A configuration file could not be read as one. -/
  | config (detail : String)
  deriving DecidableEq, Repr

namespace Error

def message : Error → String
  | .io path detail => path ++ ": " ++ detail
  | .lexical _ line lexeme detail => "line " ++ toString line ++ ": " ++ detail ++ " '" ++ lexeme ++ "'"
  | .parse _ line found detail => "line " ++ toString line ++ ": " ++ detail ++ ", found " ++ found
  | .config detail => "config error: " ++ detail

def span? : Error → Option Span
  | .lexical span .. => some span
  | .parse span .. => some span
  | _ => none

def line? : Error → Option Nat
  | .lexical _ line .. => some line
  | .parse _ line .. => some line
  | _ => none

end Error

end JackAnalyzer
