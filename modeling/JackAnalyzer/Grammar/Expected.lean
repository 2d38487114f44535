/-
  JackAnalyzer.Grammar.Expected — what a grammar rule wants where it stops, and how a
  message says so. A wording is a row of pieces: plain words, and keywords and symbols in
  quotes, so that the terminals which a message offers can be read off it.
-/

import JackAnalyzer.Token.Basic

namespace JackAnalyzer

/-- Where an expression stands. It tells which symbols may follow the expression. -/
inductive Context where
  /-- The right side of a `let`, or the value of a `return`. -/
  | statement
  /-- The condition of an `if` or a `while`. -/
  | condition
  /-- The subscript of an array. -/
  | index
  /-- An element of an expression list. -/
  | argument
  /-- Within the parentheses of a term. -/
  | parenthesized
  deriving DecidableEq, Repr

namespace Context

/-- The symbols that end an expression there; the expression does not take them. -/
def terminators : Context → List Symbol
  | statement => [.semicolon]
  | condition => [.rparen]
  | index => [.rbracket]
  | argument => [.comma, .rparen]
  | parenthesized => [.rparen]

def isTerminator (c : Context) (t : Token) : Bool := (c.terminators.map Terminal.symbol).contains t.terminal

end Context

namespace Grammar

inductive Piece where
  | words (text : String)
  | keyword (k : Keyword)
  | symbol (s : Symbol)
  deriving DecidableEq, Repr

namespace Piece

def text : Piece → String
  | words w => w
  | keyword k => "'" ++ k.text ++ "'"
  | symbol s => "'" ++ s.text ++ "'"

/-- The terminal that a piece names in quotes. -/
def terminal? : Piece → Option Terminal
  | words _ => none
  | keyword k => some (.keyword k)
  | symbol s => some (.symbol s)

end Piece

inductive Expected where
  | keyword (k : Keyword)
  | symbol (s : Symbol)
  | identifier
  | type
  | returnType
  | variableKind
  | subroutineKind
  | classMember
  | statement
  | assignment
  | call
  | term
  | operator (c : Context)
  | endOfInput
  deriving DecidableEq, Repr

namespace Expected

def pieces : Expected → List Piece
  | keyword k => [.keyword k]
  | symbol s => [.symbol s]
  | identifier => [.words "an identifier"]
  | type => [.words "a type"]
  | returnType => [.words "a return type"]
  | variableKind => [.keyword .staticKw, .words " or ", .keyword .fieldKw]
  | subroutineKind => [.keyword .constructorKw, .words ", ", .keyword .functionKw, .words " or ", .keyword .methodKw]
  | classMember => [.words "a class member or ", .symbol .rbrace]
  | statement => [.words "a statement or ", .symbol .rbrace]
  | assignment => [.symbol .lbracket, .words " or ", .symbol .equals]
  | call => [.symbol .lparen, .words " or ", .symbol .dot]
  | term => [.words "a term"]
  | operator c => .words "an operator" :: c.terminators.flatMap fun s => [.words " or ", .symbol s]
  | endOfInput => [.words "end of input"]

def detail (e : Expected) : String := "expected " ++ String.join (e.pieces.map Piece.text)

def quoted (e : Expected) : List Terminal := e.pieces.filterMap Piece.terminal?

end Expected

end Grammar

end JackAnalyzer
