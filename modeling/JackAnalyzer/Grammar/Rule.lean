/-
  JackAnalyzer.Grammar.Rule — the grammar of Jack as data. A rule's body is a phrase, built
  from a few forms; each decision in it looks at one token ahead, and each place where a
  token is wanted says what a message is to ask for.

  The type of a variable, a single statement, an operator and a call have no node of their
  own: what they take stands in the node around them.
-/

import JackAnalyzer.Grammar.Expected
import JackAnalyzer.Tree

namespace JackAnalyzer.Grammar

/-- The rules that build a node; an expression knows where it stands. -/
inductive Rule where
  | classDec | classVarDec | subroutineDec | parameterList | subroutineBody | varDec
  | statements | letStatement | ifStatement | whileStatement | doStatement | returnStatement
  | expression (context : Context) | term | expressionList
  deriving DecidableEq, Repr

def Rule.label : Rule → Label
  | classDec => .classDec
  | classVarDec => .classVarDec
  | subroutineDec => .subroutineDec
  | parameterList => .parameterList
  | subroutineBody => .subroutineBody
  | varDec => .varDec
  | statements => .statements
  | letStatement => .letStatement
  | ifStatement => .ifStatement
  | whileStatement => .whileStatement
  | doStatement => .doStatement
  | returnStatement => .returnStatement
  | expression _ => .expression
  | term => .term
  | expressionList => .expressionList

/-- The rule of a label; the context counts for an expression only. -/
def Rule.ofLabel (context : Context) : Label → Rule
  | .classDec => classDec
  | .classVarDec => classVarDec
  | .subroutineDec => subroutineDec
  | .parameterList => parameterList
  | .subroutineBody => subroutineBody
  | .varDec => varDec
  | .statements => statements
  | .letStatement => letStatement
  | .ifStatement => ifStatement
  | .whileStatement => whileStatement
  | .doStatement => doStatement
  | .returnStatement => returnStatement
  | .expression => expression context
  | .term => term
  | .expressionList => expressionList

theorem Rule.label_ofLabel (c : Context) (l : Label) : (Rule.ofLabel c l).label = l := by cases l <;> rfl

/-- What a rule takes, and where it decides by the next token. -/
inductive Phrase where
  /-- Takes nothing. -/
  | skip
  /-- Takes one token of the set. -/
  | accept (set : List Terminal) (expected : Expected)
  /-- Takes what the rule takes, as one node. -/
  | node (rule : Rule)
  /-- Takes the one, then the other. -/
  | both (p q : Phrase)
  /-- Takes `p` if the next token is in the set, otherwise `q`. -/
  | ifAt (set : List Terminal) (p q : Phrase)
  /-- Takes `p` as long as the next token is in the set. -/
  | whileAt (set : List Terminal) (p : Phrase)
  /-- Wants the next token in the set and takes nothing. -/
  | ahead (set : List Terminal) (expected : Expected)
  /-- Wants the end of the input. -/
  | atEnd (expected : Expected)
  /-- Wants something else than what is there, whatever it is. -/
  | refuse (expected : Expected)
  deriving DecidableEq, Repr

namespace Phrase

def row : List Phrase → Phrase
  | [] => skip
  | p :: ps => both p (row ps)

def keyword (k : Keyword) : Phrase := accept [.keyword k] (.keyword k)

def symbol (s : Symbol) : Phrase := accept [.symbol s] (.symbol s)

def identifier : Phrase := accept [.identifier] .identifier

end Phrase

open Phrase

/-! ## Sets of terminals -/

def variableKinds : List Terminal := [.keyword .staticKw, .keyword .fieldKw]

def subroutineKinds : List Terminal := [.keyword .constructorKw, .keyword .functionKw, .keyword .methodKw]

def types : List Terminal := [.keyword .intKw, .keyword .charKw, .keyword .booleanKw, .identifier]

def returnTypes : List Terminal := .keyword .voidKw :: types

def statementStarts : List Terminal :=
  [.keyword .letKw, .keyword .ifKw, .keyword .whileKw, .keyword .doKw, .keyword .returnKw]

def binaryOperators : List Terminal := Symbol.binary.map .symbol

def unaryOperators : List Terminal := Symbol.unary.map .symbol

def constants : List Terminal :=
  [.integerConstant, .stringConstant, .keyword .trueKw, .keyword .falseKw, .keyword .nullKw, .keyword .thisKw]

/-! ## Phrases that several rules share -/

/-- One or more `p` with commas between them. -/
def commaSeparated (p : Phrase) : Phrase := both p (whileAt [.symbol .comma] (both (symbol .comma) p))

def typedNames : Phrase := row [accept types .type, commaSeparated identifier, symbol .semicolon]

def block : Phrase := row [symbol .lbrace, node .statements, accept [.symbol .rbrace] .statement]

def condition : Phrase := row [symbol .lparen, node (.expression .condition), symbol .rparen]

def subscript : Phrase := row [symbol .lbracket, node (.expression .index), symbol .rbracket]

/-- A call behind its first name. -/
def callRest : Phrase :=
  row [ifAt [.symbol .dot] (both (symbol .dot) identifier) skip, accept [.symbol .lparen] .call, node .expressionList,
    symbol .rparen]

/-! ## The rules -/

def Rule.body : Rule → Phrase
  | classDec =>
    row [keyword .classKw, identifier, symbol .lbrace, whileAt variableKinds (node classVarDec),
      whileAt subroutineKinds (node subroutineDec), accept [.symbol .rbrace] .classMember, atEnd .endOfInput]
  | classVarDec => both (accept variableKinds .variableKind) typedNames
  | subroutineDec =>
    row [accept subroutineKinds .subroutineKind, accept returnTypes .returnType, identifier, symbol .lparen,
      node parameterList, symbol .rparen, node subroutineBody]
  | parameterList => ifAt [.symbol .rparen] skip (commaSeparated (both (accept types .type) identifier))
  | subroutineBody =>
    row [symbol .lbrace, whileAt [.keyword .varKw] (node varDec), node statements, accept [.symbol .rbrace] .statement]
  | varDec => both (keyword .varKw) typedNames
  | statements =>
    whileAt statementStarts <|
      ifAt [.keyword .letKw] (node letStatement) <|
      ifAt [.keyword .ifKw] (node ifStatement) <|
      ifAt [.keyword .whileKw] (node whileStatement) <|
      ifAt [.keyword .doKw] (node doStatement) (node returnStatement)
  | letStatement =>
    row [keyword .letKw, identifier, ifAt [.symbol .lbracket] subscript skip, accept [.symbol .equals] .assignment,
      node (expression .statement), symbol .semicolon]
  | ifStatement => row [keyword .ifKw, condition, block, ifAt [.keyword .elseKw] (both (keyword .elseKw) block) skip]
  | whileStatement => row [keyword .whileKw, condition, block]
  | doStatement => row [keyword .doKw, identifier, callRest, symbol .semicolon]
  | returnStatement =>
    row [keyword .returnKw, ifAt [.symbol .semicolon] skip (node (expression .statement)), symbol .semicolon]
  | expression c =>
    row [node term, whileAt binaryOperators (both (accept binaryOperators (.operator c)) (node term)),
      ahead (c.terminators.map .symbol) (.operator c)]
  | term =>
    ifAt constants (accept constants .term) <|
    ifAt [.identifier]
      (both identifier <|
        ifAt [.symbol .lbracket] subscript <|
        ifAt [.symbol .lparen, .symbol .dot] callRest skip) <|
    ifAt [.symbol .lparen] (row [symbol .lparen, node (expression .parenthesized), symbol .rparen]) <|
    ifAt unaryOperators (both (accept unaryOperators .term) (node term)) (refuse .term)
  | expressionList => ifAt [.symbol .rparen] skip (commaSeparated (node (expression .argument)))

end JackAnalyzer.Grammar
