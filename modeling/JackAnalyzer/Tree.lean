/-
  JackAnalyzer.Tree — parse trees. A leaf is a token; a node is named for the grammar rule
  that it was built by and has its parts as children, in the order of the source. Keywords
  and punctuation are leaves like any other token, so a tree's leaves are the tokens that it
  was built from.
  - `leaves_node`, `findAllIn_eq_flatMap`: the traversals, child by child.
-/

import JackAnalyzer.Token.Basic

namespace JackAnalyzer

inductive Label where
  | classDec | classVarDec | subroutineDec | parameterList | subroutineBody | varDec
  | statements | letStatement | ifStatement | whileStatement | doStatement | returnStatement
  | expression | term | expressionList
  deriving DecidableEq, Repr

namespace Label

def all : List Label :=
  [classDec, classVarDec, subroutineDec, parameterList, subroutineBody, varDec, statements, letStatement, ifStatement,
    whileStatement, doStatement, returnStatement, expression, term, expressionList]

def text : Label → String
  | classDec => "class"
  | classVarDec => "classVarDec"
  | subroutineDec => "subroutineDec"
  | parameterList => "parameterList"
  | subroutineBody => "subroutineBody"
  | varDec => "varDec"
  | statements => "statements"
  | letStatement => "letStatement"
  | ifStatement => "ifStatement"
  | whileStatement => "whileStatement"
  | doStatement => "doStatement"
  | returnStatement => "returnStatement"
  | expression => "expression"
  | term => "term"
  | expressionList => "expressionList"

theorem mem_all (l : Label) : l ∈ all := by cases l <;> decide

def ofText? (s : String) : Option Label := all.find? (·.text == s)

theorem ofText?_text (l : Label) : ofText? l.text = some l := by cases l <;> decide

end Label

inductive Tree where
  | leaf (token : Token)
  | node (label : Label) (children : List Tree)

namespace Tree

def children : Tree → List Tree
  | leaf _ => []
  | node _ cs => cs

def token? : Tree → Option Token
  | leaf t => some t
  | node .. => none

def label? : Tree → Option Label
  | leaf _ => none
  | node l _ => some l

def childLabels (t : Tree) : List Label := t.children.filterMap label?

def childTokens (t : Tree) : List Token := t.children.filterMap token?

mutual

/-- The tokens of the tree in the order of the source. -/
def leaves : Tree → List Token
  | leaf t => [t]
  | node _ cs => leavesAll cs

def leavesAll : List Tree → List Token
  | [] => []
  | t :: ts => leaves t ++ leavesAll ts

end

mutual

/-- The nodes of a label, a node before those below it. -/
def findAll (label : Label) : Tree → List Tree
  | leaf _ => []
  | node l cs => if l = label then node l cs :: findAllIn label cs else findAllIn label cs

def findAllIn (label : Label) : List Tree → List Tree
  | [] => []
  | t :: ts => findAll label t ++ findAllIn label ts

end

/-- From the start of the first leaf to the end of the last; the default span without leaves. -/
def span (t : Tree) : Span :=
  match t.leaves.head?, t.leaves.getLast? with
  | some first, some last => ⟨first.span.start, last.span.stop⟩
  | _, _ => default

/-! ## The traversals -/

theorem leavesAll_eq_flatMap (ts : List Tree) : leavesAll ts = ts.flatMap leaves := by
  induction ts with
  | nil => rfl
  | cons t ts ih => simp [leavesAll, ih]

@[simp] theorem leaves_leaf (t : Token) : (leaf t).leaves = [t] := by simp [leaves]

@[simp] theorem leaves_node (l : Label) (cs : List Tree) : (node l cs).leaves = cs.flatMap leaves := by
  simp [leaves, leavesAll_eq_flatMap]

theorem findAllIn_eq_flatMap (label : Label) (ts : List Tree) : findAllIn label ts = ts.flatMap (findAll label) := by
  induction ts with
  | nil => rfl
  | cons t ts ih => simp [findAllIn, ih]

end Tree

end JackAnalyzer
