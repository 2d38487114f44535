/-
  JackAnalyzer.Render.Json — trees and token listings as JSON. A token is an object of one
  member, its kind and its text; a node is an object of one member, its label and the array
  of its children, so that siblings of one label never meet in one object.

  `Value` is the part of JSON that this takes; its text is laid out over several lines with
  two blanks for each level, and an empty array is written without a line break.
-/

import JackAnalyzer.Text.Hex
import JackAnalyzer.Tree

namespace JackAnalyzer.Render.Json

open Text (hexDigit)

inductive Value where
  | text (s : String)
  | array (items : List Value)
  /-- An object of one member. -/
  | member (name : String) (value : Value)

/-! ## The text of a value -/

/-- The two characters that JSON cannot hold bare and the controls below the blank. -/
def escapeChar (c : Char) : List Char :=
  match c with
  | '"' => ['\\', '"']
  | '\\' => ['\\', '\\']
  | '\x08' => ['\\', 'b']
  | '\x0c' => ['\\', 'f']
  | '\n' => ['\\', 'n']
  | '\r' => ['\\', 'r']
  | '\t' => ['\\', 't']
  | c => if c.toNat < 32 then ['\\', 'u', '0', '0', hexDigit (c.toNat / 16), hexDigit (c.toNat % 16)] else [c]

def quoted (s : String) : List Char := '"' :: s.toList.flatMap escapeChar ++ ['"']

def indent (depth : Nat) : List Char := List.replicate (2 * depth) ' '

mutual

/-- The text of a value whose first line starts at a depth. -/
def pretty (depth : Nat) : Value → List Char
  | .text s => quoted s
  | .array [] => ['[', ']']
  | .array (v :: vs) =>
    ['[', '\n'] ++ (indent (depth + 1) ++ (pretty (depth + 1) v ++ (prettyRest (depth + 1) vs ++
      '\n' :: (indent depth ++ [']']))))
  | .member name v =>
    ['\x7b', '\n'] ++ (indent (depth + 1) ++ (quoted name ++ ([':', ' '] ++ (pretty (depth + 1) v ++
      '\n' :: (indent depth ++ ['\x7d'])))))

def prettyRest (depth : Nat) : List Value → List Char
  | [] => []
  | v :: vs => [',', '\n'] ++ (indent depth ++ (pretty depth v ++ prettyRest depth vs))

end

/-- The text of a document, which ends its last line. -/
def document (v : Value) : String := String.ofList (pretty 0 v ++ ['\n'])

/-! ## Trees and tokens as values -/

def ofToken (t : Token) : Value := .member t.kind.label (.text t.text)

mutual

def ofTree : Tree → Value
  | .leaf t => ofToken t
  | .node l cs => .member l.text (.array (ofTrees cs))

def ofTrees : List Tree → List Value
  | [] => []
  | t :: ts => ofTree t :: ofTrees ts

end

def tree (t : Tree) : String := document (ofTree t)

def tokens (ts : List Token) : String := document (.member "tokens" (.array (ts.map ofToken)))

theorem ofTrees_eq_map (ts : List Tree) : ofTrees ts = ts.map ofTree := by
  induction ts with
  | nil => rfl
  | cons t ts ih => simp [ofTrees, ih]

end JackAnalyzer.Render.Json
