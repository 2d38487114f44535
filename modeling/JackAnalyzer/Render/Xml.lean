/-
  JackAnalyzer.Render.Xml — trees and token listings as nested tags. A node is a line with
  its opening tag, the lines of its children two columns further right, and a line with its
  closing tag; a token is one line, its text between two blanks and two tags. The texts of
  tokens have four characters escaped, so a tag is never read out of a text.
-/

import JackAnalyzer.Tree

namespace JackAnalyzer.Render.Xml

def escapeChar : Char → List Char
  | '<' => ['&', 'l', 't', ';']
  | '>' => ['&', 'g', 't', ';']
  | '&' => ['&', 'a', 'm', 'p', ';']
  | '"' => ['&', 'q', 'u', 'o', 't', ';']
  | c => [c]

def escape (cs : List Char) : List Char := cs.flatMap escapeChar

def indent (depth : Nat) : List Char := List.replicate (2 * depth) ' '

def openTag (label : String) : List Char := '<' :: label.toList ++ ['>']

def closeTag (label : String) : List Char := '<' :: '/' :: label.toList ++ ['>']

def tokenLine (t : Token) : List Char :=
  openTag t.kind.label ++ ' ' :: escape t.text.toList ++ ' ' :: closeTag t.kind.label

mutual

def lines (depth : Nat) : Tree → List (List Char)
  | .leaf t => [indent depth ++ tokenLine t]
  | .node l cs =>
    (indent depth ++ openTag l.text) :: linesAll (depth + 1) cs ++ [indent depth ++ closeTag l.text]

def linesAll (depth : Nat) : List Tree → List (List Char)
  | [] => []
  | t :: ts => lines depth t ++ linesAll depth ts

end

def text (ls : List (List Char)) : String := String.ofList (ls.flatMap (· ++ ['\n']))

def tree (t : Tree) : String := text (lines 0 t)

/-- The tokens are not indented within the one tag around them. -/
def tokens (ts : List Token) : String := text (openTag "tokens" :: ts.map tokenLine ++ [closeTag "tokens"])

theorem linesAll_eq_flatMap (depth : Nat) (ts : List Tree) : linesAll depth ts = ts.flatMap (lines depth) := by
  induction ts with
  | nil => rfl
  | cons t ts ih => simp [linesAll, ih]

theorem not_special_of_mem_escape {cs : List Char} {c : Char} (h : c ∈ escape cs) : c ≠ '<' ∧ c ≠ '>' ∧ c ≠ '"' := by
  obtain ⟨d, -, hd⟩ := List.mem_flatMap.mp h
  unfold escapeChar at hd
  split at hd
  · simp only [List.mem_cons, List.not_mem_nil, or_false] at hd
    rcases hd with rfl | rfl | rfl | rfl <;> decide
  · simp only [List.mem_cons, List.not_mem_nil, or_false] at hd
    rcases hd with rfl | rfl | rfl | rfl <;> decide
  · simp only [List.mem_cons, List.not_mem_nil, or_false] at hd
    rcases hd with rfl | rfl | rfl | rfl | rfl <;> decide
  · simp only [List.mem_cons, List.not_mem_nil, or_false] at hd
    rcases hd with rfl | rfl | rfl | rfl | rfl | rfl <;> decide
  · rename_i h1 h2 _ h4
    obtain rfl := List.mem_singleton.mp hd
    exact ⟨h1, h2, h4⟩

end JackAnalyzer.Render.Xml
