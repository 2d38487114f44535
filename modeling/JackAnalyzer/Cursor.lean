/-
  JackAnalyzer.Cursor — a place between two tokens of a unit, moving forward only: the
  tokens behind it, the latest first, and the tokens ahead of it.
  - `tokens_advance`: no step changes the tokens as a whole.
  - `length_eq`: the whole is what is behind and what is ahead.
  - `current_eq`, `head?_behind`: the tokens on both sides of the cursor, told by its position.
-/

import JackAnalyzer.Token.Basic

namespace JackAnalyzer

structure Cursor where
  behind : List Token
  ahead : List Token
  deriving Repr

namespace Cursor

def ofTokens (ts : List Token) : Cursor := ⟨[], ts⟩

/-- The tokens of the whole unit. -/
def tokens (c : Cursor) : List Token := c.behind.reverse ++ c.ahead

/-- The token that the next step passes. -/
def current (c : Cursor) : Option Token := c.ahead.head?

/-- One step: the token passed and the cursor behind it; at the end, no token and no step. -/
def advance (c : Cursor) : Option Token × Cursor :=
  match c.ahead with
  | [] => (none, c)
  | t :: rest => (some t, ⟨t :: c.behind, rest⟩)

/-- The cursor `n` steps on, or at the end. -/
def skip (c : Cursor) (n : Nat) : Cursor := ⟨(c.ahead.take n).reverse ++ c.behind, c.ahead.drop n⟩

def position (c : Cursor) : Nat := c.behind.length

def length (c : Cursor) : Nat := c.behind.length + c.ahead.length

def isExhausted (c : Cursor) : Bool := c.ahead.isEmpty

def isEmpty (c : Cursor) : Bool := c.length == 0

/-- Just past the last token passed, with its line: where the end of the input is told to
    be. Before any token that is the start of the text. -/
def endPosition (c : Cursor) : Span × Nat :=
  match c.behind with
  | [] => (default, 1)
  | t :: _ => (.point t.span.stop, t.line)

/-! ## The whole stays as it is -/

theorem length_eq (c : Cursor) : c.length = c.tokens.length := by simp [length, tokens]

@[simp] theorem tokens_ofTokens (ts : List Token) : (ofTokens ts).tokens = ts := by simp [ofTokens, tokens]

theorem tokens_advance (c : Cursor) : c.advance.2.tokens = c.tokens := by
  unfold advance
  split <;> rename_i h <;> simp [tokens, h]

theorem tokens_skip (c : Cursor) (n : Nat) : (c.skip n).tokens = c.tokens := by
  simp [skip, tokens]

/-! ## The position -/

theorem position_skip {c : Cursor} {n : Nat} (h : n ≤ c.ahead.length) : (c.skip n).position = c.position + n := by
  simp only [position, skip, List.length_append, List.length_reverse, List.length_take]
  omega

theorem ahead_eq_drop (c : Cursor) : c.ahead = c.tokens.drop c.position := by
  unfold tokens position
  rw [← List.length_reverse, List.drop_left]

theorem position_le_length (c : Cursor) : c.position ≤ c.tokens.length := by
  rw [← length_eq]
  exact Nat.le_add_right _ _

theorem current_eq (c : Cursor) : c.current = c.tokens[c.position]? := by
  rw [current, ahead_eq_drop, List.head?_drop]

theorem advance_of_current {c : Cursor} {t : Token} (h : c.current = some t) :
    c.advance.1 = some t ∧ c.advance.2.position = c.position + 1 := by
  obtain ⟨rest, hrest⟩ := List.head?_eq_some_iff.mp h
  simp [advance, hrest, position]

theorem advance_of_end {c : Cursor} (h : c.current = none) : c.advance = (none, c) := by
  rw [advance, List.head?_eq_none_iff.mp h]

theorem isExhausted_iff (c : Cursor) : c.isExhausted = true ↔ c.position = c.tokens.length := by
  rw [← length_eq, length, position, isExhausted, List.isEmpty_iff_length_eq_zero]
  omega

theorem isEmpty_iff (c : Cursor) : c.isEmpty = true ↔ c.tokens = [] := by
  rw [isEmpty, length_eq, beq_iff_eq, List.length_eq_zero_iff]

theorem reverse_behind (c : Cursor) : c.behind.reverse = c.tokens.take c.position := by
  unfold tokens position
  rw [← List.length_reverse, List.take_left]

theorem head?_behind (c : Cursor) : c.behind.head? = (c.tokens.take c.position).getLast? := by
  rw [← reverse_behind, List.getLast?_reverse]

theorem endPosition_of_position_eq_zero {c : Cursor} (h : c.position = 0) : c.endPosition = (default, 1) := by
  rw [endPosition, List.length_eq_zero_iff.mp h]

/-- Behind a token, the end told is its end. -/
theorem exists_endPosition {c : Cursor} (h : 0 < c.position) :
    ∃ t, c.tokens[c.position - 1]? = some t ∧ c.endPosition = (.point t.span.stop, t.line) := by
  obtain ⟨behind, ahead⟩ := c
  cases behind with
  | nil => exact absurd h (Nat.lt_irrefl 0)
  | cons t behind => exact ⟨t, by simp [tokens, position], rfl⟩

end Cursor

end JackAnalyzer
