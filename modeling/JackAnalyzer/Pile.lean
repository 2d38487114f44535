/-
  JackAnalyzer.Pile — the tokens of a unit as a pile: those not handed out yet, the next one on
  top. Handing out takes the top away, so that no token is handed out twice. Of the tokens that
  are gone a pile keeps the place of the last one only; how many they are it tells from the
  number of all. What may be asked of a pile may be asked of a cursor.
  - `ofCursor`: the pile that is left where a cursor stands.
  - `answer_ofCursor`: it answers what the cursor answers, and goes on as the cursor does.
-/

import JackAnalyzer.Cursor

namespace JackAnalyzer

structure Pile where
  /-- The tokens not handed out, the next one last. -/
  pending : Array Token
  /-- The number of tokens of the unit. -/
  count : Nat
  /-- The span and the line of the last token handed out. -/
  last : Option (Span × Nat)
  deriving DecidableEq, Repr

namespace Pile

def ofTokens (ts : List Token) : Pile := ⟨ts.reverse.toArray, ts.length, none⟩

def current (s : Pile) : Option Token := s.pending.back?

/-- The token on top and the pile without it; nothing is taken from an empty pile. -/
def advance (s : Pile) : Option Token × Pile :=
  match s.pending.back? with
  | none => (none, s)
  | some t => (some t, { s with pending := s.pending.pop, last := some (t.span, t.line) })

def isExhausted (s : Pile) : Bool := s.pending.isEmpty

/-- The number of tokens handed out. There is none if more are pending than there were. -/
def position? (s : Pile) : Option Nat :=
  if s.pending.size ≤ s.count then some (s.count - s.pending.size) else none

def length (s : Pile) : Nat := s.count

def isEmpty (s : Pile) : Bool := s.count == 0

/-- Just past the last token handed out, with its line. -/
def endPosition (s : Pile) : Span × Nat :=
  match s.last with
  | some (span, line) => (.point span.stop, line)
  | none => (default, 1)

end Pile

/-! ## Questions -/

inductive Question where
  | current
  | advance
  | isExhausted
  | position
  | length
  | isEmpty
  | endPosition
  deriving DecidableEq, Repr

inductive Answer where
  /-- The token that is next. -/
  | next (t : Option Token)
  /-- The token that is taken. -/
  | handed (t : Option Token)
  | flag (b : Bool)
  | number (n : Option Nat)
  | place (span : Span) (line : Nat)
  deriving DecidableEq, Repr

def handedOut (answers : List Answer) : List Token :=
  answers.filterMap fun
    | .handed t => t
    | _ => none

def Pile.answer (s : Pile) : Question → Answer × Pile
  | .current => (.next s.current, s)
  | .advance => (.handed s.advance.1, s.advance.2)
  | .isExhausted => (.flag s.isExhausted, s)
  | .position => (.number s.position?, s)
  | .length => (.number (some s.length), s)
  | .isEmpty => (.flag s.isEmpty, s)
  | .endPosition => (.place s.endPosition.1 s.endPosition.2, s)

def Cursor.answer (c : Cursor) : Question → Answer × Cursor
  | .current => (.next c.current, c)
  | .advance => (.handed c.advance.1, c.advance.2)
  | .isExhausted => (.flag c.isExhausted, c)
  | .position => (.number (some c.position), c)
  | .length => (.number (some c.length), c)
  | .isEmpty => (.flag c.isEmpty, c)
  | .endPosition => (.place c.endPosition.1 c.endPosition.2, c)

/-- The answers to questions put one after another, and what is there behind the last one. -/
def askAll {σ : Type} (answer : σ → Question → Answer × σ) (s : σ) : List Question → List Answer × σ
  | [] => ([], s)
  | q :: qs =>
    let first := answer s q
    let others := askAll answer first.2 qs
    (first.1 :: others.1, others.2)

/-! ## The pile of a cursor -/

namespace Pile

/-- The pile of what is ahead, with what a pile keeps of what is behind. -/
def ofCursor (c : Cursor) : Pile := ⟨c.ahead.reverse.toArray, c.length, c.behind.head?.map fun t => (t.span, t.line)⟩

variable (c : Cursor)

theorem ofCursor_ofTokens (ts : List Token) : ofCursor (.ofTokens ts) = ofTokens ts := by
  simp [ofCursor, ofTokens, Cursor.ofTokens, Cursor.length]

@[simp] theorem current_ofCursor : (ofCursor c).current = c.current := by
  simp [ofCursor, current, Cursor.current]

@[simp] theorem advance_ofCursor : (ofCursor c).advance = (c.advance.1, ofCursor c.advance.2) := by
  obtain ⟨behind, ahead⟩ := c
  cases ahead with
  | nil => rfl
  | cons t rest => simp [ofCursor, advance, Cursor.advance, Cursor.length]; omega

@[simp] theorem isExhausted_ofCursor : (ofCursor c).isExhausted = c.isExhausted := by
  simp [ofCursor, isExhausted, Cursor.isExhausted]

@[simp] theorem position?_ofCursor : (ofCursor c).position? = some c.position := by
  simp [ofCursor, position?, Cursor.length, Cursor.position]

@[simp] theorem length_ofCursor : (ofCursor c).length = c.length := rfl

@[simp] theorem isEmpty_ofCursor : (ofCursor c).isEmpty = c.isEmpty := rfl

@[simp] theorem endPosition_ofCursor : (ofCursor c).endPosition = c.endPosition := by
  obtain ⟨behind, ahead⟩ := c
  cases behind <;> rfl

theorem answer_ofCursor (q : Question) : (ofCursor c).answer q = ((c.answer q).1, ofCursor (c.answer q).2) := by
  cases q <;> simp [answer, Cursor.answer]

end Pile

end JackAnalyzer
