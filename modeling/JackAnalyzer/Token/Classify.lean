/-
  JackAnalyzer.Token.Classify — the class of a bare lexeme. Keywords come first, then the
  symbols; a lexeme that starts with an ASCII digit is an integer constant or wrong; every
  other lexeme is an identifier. String constants never come here: their quotes tell them.

  `LexicalFault` is a lexeme that is in no class, with its place and the reason.
  - `digitsWord?_eq_some_iff`: a constant's value is read in sixteen bits and never cut to them.
-/

import JackAnalyzer.Error
import JackAnalyzer.Token.Basic

namespace JackAnalyzer

inductive LexicalCause where
  | empty
  | digitFirst
  | integerRange
  | openString
  | openComment
  deriving DecidableEq, Repr

def maxInteger : Nat := 32767

def LexicalCause.detail : LexicalCause → String
  | .empty => "empty lexeme"
  | .digitFirst => "identifier cannot start with a digit"
  | .integerRange => "integer constant out of range 0..=32767"
  | .openString => "unterminated string constant"
  | .openComment => "unterminated block comment"

structure LexicalFault where
  span : Span
  line : Nat
  lexeme : String
  cause : LexicalCause
  deriving DecidableEq, Repr

def LexicalFault.toError (f : LexicalFault) : Error := .lexical f.span f.line f.lexeme f.cause.detail

namespace Token

/-- The value of a row of ASCII digits, in base ten. -/
def digitsValue (cs : List Char) : Nat := cs.foldl (fun n c => 10 * n + (c.toNat - '0'.toNat)) 0

/-- A number in sixteen bits, if there is room for it. -/
def word? (n : Nat) : Option UInt16 := if n < 65536 then some (UInt16.ofNat n) else none

/-- A word of sixteen bits with one more digit behind it: ten times as much, and the digit on top
    of that. -/
def pushDigit (w : UInt16) (c : Char) : Option UInt16 := do
  let tens ← word? (10 * w.toNat)
  word? (tens.toNat + (c.toNat - '0'.toNat))

/-- The value of a row of ASCII digits, read in sixteen bits; it ends where there is no room. -/
def digitsWord? (cs : List Char) : Option UInt16 := cs.foldlM pushDigit 0

def integerKind (cs : List Char) : Except LexicalCause Kind :=
  match digitsWord? cs with
  | some w => if w.toNat ≤ maxInteger then .ok (.integerConstant w.toNat) else .error .integerRange
  | none => .error .integerRange

def classifyChars : List Char → Except LexicalCause Kind
  | [] => .error .empty
  | c :: rest =>
    match if rest.isEmpty then Symbol.ofChar? c else none with
    | some s => .ok (.symbol s)
    | none =>
      if c.isDigit then
        if rest.all Char.isDigit then integerKind (c :: rest) else .error .digitFirst
      else .ok .identifier

def classify (lexeme : String) : Except LexicalCause Kind :=
  match Keyword.ofText? lexeme with
  | some k => .ok (.keyword k)
  | none => classifyChars lexeme.toList

def ofLexeme (lexeme : String) (span : Span) (line : Nat) : Except LexicalFault Token :=
  match classify lexeme with
  | .ok kind => .ok ⟨kind, lexeme, span, line⟩
  | .error cause => .error ⟨span, line, lexeme, cause⟩

/-! ## Sixteen bits -/

theorem word?_eq_some_iff {n : Nat} {w : UInt16} : word? n = some w ↔ n = w.toNat := by
  have hw := w.toNat_lt
  simp only [word?, Option.ite_none_right_eq_some, Option.some.injEq]
  constructor
  · rintro ⟨hn, rfl⟩
    exact (UInt16.toNat_ofNat_of_lt hn).symm
  · rintro rfl
    exact ⟨hw, UInt16.ofNat_toNat⟩

/-- What holds the numbers that it can has nothing for those above. -/
theorem eq_none_iff_of_eq_some_iff {o : Option UInt16} {n : Nat} (h : ∀ w, o = some w ↔ n = w.toNat) :
    o = none ↔ 65535 < n := by
  constructor
  · rintro rfl
    refine Nat.lt_of_not_le fun hle => ?_
    cases (h (UInt16.ofNat n)).mpr (UInt16.toNat_ofNat_of_lt (Nat.lt_succ_of_le hle)).symm
  · intro hlarge
    cases ho : o with
    | none => rfl
    | some w =>
      have hw := w.toNat_lt
      have hn := (h w).mp ho
      omega

theorem pushDigit_eq_some_iff {w v : UInt16} {c : Char} :
    pushDigit w c = some v ↔ 10 * w.toNat + (c.toNat - '0'.toNat) = v.toNat := by
  have hv := v.toNat_lt
  simp only [pushDigit, Option.bind_eq_bind, Option.bind_eq_some_iff, word?_eq_some_iff]
  constructor
  · rintro ⟨tens, htens, h⟩
    rw [htens, h]
  · intro h
    have hroom : 10 * w.toNat < 65536 := by omega
    have htens : (UInt16.ofNat (10 * w.toNat)).toNat = 10 * w.toNat := UInt16.toNat_ofNat_of_lt hroom
    exact ⟨_, htens.symm, by rw [htens, h]⟩

theorem le_foldl_digits (cs : List Char) : ∀ n : Nat, n ≤ cs.foldl (fun n c => 10 * n + (c.toNat - '0'.toNat)) n := by
  induction cs with
  | nil => exact fun n => Nat.le_refl n
  | cons c cs ih =>
    intro n
    have := ih (10 * n + (c.toNat - '0'.toNat))
    rw [List.foldl_cons]
    omega

/-- Sixteen bits hold the value, and nothing where it does not fit. -/
theorem digitsWord?_eq_some_iff {cs : List Char} {v : UInt16} : digitsWord? cs = some v ↔ digitsValue cs = v.toNat := by
  suffices ∀ w : UInt16, cs.foldlM pushDigit w = some v ↔
      cs.foldl (fun n c => 10 * n + (c.toNat - '0'.toNat)) w.toNat = v.toNat from this 0
  induction cs with
  | nil => exact fun w => by simp [UInt16.toNat_inj]
  | cons c cs ih =>
    intro w
    rw [List.foldlM_cons, List.foldl_cons]
    cases hpush : pushDigit w c with
    | some u => rw [pushDigit_eq_some_iff.mp hpush]; exact ih u
    | none =>
      -- the value is too large already, and stays so
      have hlarge := (eq_none_iff_of_eq_some_iff fun _ => pushDigit_eq_some_iff).mp hpush
      have hle := le_foldl_digits cs (10 * w.toNat + (c.toNat - '0'.toNat))
      have hv := v.toNat_lt
      refine iff_of_false (by simp) fun heq => ?_
      omega

theorem digitsWord?_eq_none_iff {cs : List Char} : digitsWord? cs = none ↔ 65535 < digitsValue cs :=
  eq_none_iff_of_eq_some_iff fun _ => digitsWord?_eq_some_iff

theorem integerKind_eq (cs : List Char) : integerKind cs =
    if digitsValue cs ≤ maxInteger then .ok (.integerConstant (digitsValue cs)) else .error .integerRange := by
  unfold integerKind
  cases hword : digitsWord? cs with
  | some w => simp only [digitsWord?_eq_some_iff.mp hword]
  | none =>
    have hlarge := digitsWord?_eq_none_iff.mp hword
    rw [if_neg (by unfold maxInteger; omega)]

end Token

end JackAnalyzer
