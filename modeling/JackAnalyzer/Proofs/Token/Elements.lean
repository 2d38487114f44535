/-
  JackAnalyzer.Proofs.Token.Elements — the lexical grammar of a whole text, lines aside. What
  stands next in code is an element: a comment, a string constant, a blank, a symbol or a
  word. It is told from the characters that follow alone, and the next element begins where
  it ends; a line feed counts in one place only, a string constant does not go past it.
  - `nextElement`: the element in front of a text.
  - `tokensFrom`: the tokens from a place of a text on, or the first fault.
-/

import Mathlib.Data.List.DropRight
import JackAnalyzer.Text.Blank
import JackAnalyzer.Text.Lines
import JackAnalyzer.Text.Utf8
import JackAnalyzer.Token.Classify

namespace JackAnalyzer.Token

open Text

/-- What an element is: nothing, a token, or wrong. -/
inductive Content where
  | gap
  | token (kind : Kind) (text : List Char)
  | fault (detail : String)
  deriving DecidableEq, Repr

/-- An element and the characters that it covers. -/
structure Element where
  covers : List Char
  content : Content
  deriving DecidableEq, Repr

def isWordChar (c : Char) : Bool := !isBlank c && c != '"' && (Symbol.ofChar? c).isNone

/-- A text through its first star and slash. -/
def throughClose : List Char → Option (List Char)
  | [] => none
  | '*' :: '/' :: _ => some ['*', '/']
  | c :: cs => (throughClose cs).map (c :: ·)

/-- The text of a string constant goes on up to a quote, on one line. -/
def isStringChar (c : Char) : Bool := c != '"' && c != '\n'

def stringElement (cs : List Char) : Element :=
  let text := cs.takeWhile isStringChar
  if (cs.dropWhile isStringChar).head? = some '"' then ⟨'"' :: text ++ ['"'], .token .stringConstant text⟩
  else ⟨'"' :: text.rdropWhile (· = '\r'), .fault "unterminated string constant"⟩

def wordElement (word : List Char) : Element :=
  match classify (String.ofList word) with
  | .ok kind => ⟨word, .token kind word⟩
  | .error cause => ⟨word, .fault cause.detail⟩

def nextElement : List Char → Element
  | [] => ⟨[], .gap⟩
  | '/' :: '/' :: cs => ⟨'/' :: '/' :: cs.takeWhile (· ≠ '\n'), .gap⟩
  | '/' :: '*' :: cs =>
    match throughClose cs with
    | some body => ⟨'/' :: '*' :: body, .gap⟩
    | none => ⟨['/', '*'], .fault "unterminated block comment"⟩
  | '"' :: cs => stringElement cs
  | c :: cs =>
    if isBlank c then ⟨[c], .gap⟩
    else
      match Symbol.ofChar? c with
      | some s => ⟨[c], .token (.symbol s) [c]⟩
      | none => wordElement ((c :: cs).takeWhile isWordChar)

/-! ## Words -/

theorem isWordChar_iff {c : Char} : isWordChar c = true ↔ isBlank c = false ∧ c ≠ '"' ∧ Symbol.ofChar? c = none := by
  simp [isWordChar, and_assoc]

theorem isWordChar_of_none {c : Char} (hb : isBlank c = false) (hq : c ≠ '"') (hs : Symbol.ofChar? c = none) :
    isWordChar c = true := isWordChar_iff.mpr ⟨hb, hq, hs⟩

theorem isWordChar_char {c : Char} (h : isWordChar c = true) : c ≠ '/' ∧ c ≠ '\n' := by
  refine ⟨fun hc => ?_, fun hc => ?_⟩
  · subst hc
    cases h
  · subst hc
    cases h

@[simp] theorem covers_wordElement (word : List Char) : (wordElement word).covers = word := by
  unfold wordElement
  split <;> rfl

theorem nextElement_word {c : Char} {cs : List Char} (h : isWordChar c = true) :
    nextElement (c :: cs) = wordElement ((c :: cs).takeWhile isWordChar) := by
  obtain ⟨hb, hq, hs⟩ := isWordChar_iff.mp h
  have hslash := (isWordChar_char h).1
  rw [nextElement]
  · rw [if_neg (by simp [hb]), hs]
  · exact fun _ hc _ => hslash hc
  · exact fun _ hc _ => hslash hc
  · exact hq

/-! ## Blanks and symbols -/

theorem symbol_char {c : Char} {s : Symbol} (hs : Symbol.ofChar? c = some s) :
    isBlank c = false ∧ c ≠ '"' ∧ c ≠ '\n' := by
  obtain rfl := Symbol.ofChar?_eq_some_iff.mp hs
  cases s <;> decide

theorem isBlank_char {c : Char} (h : isBlank c = true) : c ≠ '/' ∧ c ≠ '"' := by
  refine ⟨fun hc => ?_, fun hc => ?_⟩
  · subst hc
    cases h
  · subst hc
    cases h

theorem nextElement_blank {c : Char} {cs : List Char} (h : isBlank c = true) : nextElement (c :: cs) = ⟨[c], .gap⟩ := by
  obtain ⟨hslash, hq⟩ := isBlank_char h
  rw [nextElement, if_pos h]
  · exact fun _ hc _ => hslash hc
  · exact fun _ hc _ => hslash hc
  · exact hq

theorem nextElement_symbol {c : Char} {s : Symbol} {cs : List Char} (hs : Symbol.ofChar? c = some s)
    (h : c = '/' → cs.head? ≠ some '/' ∧ cs.head? ≠ some '*') :
    nextElement (c :: cs) = ⟨[c], .token (.symbol s) [c]⟩ := by
  obtain ⟨hb, hq, -⟩ := symbol_char hs
  rw [nextElement, if_neg (by simp [hb]), hs]
  · exact fun l hc hl => (h hc).1 (by rw [hl]; rfl)
  · exact fun l hc hl => (h hc).2 (by rw [hl]; rfl)
  · exact hq

/-! ## Elements cover something -/

theorem covers_nextElement_ne_nil (c : Char) (cs : List Char) : (nextElement (c :: cs)).covers ≠ [] := by
  by_cases h : isWordChar c = true
  · rw [nextElement_word h, covers_wordElement, List.takeWhile_cons_of_pos h]
    exact List.cons_ne_nil _ _
  · unfold nextElement
    split
    · simp_all
    · simp
    · split <;> simp
    · unfold stringElement
      dsimp only
      split <;> simp
    · rename_i hq heq
      cases heq
      split
      · simp
      · rename_i hb
        split
        · simp
        · rename_i hs
          exact absurd (isWordChar_of_none (by simpa using hb) hq hs) h

theorem length_drop_covers_lt (c : Char) (cs : List Char) :
    ((c :: cs).drop (nextElement (c :: cs)).covers.length).length < (c :: cs).length := by
  have hpos := List.length_pos_iff.mpr (covers_nextElement_ne_nil c cs)
  simp only [List.length_drop, List.length_cons]
  omega

/-! ## A whole text -/

/-- What an element yields that begins at an offset of a line, in front of what comes later. -/
def Element.followedBy (e : Element) (line pos : Nat) (later : Except Error (List Token)) : Except Error (List Token) :=
  let span : Span := ⟨pos, pos + byteLength e.covers⟩
  match e.content with
  | .gap => later
  | .token kind text => later.map (⟨kind, String.ofList text, span, line⟩ :: ·)
  | .fault detail => .error (.lexical span line (String.ofList e.covers) detail)

/-- What is read with an element in front is what is read behind it, and the element's token if it
    has one. -/
theorem Element.followedBy_eq_ok {e : Element} {line pos : Nat} {later : Except Error (List Token)} {ts : List Token}
    (h : e.followedBy line pos later = .ok ts) : e.content = .gap ∧ later = .ok ts ∨
      ∃ kind text us, e.content = .token kind text ∧ later = .ok us ∧
        ts = ⟨kind, String.ofList text, ⟨pos, pos + byteLength e.covers⟩, line⟩ :: us := by
  unfold followedBy at h
  split at h
  · rename_i hcontent
    exact Or.inl ⟨hcontent, h⟩
  · rename_i kind text hcontent
    cases later with
    | error f => cases h
    | ok us =>
      cases h
      exact Or.inr ⟨kind, text, us, hcontent, rfl, rfl⟩
  · cases h

/-- The tokens of the text from a place on, behind the text before it. Lines count from 1. -/
def tokensFrom (before : List Char) : List Char → Except Error (List Token)
  | [] => .ok []
  | c :: cs =>
    let e := nextElement (c :: cs)
    e.followedBy (before.count '\n' + 1) (byteLength before)
      (tokensFrom (before ++ e.covers) ((c :: cs).drop e.covers.length))
  termination_by ahead => ahead.length
  decreasing_by exact length_drop_covers_lt c cs

def wholeTokens (source : String) : Except Error (List Token) := tokensFrom [] source.toList

end JackAnalyzer.Token
