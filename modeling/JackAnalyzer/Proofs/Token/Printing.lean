/-
  JackAnalyzer.Proofs.Token.Printing — tokens written out as text. A token is well formed
  where its text is a lexeme of its kind; such a lexeme, in front of a character that it does
  not join with, is read as the token it was written for. Conversely, only well formed tokens
  are ever read.
  - `nextElement_lexeme`: a lexeme is read back.
  - `tokensFrom_printed`: tokens with single spaces between them are read back, at other places.
  - `wellFormed_of_tokensFrom`: what is read is well formed.
-/

import Mathlib.Data.Nat.Digits.Defs
import JackAnalyzer.Proofs.Token.WholeText

namespace JackAnalyzer.Token

open Text

/-! ## Well formed tokens -/

/-- The text is a lexeme of the kind, or stands between the quotes of one. -/
def Kind.Admits : Kind → String → Prop
  | .keyword k, s => s = k.text
  | .symbol y, s => s = y.text
  | .integerConstant n, s =>
    s ≠ "" ∧ (∀ c ∈ s.toList, c.isDigit = true) ∧
      n = Nat.ofDigits 10 (s.toList.reverse.map fun c => c.toNat - '0'.toNat) ∧ n ≤ 32767
  | .stringConstant, s => '"' ∉ s.toList ∧ '\n' ∉ s.toList
  | .identifier, s =>
    s ≠ "" ∧ (∀ c ∈ s.toList, isBlank c = false ∧ c ≠ '"' ∧ Symbol.ofChar? c = none) ∧ (∀ k : Keyword, s ≠ k.text) ∧
      ∀ c ∈ s.toList.head?, c.isDigit = false

def WellFormed (t : Token) : Prop := t.kind.Admits t.text

def Kind.isWord : Kind → Bool
  | .symbol _ | .stringConstant => false
  | _ => true

/-- The characters that the lexeme of a token would join with. -/
def Kind.joins : Kind → Char → Bool
  | .symbol .slash, c => c == '/' || c == '*'
  | .symbol _, _ | .stringConstant, _ => false
  | _, c => isWordChar c

def lexeme (t : Token) : List Char :=
  match t.kind with
  | .stringConstant => '"' :: t.text.toList ++ ['"']
  | _ => t.text.toList

def printed (ts : List Token) : List Char := [' '].intercalate (ts.map lexeme)

def unplaced (t : Token) : Token := { t with span := default, line := 0 }

/-! ## Words and their kinds -/

theorem digitsValue_eq_ofDigits (cs : List Char) :
    digitsValue cs = Nat.ofDigits 10 (cs.reverse.map fun c => c.toNat - '0'.toNat) := by
  unfold digitsValue
  induction cs using List.reverseRecOn with
  | nil => rfl
  | append_singleton cs c ih =>
    rw [List.foldl_append, List.reverse_append]
    simp only [List.foldl_cons, List.foldl_nil, List.reverse_singleton, List.singleton_append, List.map_cons,
      Nat.ofDigits_cons, ih]
    omega

theorem isWordChar_of_isDigit {c : Char} (h : c.isDigit = true) : isWordChar c = true := by
  obtain ⟨hlow, hhigh⟩ : 48 ≤ c.toNat ∧ c.toNat ≤ 57 := by
    simpa [Char.isDigit, UInt32.le_iff_toNat_le] using h
  refine isWordChar_iff.mpr ⟨?_, ?_, ?_⟩
  · simp only [isBlank, blankRanges, List.any_cons, List.any_nil, Bool.or_false, Bool.or_eq_false_iff,
      Bool.and_eq_false_iff, decide_eq_false_iff_not]
    omega
  · intro hc
    subst hc
    cases h
  · cases hs : Symbol.ofChar? c with
    | none => rfl
    | some s =>
      obtain rfl := Symbol.ofChar?_eq_some_iff.mp hs
      cases s <;> cases h

theorem Kind.Admits.word {k : Kind} {s : String} (hk : k.isWord = true) (h : k.Admits s) :
    s ≠ "" ∧ ∀ c ∈ s.toList, isWordChar c = true := by
  cases k with
  | keyword k =>
    have hkeyword : k.text ≠ "" ∧ k.text.toList.all isWordChar = true := by cases k <;> decide
    rw [h]
    exact ⟨hkeyword.1, List.all_eq_true.mp hkeyword.2⟩
  | symbol y => cases hk
  | integerConstant n => exact ⟨h.1, fun c hc => isWordChar_of_isDigit (h.2.1 c hc)⟩
  | stringConstant => cases hk
  | identifier => exact ⟨h.1, fun c hc => isWordChar_iff.mpr (h.2.1 c hc)⟩

theorem classifyChars_cons {c : Char} {cs : List Char} (h : cs = [] → Symbol.ofChar? c = none) :
    classifyChars (c :: cs) =
      if c.isDigit then
        if cs.all Char.isDigit then
          if digitsValue (c :: cs) ≤ maxInteger then .ok (.integerConstant (digitsValue (c :: cs)))
          else .error .integerRange
        else .error .digitFirst
      else .ok .identifier := by
  have hnone : (if cs.isEmpty then Symbol.ofChar? c else none) = none := by
    cases cs with
    | nil => exact h rfl
    | cons d ds => rfl
  unfold classifyChars
  simp only [hnone, integerKind_eq]

theorem classifyChars_word {c : Char} {cs : List Char} (hc : isWordChar c = true) : classifyChars (c :: cs) =
    if c.isDigit then
      if cs.all Char.isDigit then
        if digitsValue (c :: cs) ≤ maxInteger then .ok (.integerConstant (digitsValue (c :: cs)))
        else .error .integerRange
      else .error .digitFirst
    else .ok .identifier :=
  classifyChars_cons fun _ => (isWordChar_iff.mp hc).2.2

theorem ofText?_eq_none {s : String} (h : ∀ k : Keyword, s ≠ k.text) : Keyword.ofText? s = none := by
  cases hs : Keyword.ofText? s with
  | none => rfl
  | some k => exact absurd (Keyword.ofText?_eq_some_iff.mp hs) (h k)

theorem admits_of_classify {s : String} {k : Kind} (hne : s ≠ "") (hw : ∀ c ∈ s.toList, isWordChar c = true)
    (h : classify s = .ok k) : k.isWord = true ∧ k.Admits s := by
  unfold classify at h
  split at h
  · rename_i w hkey
    cases h
    exact ⟨rfl, Keyword.ofText?_eq_some_iff.mp hkey⟩
  · rename_i hkey
    cases hs : s.toList with
    | nil => exact absurd (String.toList_eq_nil_iff.mp hs) hne
    | cons c cs =>
      rw [hs, classifyChars_word (hw c (hs ▸ List.mem_cons_self ..))] at h
      split at h
      · rename_i hc
        split at h
        · rename_i hcs
          split at h
          · rename_i hmax
            cases h
            refine ⟨rfl, hne, ?_, ?_, hmax⟩
            · rw [hs]
              intro d hd
              rcases List.mem_cons.mp hd with rfl | hd
              · exact hc
              · exact List.all_eq_true.mp hcs d hd
            · rw [hs, digitsValue_eq_ofDigits]
          · cases h
        · cases h
      · rename_i hc
        cases h
        refine ⟨rfl, hne, fun d hd => isWordChar_iff.mp (hw d hd), fun w hsw => ?_, ?_⟩
        · rw [Keyword.ofText?_eq_some_iff.mpr hsw] at hkey
          cases hkey
        · rw [hs]
          intro d hd
          cases hd
          simpa using hc

/-- A word is classified as the kind that admits it. -/
theorem classify_of_admits {s : String} {k : Kind} (hk : k.isWord = true) (h : k.Admits s) : classify s = .ok k := by
  have hchar : ∀ c cs, s.toList = c :: cs → isWordChar c = true := fun c cs hs =>
    (h.word hk).2 c (hs ▸ List.mem_cons_self ..)
  cases k with
  | keyword w =>
    subst h
    unfold classify
    rw [Keyword.ofText?_text]
  | symbol y => cases hk
  | integerConstant n =>
    obtain ⟨hne, hdigits, rfl, hmax⟩ := h
    cases hs : s.toList with
    | nil => exact absurd (String.toList_eq_nil_iff.mp hs) hne
    | cons c cs =>
      rw [hs] at hdigits hmax
      have hkey : ∀ k : Keyword, s ≠ k.text := by
        intro k hk
        subst hk
        have hc := hdigits c (List.mem_cons_self ..)
        cases k <;> cases hs <;> cases hc
      unfold classify
      rw [ofText?_eq_none hkey]
      simp only
      rw [hs, classifyChars_word (hchar c cs hs), if_pos (hdigits c (List.mem_cons_self ..)),
        if_pos (List.all_eq_true.mpr fun d hd => hdigits d (List.mem_cons_of_mem _ hd)), digitsValue_eq_ofDigits,
        if_pos (show _ ≤ maxInteger from hmax)]
  | stringConstant => cases hk
  | identifier =>
    obtain ⟨hne, hw, hkey, hdigit⟩ := h
    cases hs : s.toList with
    | nil => exact absurd (String.toList_eq_nil_iff.mp hs) hne
    | cons c cs =>
      unfold classify
      rw [ofText?_eq_none hkey]
      simp only
      have hc := hdigit c (by rw [hs]; rfl)
      rw [hs, classifyChars_word (hchar c cs hs), if_neg (by simp [hc])]

/-! ## A lexeme is read back -/

theorem takeWhile_append_stop {p : Char → Bool} {w rest : List Char} (hw : ∀ c ∈ w, p c = true)
    (hrest : ∀ c ∈ rest.head?, p c = false) : (w ++ rest).takeWhile p = w := by
  rw [List.takeWhile_append_of_pos hw]
  cases rest with
  | nil => exact List.append_nil w
  | cons c cs =>
    rw [List.takeWhile_cons_of_neg (by rw [hrest c rfl]; exact Bool.false_ne_true)]
    exact List.append_nil w

theorem dropWhile_append_stop {p : Char → Bool} {w rest : List Char} (hw : ∀ c ∈ w, p c = true)
    (hrest : ∀ c ∈ rest.head?, p c = false) : (w ++ rest).dropWhile p = rest := by
  rw [List.dropWhile_append_of_pos hw]
  cases rest with
  | nil => rfl
  | cons c cs => exact List.dropWhile_cons_of_neg (by rw [hrest c rfl]; exact Bool.false_ne_true)

theorem toList_symbol_text (y : Symbol) : y.text.toList = [y.char] := by simp [Symbol.text]

theorem nextElement_wordLexeme {k : Kind} {s : String} (hk : k.isWord = true) (h : k.Admits s) {rest : List Char}
    (hrest : ∀ c ∈ rest.head?, isWordChar c = false) :
    nextElement (s.toList ++ rest) = ⟨s.toList, .token k s.toList⟩ := by
  obtain ⟨hne, hw⟩ := h.word hk
  have htake := takeWhile_append_stop hw hrest
  cases hs : s.toList with
  | nil => exact absurd (String.toList_eq_nil_iff.mp hs) hne
  | cons c cs =>
    rw [hs] at hw htake
    rw [List.cons_append] at htake ⊢
    rw [nextElement_word (hw c (List.mem_cons_self ..)), htake]
    unfold wordElement
    rw [← hs, String.ofList_toList, classify_of_admits hk h]

theorem stringElement_closed {text : List Char} (h : ∀ c ∈ text, isStringChar c = true) (rest : List Char) :
    stringElement (text ++ '"' :: rest) = ⟨'"' :: text ++ ['"'], .token .stringConstant text⟩ := by
  have hstop : ∀ c ∈ ('"' :: rest).head?, isStringChar c = false := by
    intro c hc
    cases hc
    rfl
  unfold stringElement
  rw [takeWhile_append_stop h hstop, dropWhile_append_stop h hstop]
  rfl

theorem nextElement_lexeme {t : Token} (h : t.WellFormed) {rest : List Char}
    (hrest : ∀ c ∈ rest.head?, t.kind.joins c = false) :
    nextElement (t.lexeme ++ rest) = ⟨t.lexeme, .token t.kind t.text.toList⟩ := by
  obtain ⟨k, s, span, line⟩ := t
  unfold WellFormed at h
  simp only at h hrest
  cases k with
  | keyword w => exact nextElement_wordLexeme rfl h hrest
  | integerConstant n => exact nextElement_wordLexeme rfl h hrest
  | identifier => exact nextElement_wordLexeme rfl h hrest
  | symbol y =>
    subst h
    show nextElement (y.text.toList ++ rest) = ⟨y.text.toList, .token (.symbol y) y.text.toList⟩
    rw [toList_symbol_text]
    refine nextElement_symbol (Symbol.ofChar?_char y) fun hc => ?_
    have hy : y = .slash := by
      revert hc
      cases y <;> decide
    subst hy
    refine ⟨fun hd => ?_, fun hd => ?_⟩
    · cases hrest _ hd
    · cases hrest _ hd
  | stringConstant =>
    have hchars : ∀ c ∈ s.toList, isStringChar c = true := by
      intro c hc
      have hq : c ≠ '"' := fun hq => h.1 (hq ▸ hc)
      have hn : c ≠ '\n' := fun hn => h.2 (hn ▸ hc)
      simp [isStringChar, hq, hn]
    show nextElement ('"' :: (s.toList ++ ['"']) ++ rest) = _
    rw [List.cons_append, List.append_assoc, List.singleton_append]
    exact stringElement_closed hchars rest

theorem lexeme_ne_nil {t : Token} (h : t.WellFormed) : t.lexeme ≠ [] := by
  obtain ⟨k, s, span, line⟩ := t
  unfold WellFormed at h
  have hword : k.isWord = true → s.toList ≠ [] := fun hk hs => (h.word hk).1 (String.toList_eq_nil_iff.mp hs)
  cases k with
  | keyword w => exact hword rfl
  | integerConstant n => exact hword rfl
  | identifier => exact hword rfl
  | symbol y =>
    subst h
    show y.text.toList ≠ []
    rw [toList_symbol_text]
    exact List.cons_ne_nil _ _
  | stringConstant => exact List.cons_ne_nil _ _

/-! ## A row of tokens is read back -/

theorem tokensFrom_lexeme (before : List Char) {t : Token} (h : t.WellFormed) {rest : List Char}
    (hrest : ∀ c ∈ rest.head?, t.kind.joins c = false) :
    ∃ u, u.unplaced = t.unplaced ∧
      tokensFrom before (t.lexeme ++ rest) = (tokensFrom (before ++ t.lexeme) rest).map (u :: ·) := by
  have hnext := nextElement_lexeme h hrest
  cases hl : t.lexeme ++ rest with
  | nil => exact absurd (List.append_eq_nil_iff.mp hl).1 (lexeme_ne_nil h)
  | cons c cs =>
    rw [tokensFrom, ← hl, hnext]
    dsimp only
    rw [List.drop_left]
    exact ⟨_, by simp [unplaced], rfl⟩

theorem tokensFrom_blank (before : List Char) {c : Char} (h : isBlank c = true) (cs : List Char) :
    tokensFrom before (c :: cs) = tokensFrom (before ++ [c]) cs := by
  rw [tokensFrom, nextElement_blank h]
  rfl

theorem joins_blank {c : Char} (h : isBlank c = true) (k : Kind) : k.joins c = false := by
  have hword : isWordChar c = false := by simp [isWordChar, h]
  cases k with
  | symbol y =>
    cases y with
    | slash =>
      by_cases hc : c = '/' ∨ c = '*'
      · rcases hc with rfl | rfl <;> cases h
      · simpa [Kind.joins] using hc
    | _ => rfl
  | stringConstant => rfl
  | _ => exact hword

theorem printed_cons_cons (t u : Token) (ts : List Token) :
    printed (t :: u :: ts) = t.lexeme ++ ' ' :: printed (u :: ts) := by
  unfold printed
  rw [List.map_cons, List.map_cons, List.intercalate_cons_cons, List.append_assoc]
  rfl

/-- Printed tokens are read back, at other places. -/
theorem tokensFrom_printed {ts : List Token} (h : ∀ t ∈ ts, t.WellFormed) : ∀ before,
    ∃ us, tokensFrom before (printed ts) = .ok us ∧ us.map unplaced = ts.map unplaced := by
  induction ts with
  | nil =>
    intro before
    exact ⟨[], by rw [show printed [] = [] from rfl, tokensFrom], rfl⟩
  | cons t ts ih =>
    intro before
    have hwf := h t (List.mem_cons_self ..)
    have ih := ih fun u hu => h u (List.mem_cons_of_mem _ hu)
    cases ts with
    | nil =>
      have hend : ∀ c ∈ [].head?, t.kind.joins c = false := by
        intro c hc
        cases hc
      obtain ⟨u, hu, htokens⟩ := tokensFrom_lexeme before hwf hend
      rw [List.append_nil, tokensFrom] at htokens
      refine ⟨[u], ?_, by simp [hu]⟩
      rw [show printed [t] = t.lexeme by simp [printed], htokens]
      rfl
    | cons t' ts =>
      have hjoin : ∀ c ∈ (' ' :: printed (t' :: ts)).head?, t.kind.joins c = false := by
        intro c hc
        cases hc
        exact joins_blank (by decide) t.kind
      obtain ⟨u, hu, htokens⟩ := tokensFrom_lexeme before hwf hjoin
      obtain ⟨us, hus, hmap⟩ := ih (before ++ t.lexeme ++ [' '])
      refine ⟨u :: us, ?_, by rw [List.map_cons, hu, hmap]; rfl⟩
      rw [printed_cons_cons, htokens, tokensFrom_blank _ (by decide), hus]
      rfl

/-! ## Only well formed tokens are read -/

theorem admits_of_stringElement {cs : List Char} {k : Kind} {text : List Char}
    (h : (stringElement cs).content = .token k text) : k.Admits (String.ofList text) := by
  unfold stringElement at h
  dsimp only at h
  split at h
  · cases h
    have hchars : ∀ c ∈ cs.takeWhile isStringChar, isStringChar c = true := fun c hc => List.mem_takeWhile_imp hc
    refine ⟨fun hq => ?_, fun hn => ?_⟩
    · rw [String.toList_ofList] at hq
      cases hchars _ hq
    · rw [String.toList_ofList] at hn
      cases hchars _ hn
  · cases h

theorem admits_of_wordElement {word : List Char} (hne : word ≠ []) (hw : ∀ c ∈ word, isWordChar c = true) {k : Kind}
    {text : List Char} (h : (wordElement word).content = .token k text) : k.Admits (String.ofList text) := by
  have hne' : String.ofList word ≠ "" := by
    rw [Ne, ← String.toList_eq_nil_iff, String.toList_ofList]
    exact hne
  unfold wordElement at h
  split at h
  · rename_i hclass
    cases h
    exact (admits_of_classify hne' (by rw [String.toList_ofList]; exact hw) hclass).2
  · cases h

theorem admits_of_nextElement {cs : List Char} {k : Kind} {text : List Char}
    (h : (nextElement cs).content = .token k text) : k.Admits (String.ofList text) := by
  revert h
  fun_cases nextElement cs with
  | case5 cs => exact admits_of_stringElement
  | case7 c cs _ _ _ _ s hs =>
    intro h
    cases h
    rw [Symbol.ofChar?_eq_some_iff.mp hs]
    exact (toList_symbol_text s).symm ▸ String.ofList_toList
  | case8 c cs _ _ hq hb hs =>
    have hword := isWordChar_of_none (by simpa using hb) hq hs
    exact admits_of_wordElement (by simp [hword]) fun d hd => List.mem_takeWhile_imp hd
  | _ =>
    intro h
    cases h

theorem wellFormed_of_tokensFrom (before ahead : List Char) : ∀ {ts}, tokensFrom before ahead = .ok ts →
    ∀ t ∈ ts, t.WellFormed := by
  fun_induction tokensFrom before ahead with
  | case1 before =>
    intro ts h
    cases h
    intro t ht
    cases ht
  | case2 before c cs e =>
    rename_i ih
    intro ts h
    rcases Element.followedBy_eq_ok h with ⟨-, hlater⟩ | ⟨k, text, us, hcontent, hlater, rfl⟩
    · exact ih hlater
    · intro t ht
      rcases List.mem_cons.mp ht with rfl | ht
      · exact admits_of_nextElement hcontent
      · exact ih hlater t ht

end JackAnalyzer.Token
