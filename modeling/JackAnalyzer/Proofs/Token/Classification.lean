/-
  JackAnalyzer.Proofs.Token.Classification — the class of every text as a bare lexeme: when it is
  a keyword, a symbol, an integer constant or an identifier, and when it is in no class. The value
  of an integer constant is that of all its digits, however many there are, although it is read in
  sixteen bits.
  - `classify_eq_iff`: the class of a text, told from its characters.
  - `ofLexeme_exact`: the token of a lexeme or its error, with all that they carry.
-/

import JackAnalyzer.Proofs.Token.Spacing

namespace JackAnalyzer.Token

/-! ## Numerals -/

def IsNumeral (s : String) : Prop := s ≠ "" ∧ ∀ c ∈ s.toList, c.isDigit = true

def decimalValue (s : String) : Nat := Nat.ofDigits 10 (s.toList.reverse.map fun c => c.toNat - '0'.toNat)

def StartsWithDigit (s : String) : Prop := ∃ c ∈ s.toList.head?, c.isDigit = true

theorem IsNumeral.startsWithDigit {s : String} (h : IsNumeral s) : StartsWithDigit s := by
  cases hs : s.toList with
  | nil => exact absurd (String.toList_eq_nil_iff.mp hs) h.1
  | cons c cs => exact ⟨c, by rw [hs]; rfl, h.2 c (hs ▸ List.mem_cons_self)⟩

/-- What starts with a digit is a numeral or has another character in it. -/
theorem StartsWithDigit.isNumeral_or {s : String} (h : StartsWithDigit s) :
    IsNumeral s ∨ ∃ c ∈ s.toList, c.isDigit = false := by
  by_cases hall : ∀ c ∈ s.toList, c.isDigit = true
  · refine Or.inl ⟨?_, hall⟩
    rintro rfl
    obtain ⟨c, hc, -⟩ := h
    cases hc
  · simp only [not_forall, Bool.not_eq_true, exists_prop] at hall
    exact Or.inr hall

theorem StartsWithDigit.ne_text {s : String} (h : StartsWithDigit s) (k : Keyword) : s ≠ k.text := by
  rintro rfl
  obtain ⟨c, hc, hdigit⟩ := h
  cases k <;> cases hc <;> cases hdigit

theorem StartsWithDigit.ne_char {s : String} (h : StartsWithDigit s) (y : Symbol) : s.toList ≠ [y.char] := by
  intro hs
  obtain ⟨c, hc, hdigit⟩ := h
  rw [hs] at hc
  cases hc
  cases y <;> cases hdigit

theorem digitsValue_toList (s : String) : digitsValue s.toList = decimalValue s := digitsValue_eq_ofDigits s.toList

/-! ## Classes -/

/-- The class of a text, or why it has none, told from its characters. -/
inductive Classified (s : String) : Except LexicalCause Kind → Prop where
  | keyword (k : Keyword) : s = k.text → Classified s (.ok (.keyword k))
  | symbol (y : Symbol) : s.toList = [y.char] → Classified s (.ok (.symbol y))
  | integerConstant : IsNumeral s → decimalValue s ≤ 32767 → Classified s (.ok (.integerConstant (decimalValue s)))
  | integerRange : IsNumeral s → 32767 < decimalValue s → Classified s (.error .integerRange)
  | digitFirst : StartsWithDigit s → (∃ c ∈ s.toList, c.isDigit = false) → Classified s (.error .digitFirst)
  | empty : s = "" → Classified s (.error .empty)
  | identifier : s ≠ "" → (∀ k : Keyword, s ≠ k.text) → (∀ y : Symbol, s.toList ≠ [y.char]) → ¬ StartsWithDigit s →
      Classified s (.ok .identifier)

theorem classify_of_toList {s : String} {c : Char} {cs : List Char} (hs : s.toList = c :: cs)
    (hkey : ∀ k : Keyword, s ≠ k.text) (hsym : ∀ y : Symbol, s.toList ≠ [y.char]) :
    classify s =
      if c.isDigit then
        if cs.all Char.isDigit then
          if decimalValue s ≤ 32767 then .ok (.integerConstant (decimalValue s)) else .error .integerRange
        else .error .digitFirst
      else .ok .identifier := by
  have hnone : cs = [] → Symbol.ofChar? c = none := by
    rintro rfl
    cases hc : Symbol.ofChar? c with
    | none => rfl
    | some y => exact absurd (by rw [hs, Symbol.ofChar?_eq_some_iff.mp hc]) (hsym y)
  unfold classify
  rw [ofText?_eq_none hkey]
  dsimp only
  rw [hs, classifyChars_cons hnone, ← hs, digitsValue_toList]
  rfl

theorem classify_of_numeral {s : String} (h : IsNumeral s) : classify s =
    if decimalValue s ≤ 32767 then .ok (.integerConstant (decimalValue s)) else .error .integerRange := by
  obtain ⟨c, hc, hdigit⟩ := h.startsWithDigit
  obtain ⟨cs, hs⟩ := List.head?_eq_some_iff.mp hc
  have hrest : cs.all Char.isDigit = true :=
    List.all_eq_true.mpr fun d hd => h.2 d (hs ▸ List.mem_cons_of_mem _ hd)
  rw [classify_of_toList hs h.startsWithDigit.ne_text h.startsWithDigit.ne_char, if_pos hdigit, if_pos hrest]

/-- The class that is told from the characters is the one that is found. -/
theorem Classified.eq_classify {s : String} {r : Except LexicalCause Kind} (h : Classified s r) : classify s = r := by
  cases h with
  | keyword k hk =>
    subst hk
    unfold classify
    rw [Keyword.ofText?_text]
  | symbol y hy =>
    rw [text_of_toList_eq hy]
    exact classify_symbol y
  | integerConstant hnum hmax => rw [classify_of_numeral hnum, if_pos hmax]
  | integerRange hnum hmax => rw [classify_of_numeral hnum, if_neg (Nat.not_le_of_lt hmax)]
  | digitFirst hstart hother =>
    obtain ⟨c, hc, hdigit⟩ := hstart
    obtain ⟨cs, hs⟩ := List.head?_eq_some_iff.mp hc
    obtain ⟨d, hd, hd'⟩ := hother
    have hrest : ¬ cs.all Char.isDigit = true := by
      intro hall
      rw [hs] at hd
      rcases List.mem_cons.mp hd with rfl | hd
      · rw [hdigit] at hd'
        cases hd'
      · rw [List.all_eq_true.mp hall d hd] at hd'
        cases hd'
    rw [classify_of_toList hs (StartsWithDigit.ne_text ⟨c, hc, hdigit⟩) (StartsWithDigit.ne_char ⟨c, hc, hdigit⟩),
      if_pos hdigit, if_neg hrest]
  | empty hempty =>
    subst hempty
    rfl
  | identifier hne hkey hsym hstart =>
    cases hs : s.toList with
    | nil => exact absurd (String.toList_eq_nil_iff.mp hs) hne
    | cons c cs =>
      have hdigit : ¬ c.isDigit = true := fun hc => hstart ⟨c, by rw [hs]; rfl, hc⟩
      rw [classify_of_toList hs hkey hsym, if_neg hdigit]

theorem exists_classified (s : String) : ∃ r, Classified s r := by
  by_cases hne : s = ""
  · exact ⟨_, .empty hne⟩
  by_cases hkey : ∃ k : Keyword, s = k.text
  · obtain ⟨k, hk⟩ := hkey
    exact ⟨_, .keyword k hk⟩
  by_cases hsym : ∃ y : Symbol, s.toList = [y.char]
  · obtain ⟨y, hy⟩ := hsym
    exact ⟨_, .symbol y hy⟩
  by_cases hstart : StartsWithDigit s
  · rcases hstart.isNumeral_or with hnum | hother
    · rcases Nat.lt_or_ge 32767 (decimalValue s) with hmax | hmax
      · exact ⟨_, .integerRange hnum hmax⟩
      · exact ⟨_, .integerConstant hnum hmax⟩
    · exact ⟨_, .digitFirst hstart hother⟩
  · exact ⟨_, .identifier hne (not_exists.mp hkey) (not_exists.mp hsym) hstart⟩

theorem classify_eq_iff {s : String} {r : Except LexicalCause Kind} : classify s = r ↔ Classified s r := by
  refine ⟨?_, Classified.eq_classify⟩
  rintro rfl
  obtain ⟨r, hr⟩ := exists_classified s
  rwa [hr.eq_classify]

/-! ## Tokens of lexemes -/

/-- A text that no token is made of, and what is said of it. -/
inductive Refused (s : String) : String → Prop where
  | empty : s = "" → Refused s "empty lexeme"
  | digitFirst : StartsWithDigit s → (∃ c ∈ s.toList, c.isDigit = false) →
      Refused s "identifier cannot start with a digit"
  | integerRange : IsNumeral s → 32767 < decimalValue s → Refused s "integer constant out of range 0..=32767"

theorem refused_iff {s detail : String} :
    Refused s detail ↔ ∃ cause : LexicalCause, Classified s (.error cause) ∧ cause.detail = detail := by
  constructor
  · intro h
    cases h with
    | empty hempty => exact ⟨.empty, .empty hempty, rfl⟩
    | digitFirst hstart hother => exact ⟨.digitFirst, .digitFirst hstart hother, rfl⟩
    | integerRange hnum hmax => exact ⟨.integerRange, .integerRange hnum hmax, rfl⟩
  · rintro ⟨cause, h, rfl⟩
    cases h with
    | empty hempty => exact .empty hempty
    | digitFirst hstart hother => exact .digitFirst hstart hother
    | integerRange hnum hmax => exact .integerRange hnum hmax

theorem classified_keyword_iff {s : String} {k : Keyword} : Classified s (.ok (.keyword k)) ↔ s = k.text := by
  refine ⟨fun h => ?_, .keyword k⟩
  cases h
  assumption

theorem classified_symbol_iff {s : String} {y : Symbol} : Classified s (.ok (.symbol y)) ↔ s.toList = [y.char] := by
  refine ⟨fun h => ?_, .symbol y⟩
  cases h
  assumption

theorem classified_integerConstant_iff {s : String} {v : Nat} :
    Classified s (.ok (.integerConstant v)) ↔ IsNumeral s ∧ decimalValue s = v ∧ v ≤ 32767 := by
  constructor
  · intro h
    cases h with
    | integerConstant hnum hmax => exact ⟨hnum, rfl, hmax⟩
  · rintro ⟨hnum, rfl, hmax⟩
    exact .integerConstant hnum hmax

theorem classified_identifier_iff {s : String} : Classified s (.ok .identifier) ↔
    (∀ k : Keyword, s ≠ k.text) ∧ (∀ y : Symbol, s.toList ≠ [y.char]) ∧
      ¬ (IsNumeral s ∧ decimalValue s ≤ 32767) ∧ ∀ detail, ¬ Refused s detail := by
  constructor
  · intro h
    cases h with
    | identifier hne hkey hsym hstart =>
      refine ⟨hkey, hsym, fun hnum => hstart hnum.1.startsWithDigit, fun detail h => ?_⟩
      cases h with
      | empty hempty => exact hne hempty
      | digitFirst hdigit _ => exact hstart hdigit
      | integerRange hnum _ => exact hstart hnum.startsWithDigit
  · rintro ⟨hkey, hsym, hnum, hrefused⟩
    -- the one way to be classified that is left
    obtain ⟨r, h⟩ := exists_classified s
    cases h with
    | keyword k hk => exact absurd hk (hkey k)
    | symbol y hy => exact absurd hy (hsym y)
    | integerConstant h hmax => exact absurd ⟨h, hmax⟩ hnum
    | integerRange h hmax => exact absurd (.integerRange h hmax) (hrefused _)
    | digitFirst hstart hother => exact absurd (.digitFirst hstart hother) (hrefused _)
    | empty h => exact absurd (.empty h) (hrefused _)
    | identifier hne _ _ hstart => exact .identifier hne hkey hsym hstart

section Lexemes

variable {s : String} {span : Span} {line : Nat}

theorem ofLexeme_eq_ok_iff {t : Token} :
    ofLexeme s span line = .ok t ↔ ∃ k, Classified s (.ok k) ∧ t = ⟨k, s, span, line⟩ := by
  simp only [← classify_eq_iff]
  unfold ofLexeme
  cases classify s <;> simp [eq_comm]

theorem ofLexeme_refused_iff {e : Error} : (ofLexeme s span line).mapError LexicalFault.toError = .error e ↔
    ∃ detail, Refused s detail ∧ e = .lexical span line s detail := by
  have hcause : (ofLexeme s span line).mapError LexicalFault.toError = .error e ↔
      ∃ cause : LexicalCause, Classified s (.error cause) ∧ e = .lexical span line s cause.detail := by
    simp only [← classify_eq_iff]
    unfold ofLexeme
    cases classify s <;> simp [Except.mapError, LexicalFault.toError, eq_comm]
  simp only [hcause, refused_iff]
  constructor
  · rintro ⟨cause, h, rfl⟩
    exact ⟨_, ⟨cause, h, rfl⟩, rfl⟩
  · rintro ⟨_, ⟨cause, h, rfl⟩, rfl⟩
    exact ⟨cause, h, rfl⟩

theorem ofLexeme_kind_iff {k : Kind} : ofLexeme s span line = .ok ⟨k, s, span, line⟩ ↔ Classified s (.ok k) := by
  rw [ofLexeme_eq_ok_iff]
  constructor
  · rintro ⟨k, h, heq⟩
    cases heq
    exact h
  · exact fun h => ⟨k, h, rfl⟩

end Lexemes

/-- What a lexeme at a place comes to. -/
structure LexemeExact (s : String) (span : Span) (line : Nat) : Prop where
  keyword (k : Keyword) : ofLexeme s span line = .ok ⟨.keyword k, s, span, line⟩ ↔ s = k.text
  symbol (y : Symbol) : ofLexeme s span line = .ok ⟨.symbol y, s, span, line⟩ ↔ s.toList = [y.char]
  /-- The value is that of the digits, in whatever way they are written. -/
  integerConstant (v : Nat) : ofLexeme s span line = .ok ⟨.integerConstant v, s, span, line⟩ ↔
    IsNumeral s ∧ decimalValue s = v ∧ v ≤ 32767
  /-- An error carries the lexeme and its place. -/
  error (e : Error) : (ofLexeme s span line).mapError LexicalFault.toError = .error e ↔
    ∃ detail, Refused s detail ∧ e = .lexical span line s detail
  /-- All else is an identifier. -/
  identifier : ofLexeme s span line = .ok ⟨.identifier, s, span, line⟩ ↔
    (∀ k : Keyword, s ≠ k.text) ∧ (∀ y : Symbol, s.toList ≠ [y.char]) ∧
      ¬ (IsNumeral s ∧ decimalValue s ≤ 32767) ∧ ∀ detail, ¬ Refused s detail
  /-- A token carries the lexeme and its place, and is no string constant. -/
  token (t : Token) : ofLexeme s span line = .ok t → t = ⟨t.kind, s, span, line⟩ ∧ t.kind ≠ .stringConstant
  /-- The sixteen bits that digits are read in hold their value, or there is no room for it. -/
  sixteenBits : (∀ w, digitsWord? s.toList = some w → w.toNat = decimalValue s) ∧
    (digitsWord? s.toList = none ↔ 65535 < decimalValue s)

/-- Each lexeme is classified exactly. -/
theorem ofLexeme_exact (s : String) (span : Span) (line : Nat) : LexemeExact s span line := by
  refine { keyword := fun k => ofLexeme_kind_iff.trans classified_keyword_iff,
           symbol := fun y => ofLexeme_kind_iff.trans classified_symbol_iff,
           integerConstant := fun v => ofLexeme_kind_iff.trans classified_integerConstant_iff,
           error := fun e => ofLexeme_refused_iff,
           identifier := ofLexeme_kind_iff.trans classified_identifier_iff, token := fun t h => ?token,
           sixteenBits := ⟨fun w hw => ?word, ?noWord⟩ }
  case token =>
    obtain ⟨k, hk, rfl⟩ := ofLexeme_eq_ok_iff.mp h
    refine ⟨rfl, ?_⟩
    rintro rfl
    cases hk
  case word => rw [← digitsWord?_eq_some_iff.mp hw, digitsValue_toList]
  case noWord => rw [digitsWord?_eq_none_iff, digitsValue_toList]

/-- Leading zeros do not count, and what would come to 1 in sixteen bits is out of range. -/
example : classify "0000032767" = .ok (.integerConstant 32767) ∧ classify "65537" = .error .integerRange ∧
    classify "7up" = .error .digitFirst ∧ classify "\u0667" = .ok .identifier := by decide +kernel

end JackAnalyzer.Token
