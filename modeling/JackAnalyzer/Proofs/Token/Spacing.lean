/-
  JackAnalyzer.Proofs.Token.Spacing — which rows of tokens a text can be read as, places aside,
  and which texts are read as a given row: its lexemes in order with any blanks in front of them,
  between them and behind them. Two lexemes may touch, unless both are words or they would open
  a comment.
  - `isLexeme_iff_admits`: two descriptions of what may be the text of a token.
  - `tokenize_spaced`: lexemes are read back whatever blanks stand between them.
  - `tokenize_image`: the rows that texts are read as, and texts that each of them is read from.
-/

import JackAnalyzer.Proofs.Token.Printing

namespace JackAnalyzer.Token

open Text

/-- What a token is read as, wherever it stands: its kind and its text. -/
def reading (t : Token) : Kind × String := (t.kind, t.text)

theorem reading_eq_of_unplaced {t u : Token} (h : t.unplaced = u.unplaced) : t.reading = u.reading := by
  show t.unplaced.reading = u.unplaced.reading
  rw [h]

/-! ## Lexemes -/

/-- The text is one of a token of the kind: no quote and no line feed stands in a string constant,
    and what is no string constant is a single symbol or a word, and classified as the kind. -/
def IsLexeme : Kind → String → Prop
  | .stringConstant, s => '"' ∉ s.toList ∧ '\n' ∉ s.toList
  | k, s =>
    ((∃ y : Symbol, s.toList = [y.char]) ∨
      s ≠ "" ∧ ∀ c ∈ s.toList, isBlank c = false ∧ c ≠ '"' ∧ Symbol.ofChar? c = none) ∧ classify s = .ok k

theorem classify_symbol (y : Symbol) : classify y.text = .ok (.symbol y) := by cases y <;> rfl

theorem text_of_toList_eq {s : String} {y : Symbol} (h : s.toList = [y.char]) : s = y.text :=
  String.toList_injective (h.trans (toList_symbol_text y).symm)

theorem classified_iff_admits {k : Kind} (hk : k ≠ .stringConstant) {s : String} :
    ((∃ y : Symbol, s.toList = [y.char]) ∨
      s ≠ "" ∧ ∀ c ∈ s.toList, isBlank c = false ∧ c ≠ '"' ∧ Symbol.ofChar? c = none) ∧ classify s = .ok k ↔
    k.Admits s := by
  constructor
  · rintro ⟨⟨y, hy⟩ | ⟨hne, hw⟩, hclass⟩
    · obtain rfl := text_of_toList_eq hy
      cases (classify_symbol y).symm.trans hclass
      rfl
    · exact (admits_of_classify hne (fun c hc => isWordChar_iff.mpr (hw c hc)) hclass).2
  · intro h
    by_cases hw : k.isWord = true
    · obtain ⟨hne, hchars⟩ := h.word hw
      exact ⟨Or.inr ⟨hne, fun c hc => isWordChar_iff.mp (hchars c hc)⟩, classify_of_admits hw h⟩
    · cases k with
      | symbol y =>
        subst h
        exact ⟨Or.inl ⟨y, toList_symbol_text y⟩, classify_symbol y⟩
      | stringConstant => exact absurd rfl hk
      | _ => exact absurd rfl hw

theorem isLexeme_iff_admits {k : Kind} {s : String} : IsLexeme k s ↔ k.Admits s := by
  cases k with
  | stringConstant => exact Iff.rfl
  | _ => exact classified_iff_admits (by simp)

/-! ## Lexemes next to each other -/

def written (e : Kind × String) : List Char :=
  match e.1 with
  | .stringConstant => '"' :: e.2.toList ++ ['"']
  | _ => e.2.toList

/-- Two lexemes that a blank keeps apart: two words, or a slash and what would open a comment
    with it. -/
def needsBlank (k l : Kind) : Bool :=
  (k.isWord && l.isWord) || (k == .symbol .slash && (l == .symbol .slash || l == .symbol .star))

/-- A lexeme does not join with one that may touch it. -/
theorem joins_written {k l : Kind} {s : String} (hl : l.Admits s) (h : needsBlank k l = false) :
    ∀ c ∈ (written (l, s)).head?, k.joins c = false := by
  intro c hc
  have hword : l.isWord = true → isWordChar c = true := by
    intro hw
    have hmem : c ∈ s.toList := by
      cases l with
      | stringConstant | symbol => cases hw
      | _ => exact List.mem_of_mem_head? hc
    exact (hl.word hw).2 c hmem
  have hother : l.isWord = false → c = '"' ∨ ∃ y, l = .symbol y ∧ c = y.char := by
    intro hw
    cases l with
    | stringConstant => exact Or.inl (Option.some.inj hc).symm
    | symbol y =>
      subst hl
      have hc : c ∈ y.text.toList.head? := hc
      rw [toList_symbol_text] at hc
      exact Or.inr ⟨y, rfl, (Option.some.inj hc).symm⟩
    | _ => cases hw
  have hnotword : l.isWord = false → isWordChar c = false := by
    intro hw
    rcases hother hw with rfl | ⟨y, -, rfl⟩
    · decide
    · simp [isWordChar, Symbol.ofChar?_char]
  cases k with
  | symbol y =>
    by_cases hy : y = .slash
    · subst hy
      -- Of the symbols only a slash and a star go on behind a slash, and of the words none.
      have hc : c ≠ '/' ∧ c ≠ '*' := by
        cases hw : l.isWord with
        | true =>
          refine ⟨(isWordChar_char (hword hw)).1, fun hstar => ?_⟩
          rw [hstar] at hword
          cases hword hw
        | false =>
          rcases hother hw with rfl | ⟨z, rfl, rfl⟩
          · decide
          · cases z <;> first | decide | cases h
      simp [Kind.joins, hc]
    · cases y <;> first | rfl | exact absurd rfl hy
  | stringConstant => rfl
  | _ =>
    refine hnotword ?_
    simpa [needsBlank, Kind.isWord] using h

/-! ## Lexemes with blanks between them -/

/-- Lexemes in order, each with its gap in front of it, and a last gap behind them. -/
def spaced (gaps : Nat → List Char) : List (Kind × String) → List Char
  | [] => gaps 0
  | e :: es => gaps 0 ++ (written e ++ spaced (fun i => gaps (i + 1)) es)

theorem tokensFrom_blanks {gap : List Char} (h : ∀ c ∈ gap, isBlank c = true) : ∀ before cs : List Char,
    tokensFrom before (gap ++ cs) = tokensFrom (before ++ gap) cs := by
  induction gap with
  | nil =>
    intro before cs
    rw [List.nil_append, List.append_nil]
  | cons c gap ih =>
    intro before cs
    obtain ⟨hc, hgap⟩ := List.forall_mem_cons.mp h
    rw [List.cons_append, tokensFrom_blank before hc, ih hgap, List.append_assoc, List.singleton_append]

/-- Lexemes are read back from any place on, whatever blanks stand between them. -/
theorem tokensFrom_spaced {es : List (Kind × String)} : ∀ {gaps : Nat → List Char}, (∀ e ∈ es, e.1.Admits e.2) →
    (∀ i, ∀ c ∈ gaps i, isBlank c = true) →
    (∀ i e f, es[i]? = some e → es[i + 1]? = some f → needsBlank e.1 f.1 = true → gaps (i + 1) ≠ []) → ∀ before,
      ∃ ts, tokensFrom before (spaced gaps es) = .ok ts ∧ ts.map reading = es := by
  induction es with
  | nil =>
    intro gaps _ hblank _ before
    refine ⟨[], ?_, rfl⟩
    rw [spaced, ← List.append_nil (gaps 0), tokensFrom_blanks (hblank 0), tokensFrom]
  | cons e es ih =>
    intro gaps hlex hblank hapart before
    obtain ⟨he, hes⟩ := List.forall_mem_cons.mp hlex
    let t : Token := ⟨e.1, e.2, default, 0⟩
    have hjoin : ∀ c ∈ (spaced (fun i => gaps (i + 1)) es).head?, e.1.joins c = false := by
      intro c hc
      cases hgap : gaps 1 with
      | cons d gap =>
        have hcd : c = d := by cases es <;> simpa [spaced, hgap, eq_comm] using hc
        exact hcd ▸ joins_blank (hblank 1 d (by simp [hgap])) e.1
      | nil =>
        cases es with
        | nil => simp [spaced, hgap] at hc
        | cons f es =>
          have hf : f.1.Admits f.2 := hes f List.mem_cons_self
          refine joins_written (s := f.2) hf ?_ c ?_
          · exact Bool.eq_false_iff.mpr fun hneeds => hapart 0 e f rfl rfl hneeds hgap
          · have hne : written f ≠ [] := lexeme_ne_nil (t := ⟨f.1, f.2, default, 0⟩) hf
            rwa [spaced, hgap, List.nil_append, List.head?_append_of_ne_nil _ hne] at hc
    obtain ⟨u, hu, htokens⟩ := tokensFrom_lexeme (before ++ gaps 0) (t := t) he hjoin
    obtain ⟨us, hus, hmap⟩ := ih hes (fun i => hblank (i + 1)) (fun i => hapart (i + 1)) (before ++ gaps 0 ++ t.lexeme)
    refine ⟨u :: us, ?_, ?_⟩
    · rw [spaced, tokensFrom_blanks (hblank 0)]
      exact htokens.trans (by rw [hus]; rfl)
    · rw [List.map_cons, hmap, reading_eq_of_unplaced hu]
      rfl

theorem tokenize_spaced {es : List (Kind × String)} {gaps : Nat → List Char} (hlex : ∀ e ∈ es, IsLexeme e.1 e.2)
    (hblank : ∀ i, ∀ c ∈ gaps i, isBlank c = true)
    (hapart : ∀ i e f, es[i]? = some e → es[i + 1]? = some f → needsBlank e.1 f.1 = true → gaps (i + 1) ≠ []) :
    ∃ ts, SourceUnit.tokenize (String.ofList (spaced gaps es)) = .ok ts ∧ ts.map reading = es := by
  rw [tokenize_ofList]
  exact tokensFrom_spaced (fun e he => isLexeme_iff_admits.mp (hlex e he)) hblank hapart []

/-- A row of kinds and texts is what some text is read as, places aside, exactly where each text
    is a lexeme of its kind. Such a row is read from its lexemes in order with any blanks in front
    of them, between them and behind them; between two lexemes none need stand, unless a blank
    keeps them apart. -/
theorem tokenize_image (es : List (Kind × String)) :
    ((∃ source ts, SourceUnit.tokenize source = .ok ts ∧ ts.map reading = es) ↔ ∀ e ∈ es, IsLexeme e.1 e.2) ∧
    ∀ gaps : Nat → List Char, (∀ e ∈ es, IsLexeme e.1 e.2) → (∀ i, ∀ c ∈ gaps i, isBlank c = true) →
      (∀ i e f, es[i]? = some e → es[i + 1]? = some f → needsBlank e.1 f.1 = true → gaps (i + 1) ≠ []) →
        ∃ ts, SourceUnit.tokenize (String.ofList (spaced gaps es)) = .ok ts ∧ ts.map reading = es := by
  refine ⟨⟨?_, fun hlex => ?_⟩, fun gaps hlex hblank hapart => tokenize_spaced hlex hblank hapart⟩
  · rintro ⟨source, ts, htokens, rfl⟩ e he
    obtain ⟨t, ht, rfl⟩ := List.mem_map.mp he
    rw [tokenize_eq_tokensFrom] at htokens
    exact isLexeme_iff_admits.mpr (wellFormed_of_tokensFrom [] source.toList htokens t ht)
  · let gaps : Nat → List Char := fun _ => [' ']
    have hblank : ∀ i, ∀ c ∈ gaps i, isBlank c = true := by
      intro i c hc
      obtain rfl := List.mem_singleton.mp hc
      rfl
    obtain ⟨ts, htokens, hmap⟩ := tokenize_spaced hlex hblank fun _ _ _ _ _ _ => List.cons_ne_nil _ _
    exact ⟨_, ts, htokens, hmap⟩

/-- A slash and a star, apart from each other, and a string constant that touches the star and a
    name. -/
theorem tokenize_image_touching :
    let es : List (Kind × String) :=
      [(.symbol .slash, "/"), (.symbol .star, "*"), (.stringConstant, "//"), (.identifier, "b")]
    let gaps : Nat → List Char := fun i => if i = 1 then ['\u2003'] else []
    (∀ e ∈ es, IsLexeme e.1 e.2) ∧ spaced gaps es = "/\u2003*\"//\"b".toList ∧
      ∃ ts, SourceUnit.tokenize (String.ofList (spaced gaps es)) = .ok ts ∧ ts.map reading = es := by
  intro es gaps
  have hlex : ∀ e ∈ es, IsLexeme e.1 e.2 := (tokenize_image es).1.mp
    ⟨"/ *\"//\" b", [⟨.symbol .slash, "/", ⟨0, 1⟩, 1⟩, ⟨.symbol .star, "*", ⟨2, 3⟩, 1⟩,
      ⟨.stringConstant, "//", ⟨3, 7⟩, 1⟩, ⟨.identifier, "b", ⟨8, 9⟩, 1⟩], by decide +kernel, rfl⟩
  refine ⟨hlex, by decide, (tokenize_image es).2 gaps hlex (fun i c hc => ?_) fun i e f he hf hneeds => ?_⟩
  · simp only [gaps] at hc
    split at hc
    · obtain rfl := List.mem_singleton.mp hc
      decide
    · cases hc
  · match i with
    | 0 => exact List.cons_ne_nil _ _
    | 1 | 2 =>
      cases he
      cases hf
      cases hneeds
    | i + 3 => cases hf

end JackAnalyzer.Token
