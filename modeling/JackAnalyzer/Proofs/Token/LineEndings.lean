/-
  JackAnalyzer.Proofs.Token.LineEndings — a carriage return in front of every line feed changes
  nothing but places. It is a blank behind code, belongs to the comment that it stands in, and
  is no part of a string constant that its line leaves open. So each token and each fault moves by
  one byte for every line before its own.
  - `tokensFrom_of_stands_withReturns`: one element of the text.
  - `tokenize_withReturns`: the tokens of the text, or its fault.
-/

import JackAnalyzer.Proofs.Token.Rows

namespace JackAnalyzer

/-- The token moved by a byte for each line before its own. -/
def Token.behindReturns (t : Token) : Token := { t with span := t.span.shift (t.line - 1) }

def Error.behindReturns : Error → Error
  | .lexical span line lexeme detail => .lexical (span.shift (line - 1)) line lexeme detail
  | .parse span line found detail => .parse (span.shift (line - 1)) line found detail
  | e => e

namespace Token

open Text

def allBehindReturns : Except Error (List Token) → Except Error (List Token)
  | .ok ts => .ok (ts.map behindReturns)
  | .error e => .error e.behindReturns

/-- The text with a carriage return in front of every line feed. -/
def withReturns (cs : List Char) : List Char := cs.flatMap fun c => if c = '\n' then ['\r', '\n'] else [c]

/-! ## Returns in a text -/

@[simp] theorem withReturns_nil : withReturns [] = [] := rfl

@[simp] theorem withReturns_newline (cs : List Char) : withReturns ('\n' :: cs) = '\r' :: '\n' :: withReturns cs := rfl

theorem withReturns_cons {c : Char} (h : c ≠ '\n') (cs : List Char) : withReturns (c :: cs) = c :: withReturns cs := by
  simp [withReturns, h]

theorem withReturns_append (as cs : List Char) : withReturns (as ++ cs) = withReturns as ++ withReturns cs :=
  List.flatMap_append

theorem withReturns_of_notMem {cs : List Char} (h : '\n' ∉ cs) : withReturns cs = cs := by
  induction cs with
  | nil => rfl
  | cons c cs ih =>
    have hc : c ≠ '\n' := fun hc => h (hc ▸ List.mem_cons_self)
    rw [withReturns_cons hc, ih fun hcs => h (List.mem_cons_of_mem _ hcs)]

theorem byteLength_withReturns (cs : List Char) : byteLength (withReturns cs) = byteLength cs + cs.count '\n' := by
  induction cs with
  | nil => rfl
  | cons c cs ih =>
    by_cases hc : c = '\n'
    · subst hc
      rw [withReturns_newline, byteLength_cons, byteLength_cons, ih, byteLength_cons, List.count_cons_self]
      show 1 + (1 + _) = 1 + _ + _
      omega
    · rw [withReturns_cons hc, byteLength_cons, ih, byteLength_cons, List.count_cons_of_ne hc, Nat.add_assoc]

theorem count_withReturns (cs : List Char) : (withReturns cs).count '\n' = cs.count '\n' := by
  induction cs with
  | nil => rfl
  | cons c cs ih =>
    by_cases hc : c = '\n'
    · subst hc
      rw [withReturns_newline, List.count_cons_of_ne (by decide), List.count_cons_self, List.count_cons_self, ih]
    · rw [withReturns_cons hc, List.count_cons_of_ne hc, List.count_cons_of_ne hc, ih]

theorem head?_withReturns {cs : List Char} : ∀ c ∈ (withReturns cs).head?, c ∈ cs.head? ∨ c = '\r' := by
  intro c hc
  cases cs with
  | nil => cases hc
  | cons d ds =>
    by_cases hd : d = '\n'
    · subst hd
      exact .inr (Option.some.inj hc).symm
    · rw [withReturns_cons hd] at hc
      exact .inl hc

/-- A carriage return closes no comment, and none is put within the end of one. -/
theorem throughClose_withReturns (cs : List Char) :
    throughClose (withReturns cs) = (throughClose cs).map withReturns := by
  fun_induction throughClose cs with
  | case1 => rfl
  | case2 cs =>
    rw [withReturns_cons (by decide), withReturns_cons (by decide)]
    rfl
  | case3 c cs hclose ih =>
    by_cases hc : c = '\n'
    · subst hc
      rw [withReturns_newline, throughClose.eq_3 _ _ (fun _ h => by cases h),
        throughClose.eq_3 _ _ (fun _ h => by cases h), ih]
      cases throughClose cs <;> rfl
    · rw [withReturns_cons hc, throughClose.eq_3, ih]
      · cases throughClose cs with
        | none => rfl
        | some through => exact congrArg some (withReturns_cons hc through).symm
      · intro ds hstar hds
        have hhead : '/' ∈ (withReturns cs).head? := by rw [hds]; rfl
        rcases head?_withReturns '/' hhead with hslash | hslash
        · obtain ⟨es, rfl⟩ := List.head?_eq_some_iff.mp hslash
          exact hclose es hstar rfl
        · cases hslash

/-! ## Elements -/

/-- Tokens and faults hold no line feed, and carriage returns behind them do not join with them. -/
theorem Stands.before_returns {e : Element} {rest : List Char} (h : Stands e rest) (hcontent : e.content ≠ .gap) :
    '\n' ∉ e.covers ∧ Stands e (withReturns rest) := by
  have hword {w : List Char} (hw : ∀ c ∈ w, isWordChar c = true) : '\n' ∉ w := fun hn =>
    (isWordChar_char (hw _ hn)).2 rfl
  have htext {text : List Char} (ht : ∀ c ∈ text, isStringChar c = true) : '\n' ∉ text := fun hn => by cases ht _ hn
  have hstop (hrest : ∀ c ∈ rest.head?, isWordChar c = false) : ∀ c ∈ (withReturns rest).head?, isWordChar c = false := by
    intro c hc
    rcases head?_withReturns c hc with hc | rfl
    · exact hrest c hc
    · decide
  cases h with
  | line | block | blank => exact absurd rfl hcontent
  | openBlock hopen =>
    refine ⟨by decide, .openBlock ?_⟩
    rw [throughClose_withReturns, hopen]
    rfl
  | string hchars => exact ⟨by simp [htext hchars], .string hchars⟩
  | @openString text returns rest hchars hlast hreturns hrest =>
    have hline : '\n' ∉ returns := fun hn => by cases hreturns _ hn
    refine ⟨by simp [htext hchars], ?_⟩
    rw [withReturns_append, withReturns_of_notMem hline]
    cases rest with
    | nil => exact .openString hchars hlast hreturns (by simp)
    | cons c rest =>
      obtain rfl := hrest c rfl
      have hreturns' : ∀ c ∈ returns ++ ['\r'], c = '\r' := by
        intro c hc
        rcases List.mem_append.mp hc with hc | hc
        · exact hreturns c hc
        · exact List.mem_singleton.mp hc
      have hstands : Stands ⟨'"' :: text, .fault LexicalCause.openString.detail⟩
          (returns ++ ['\r'] ++ '\n' :: withReturns rest) :=
        .openString hchars hlast hreturns' (head?_newline _)
      simpa using hstands
  | @symbol s _ hslash =>
    refine ⟨by cases s <;> decide, .symbol fun hs => ⟨fun hc => ?_, fun hc => ?_⟩⟩
    · rcases head?_withReturns _ hc with hc | hc
      · exact (hslash hs).1 hc
      · cases hc
    · rcases head?_withReturns _ hc with hc | hc
      · exact (hslash hs).2 hc
      · cases hc
  | word hne hw hrest hclass => exact ⟨hword hw, .word hne hw (hstop hrest) hclass⟩
  | wrongWord hne hw hrest hclass => exact ⟨hword hw, .wrongWord hne hw (hstop hrest) hclass⟩

/-- What is skipped is skipped with its carriage returns. -/
theorem tokensFrom_gap_withReturns {covers rest : List Char} (h : Stands ⟨covers, .gap⟩ rest) (before : List Char) :
    tokensFrom before (withReturns (covers ++ rest)) = tokensFrom (before ++ withReturns covers) (withReturns rest) := by
  rw [withReturns_append]
  cases h with
  | @line body _ hbody hrest =>
    have hline : '\n' ∉ '/' :: '/' :: body := by simp [hbody]
    rw [withReturns_of_notMem hline]
    cases rest with
    | nil => exact tokensFrom_of_stands (.line hbody (by simp)) before
    | cons c rest =>
      -- The carriage return belongs to the comment here and is a blank behind it there.
      obtain rfl := hrest c rfl
      have hbody' : '\n' ∉ body ++ ['\r'] := by simp [hbody]
      have hread : tokensFrom before ('/' :: '/' :: (body ++ ['\r']) ++ '\n' :: withReturns rest) =
          tokensFrom (before ++ '/' :: '/' :: (body ++ ['\r'])) ('\n' :: withReturns rest) :=
        tokensFrom_of_stands (.line hbody' (head?_newline _)) before
      rw [withReturns_newline, tokensFrom_blank _ (by decide)]
      simpa using hread
  | @block body _ hclose =>
    have hclose' : throughClose (withReturns body) = some (withReturns body) := by
      rw [throughClose_withReturns, hclose]
      rfl
    have hstands : Stands ⟨'/' :: '*' :: withReturns body, .gap⟩ (withReturns rest) := .block hclose'
    rw [withReturns_cons (by decide), withReturns_cons (by decide)]
    exact tokensFrom_of_stands hstands before
  | @blank c _ hb =>
    by_cases hc : c = '\n'
    · subst hc
      show tokensFrom before ('\r' :: '\n' :: withReturns rest) = tokensFrom (before ++ ['\r', '\n']) (withReturns rest)
      rw [tokensFrom_blank _ (by decide), tokensFrom_blank _ (by decide), List.append_assoc]
      rfl
    · rw [withReturns_cons hc]
      exact tokensFrom_blank before hb _

theorem tokensFrom_of_stands_withReturns {e : Element} {rest : List Char} (h : Stands e rest) (before : List Char) :
    tokensFrom before (withReturns (e.covers ++ rest)) = e.followedBy (before.count '\n' + 1) (byteLength before)
      (tokensFrom (before ++ withReturns e.covers) (withReturns rest)) := by
  obtain ⟨covers, content⟩ := e
  by_cases hcontent : content = .gap
  · subst hcontent
    exact tokensFrom_gap_withReturns h before
  · obtain ⟨hline, hstands⟩ := h.before_returns hcontent
    rw [withReturns_append, withReturns_of_notMem hline]
    exact tokensFrom_of_stands hstands before

/-! ## Whole texts -/

theorem tokensFrom_withReturns (before ahead : List Char) :
    tokensFrom (withReturns before) (withReturns ahead) = allBehindReturns (tokensFrom before ahead) := by
  fun_induction tokensFrom before ahead with
  | case1 before =>
    rw [withReturns_nil, tokensFrom]
    rfl
  | case2 before c cs e ih =>
    obtain ⟨rest, hcs, hstands⟩ := exists_stands (List.cons_ne_nil c cs)
    have hrest : (c :: cs).drop e.covers.length = rest := by
      conv => lhs; arg 2; rw [hcs]
      exact List.drop_left
    rw [hrest] at ih ⊢
    rw [hcs, tokensFrom_of_stands_withReturns hstands, ← withReturns_append, ih, count_withReturns,
      byteLength_withReturns]
    exact Element.followedBy_move (fun _ => rfl) (fun _ => rfl) (fun _ _ _ => rfl) (fun _ _ _ => rfl) ..

/-- A text is read alike whether its lines end in line feeds or in carriage returns and line feeds,
    tokens and faults, each moved by one byte for every line before its own. -/
theorem tokenize_withReturns (source : String) :
    SourceUnit.tokenize (String.ofList (withReturns source.toList)) = allBehindReturns (SourceUnit.tokenize source) := by
  rw [tokenize_ofList, tokenize_eq_tokensFrom]
  exact tokensFrom_withReturns [] source.toList

end Token

end JackAnalyzer
