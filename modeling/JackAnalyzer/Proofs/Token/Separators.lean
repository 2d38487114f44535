/-
  JackAnalyzer.Proofs.Token.Separators — texts read one behind the other. A line feed keeps any
  two texts apart: the tokens of the first are those of before, and the second is read as on
  its own, with its places moved. Comments do the same behind a text that neither a slash nor a
  comment ends.
  - `Row.restart`: a text is read behind a row and what is skipped.
  - `tokenize_separated`: a line feed or a comment between two texts.
-/

import JackAnalyzer.Proofs.Token.Cutting

namespace JackAnalyzer.Token

open Text

/-! ## What separates -/

/-- Text that is skipped in front of the text `rest`. -/
def Skipped (sep rest : List Char) : Prop := ∀ before, tokensFrom before (sep ++ rest) = tokensFrom (before ++ sep) rest

theorem skipped_gap {covers rest : List Char} (h : Stands ⟨covers, .gap⟩ rest) : Skipped covers rest :=
  fun before => tokensFrom_of_stands h before

theorem skipped_newline (rest : List Char) : Skipped ['\n'] rest := skipped_gap (.blank (by decide))

theorem Skipped.append {sep more rest : List Char} (h : Skipped sep (more ++ rest)) (hmore : Skipped more rest) :
    Skipped (sep ++ more) rest := by
  intro before
  rw [List.append_assoc, h, hmore, List.append_assoc]

theorem throughClose_body {body : List Char} (h : ¬['*', '/'] <:+: body) :
    throughClose (body ++ ['*', '/']) = some (body ++ ['*', '/']) := by
  induction body with
  | nil => rfl
  | cons c body ih =>
    rw [List.cons_append, throughClose.eq_3, ih fun hin => h (List.infix_cons hin)]
    · rfl
    · intro ds hstar hslash
      cases body with
      | nil => cases hslash
      | cons d body =>
        obtain ⟨rfl, -⟩ := List.cons.inj hslash
        subst hstar
        exact h (List.prefix_append ['*', '/'] body).isInfix

theorem skipped_block {body : List Char} (h : ¬['*', '/'] <:+: body) (rest : List Char) :
    Skipped ('/' :: '*' :: (body ++ ['*', '/'])) rest :=
  skipped_gap (.block (throughClose_body h))

theorem skipped_line {body : List Char} (h : '\n' ∉ body) (rest : List Char) :
    Skipped ('/' :: '/' :: (body ++ ['\n'])) rest := by
  have hline : Skipped ('/' :: '/' :: body) (['\n'] ++ rest) :=
    skipped_gap (.line h (head?_newline rest))
  exact hline.append (skipped_newline rest)

/-! ## A text behind another -/

/-- Tokens in front of what is read of a text behind the text `front`. -/
def readBehind (ts : List Token) (front text : String) : Except Error (List Token) :=
  (allBehind front.utf8ByteSize (front.toList.count '\n') (SourceUnit.tokenize text)).map (ts ++ ·)

/-- Behind a row and what is skipped a text is read as on its own. -/
theorem Row.restart {a sep b : String} {es : List Element} (h : Row es (sep.toList ++ b.toList))
    (ha : a.toList = covered es) (hsep : Skipped sep.toList b.toList) :
    SourceUnit.tokenize (a ++ sep ++ b) = readBehind (rowTokens [] es) (a ++ sep) b := by
  have hbehind := tokensFrom_behind (a ++ sep).toList [] b.toList
  rw [List.append_nil, ← utf8ByteSize_eq_byteLength] at hbehind
  rw [readBehind, tokenize_eq_tokensFrom, tokenize_eq_tokensFrom, ← hbehind, String.toList_append,
    String.toList_append, ha, List.append_assoc, tokensFrom_row h, hsep, List.nil_append]

/-- The text is empty, ends its line, or ends with a token that is no slash. -/
def TakesComment (a : String) (ts : List Token) : Prop :=
  a = "" ∨ a.toList.getLast? = some '\n' ∨
    ∃ t, ts.getLast? = some t ∧ t.span.stop = a.utf8ByteSize ∧ t.kind ≠ .symbol .slash

theorem TakesComment.last {a : String} {es : List Element} (h : TakesComment a (rowTokens [] es))
    (ha : a.toList = covered es) (hrow : Row es []) {e : Element} (he : e ∈ es.getLast?) :
    e.covers.getLast? = some '\n' ∨ ∃ k text, e.content = .token k text ∧ k ≠ .symbol .slash := by
  obtain ⟨front, rfl⟩ := List.getLast?_eq_some_iff.mp he
  have hne : e.covers ≠ [] := by
    cases (row_append.mp hrow).2 with
    | cons _ hstands _ => exact covers_ne_nil_of_stands hstands
  have ha : a.toList = covered front ++ e.covers := by rw [ha, covered_append, covered_cons, covered_nil, List.append_nil]
  rcases h with rfl | hend | ⟨t, ht, hstop, hkind⟩
  · exact absurd (List.append_eq_nil_iff.mp ha.symm).2 hne
  · rw [ha, List.getLast?_append_of_ne_nil _ hne] at hend
    exact .inl hend
  · right
    rw [rowTokens_append, rowTokens, rowTokens, List.append_nil] at ht
    cases hcontent : e.content with
    | token k text =>
      rw [Element.tokens, hcontent, List.getLast?_concat] at ht
      cases ht
      exact ⟨k, text, rfl, hkind⟩
    | gap | fault =>
      -- The last token would end in front of the element.
      rw [Element.tokens, hcontent, List.append_nil] at ht
      have hle := stop_le_of_mem_rowTokens (List.mem_of_getLast? ht)
      have hpos := byteLength_pos hne
      rw [hstop, utf8ByteSize_eq_byteLength, ha, byteLength_append, List.nil_append] at hle
      omega

/-- A line feed between two texts: the first is read as it is, and the second as on its own, at its
    places behind the first. Comments between them do the same behind a text that takes one. -/
theorem tokenize_separated (a b : String) (ts : List Token) (h : SourceUnit.tokenize a = .ok ts) :
    SourceUnit.tokenize (a ++ "\n" ++ b) = readBehind ts (a ++ "\n") b ∧
      (TakesComment a ts →
        (∀ c : String, ¬['*', '/'] <:+: c.toList →
          SourceUnit.tokenize (a ++ ("/*" ++ c ++ "*/") ++ b) = readBehind ts (a ++ ("/*" ++ c ++ "*/")) b) ∧
        ∀ c : String, '\n' ∉ c.toList →
          SourceUnit.tokenize (a ++ ("//" ++ c ++ "\n") ++ b) = readBehind ts (a ++ ("//" ++ c ++ "\n")) b) := by
  rw [tokenize_eq_tokensFrom] at h
  obtain ⟨es, ha, hrow, rfl⟩ := exists_row_of_ok h
  refine ⟨?_, fun htakes => ?_⟩
  · refine Row.restart (hrow.replace fun e _ hsound hstands => ?_) ha (skipped_newline _)
    exact hstands.before_newline (hsound _) _
  · have hslash (other : List Char) : Row es ('/' :: other) := hrow.replace fun e he hsound hstands =>
      hstands.before_slash hsound (htakes.last ha hrow he) other
    refine ⟨fun c hc => ?_, fun c hc => ?_⟩
    · have hsep : ("/*" ++ c ++ "*/").toList = '/' :: '*' :: (c.toList ++ ['*', '/']) := by simp
      refine Row.restart ?_ ha ?_
      · rw [hsep]
        exact hslash _
      · rw [hsep]
        exact skipped_block hc _
    · have hsep : ("//" ++ c ++ "\n").toList = '/' :: '/' :: (c.toList ++ ['\n']) := by simp
      refine Row.restart ?_ ha ?_
      · rw [hsep]
        exact hslash _
      · rw [hsep]
        exact skipped_line hc _

/-- Names with a comment of two lines between them, and a comment of one line in front of a fault. -/
theorem tokenize_separated_names :
    let a := "let \u00e9"
    let ts : List Token := [⟨.keyword .letKw, "let", ⟨0, 3⟩, 1⟩, ⟨.identifier, "\u00e9", ⟨4, 6⟩, 1⟩]
    let block := "*\n\"/*"
    let line := " \"/* */"
    SourceUnit.tokenize a = .ok ts ∧ TakesComment a ts ∧ ¬['*', '/'] <:+: block.toList ∧ '\n' ∉ line.toList ∧
      SourceUnit.tokenize (a ++ ("/*" ++ block ++ "*/") ++ "b") = .ok (ts ++ [⟨.identifier, "b", ⟨15, 16⟩, 2⟩]) ∧
      SourceUnit.tokenize (a ++ ("//" ++ line ++ "\n") ++ "1b") =
        .error (.lexical ⟨16, 18⟩ 2 "1b" "identifier cannot start with a digit") := by
  intro a ts block line
  have h : SourceUnit.tokenize a = .ok ts := by decide +kernel
  have htakes : TakesComment a ts := .inr (.inr ⟨_, rfl, by decide +kernel, by decide⟩)
  have hblock : ¬['*', '/'] <:+: block.toList := by decide
  have hline : '\n' ∉ line.toList := by decide
  obtain ⟨-, hcomments⟩ := tokenize_separated a "b" ts h
  obtain ⟨-, hcomments'⟩ := tokenize_separated a "1b" ts h
  refine ⟨h, htakes, hblock, hline, ?_, ?_⟩
  · rw [(hcomments htakes).1 block hblock]
    decide +kernel
  · rw [(hcomments' htakes).2 line hline]
    decide +kernel

end JackAnalyzer.Token
