/-
  JackAnalyzer.Proofs.Token.WholeText — reading line by line gives the tokens of the whole
  text. A scan that stands within a line goes on through the rest of that line and the lines
  behind it; seen so, an open comment goes past a line feed, a string constant ends in front
  of one, and code takes one as it takes a blank.
  - `report_code`: what the scan of a text reports, behind any other text.
  - `tokenize_eq_wholeTokens`: the two readings agree, on tokens and on faults.
-/

import JackAnalyzer.SourceUnit
import JackAnalyzer.Proofs.Token.Elements

namespace JackAnalyzer.Token

open Text

/-! ## Lines and bytes -/

def firstLine (cs : List Char) : List Char := (lines cs).headD []

def laterLines (cs : List Char) : List (List Char) := (lines cs).tail

@[simp] theorem firstLine_nil : firstLine [] = [] := rfl

@[simp] theorem laterLines_nil : laterLines [] = [] := rfl

@[simp] theorem firstLine_newline (cs : List Char) : firstLine ('\n' :: cs) = ['\n'] := by simp [firstLine, lines]

@[simp] theorem laterLines_newline (cs : List Char) : laterLines ('\n' :: cs) = lines cs := by simp [laterLines, lines]

theorem firstLine_cons {c : Char} (h : c ≠ '\n') (cs : List Char) : firstLine (c :: cs) = c :: firstLine cs := by
  simp only [firstLine, lines, if_neg h]
  cases lines cs <;> rfl

theorem head?_firstLine (cs : List Char) : (firstLine cs).head? = cs.head? := by
  cases cs with
  | nil => rfl
  | cons c cs =>
    by_cases hc : c = '\n'
    · subst hc
      rw [firstLine_newline]
      rfl
    · rw [firstLine_cons hc]
      rfl

theorem laterLines_cons {c : Char} (h : c ≠ '\n') (cs : List Char) : laterLines (c :: cs) = laterLines cs := by
  simp only [laterLines, lines, if_neg h]
  cases lines cs <;> rfl

/-! ## Scans one behind the other -/

namespace Scan

/-- The tokens of a text that ends behind the scan. -/
def close (scan : Scan) : Except LexicalFault (List Token) := do
  let (ts, opening) ← scan
  match opening with
  | none => return ts
  | some o => throw ⟨o.span, o.line, "/*", .openComment⟩

@[simp] theorem after_nil (scan : Scan) : Scan.after (.ok []) scan = scan := by
  cases scan <;> rfl

@[simp] theorem after_ok_nil (before : Except LexicalFault (List Token)) (o : Option Opening) :
    Scan.after before (.ok ([], o)) = before.map (·, o) := by
  cases before
  · rfl
  · simp [Scan.after, Except.map, bind, Except.bind, pure, Except.pure]

def thenLines (line pos : Nat) (later : List (List Char)) (scan : Scan) : Scan := do
  let (ts, opening) ← scan
  let (us, opening) ← scanLines line pos opening later
  return (ts ++ us, opening)

theorem thenLines_nil (line pos : Nat) (scan : Scan) : scan.thenLines line pos [] = scan := by
  cases scan
  · rfl
  · simp [thenLines, scanLines, bind, Except.bind, pure, Except.pure]

theorem thenLines_ok_nil (line pos : Nat) (later : List (List Char)) (o : Option Opening) :
    thenLines line pos later (.ok ([], o)) = scanLines line pos o later := by
  simp only [thenLines, bind, Except.bind, pure, Except.pure]
  cases scanLines line pos o later <;> rfl

theorem thenLines_after (line pos : Nat) (later : List (List Char)) (before : Except LexicalFault (List Token))
    (scan : Scan) :
    (Scan.after before scan).thenLines line pos later = .after before (scan.thenLines line pos later) := by
  cases before
  · rfl
  · cases scan with
    | error f => rfl
    | ok r =>
      simp only [thenLines, Scan.after, bind, Except.bind, pure, Except.pure]
      cases scanLines line pos r.2 later <;> simp

end Scan

/-! ## A scan within a line -/

/-- A scan of what is left of a line, and of the lines behind it. -/
def onward (line pos : Nat) (scan : List Char → Scan) (cs : List Char) : Scan :=
  (scan (firstLine cs)).thenLines (line + 1) (pos + byteLength (firstLine cs)) (laterLines cs)

theorem onward_nil (line pos : Nat) (scan : List Char → Scan) : onward line pos scan [] = scan [] := by
  unfold onward
  rw [firstLine_nil, laterLines_nil, Scan.thenLines_nil]

theorem onward_cons {line pos : Nat} {f g : List Char → Scan} {c : Char} {cs : List Char} (hc : c ≠ '\n')
    (h : f (c :: firstLine cs) = g (firstLine cs)) :
    onward line pos f (c :: cs) = onward line (pos + c.utf8Size) g cs := by
  unfold onward
  rw [firstLine_cons hc, laterLines_cons hc, h, byteLength_cons, Nat.add_assoc]

theorem onward_after (line pos : Nat) (before : Except LexicalFault (List Token)) (scan : List Char → Scan)
    (cs : List Char) : onward line pos (fun l => .after before (scan l)) cs = .after before (onward line pos scan cs) :=
  Scan.thenLines_after ..

theorem scanLines_lines (line pos : Nat) (o : Option Opening) (cs : List Char) :
    scanLines line pos o (lines cs) = onward line pos (scanLine line pos o) cs := by
  unfold onward firstLine laterLines
  cases lines cs with
  | nil =>
    show Except.ok ([], o) = Scan.thenLines (line + 1) pos [] (scanLine line pos o [])
    rw [Scan.thenLines_nil]
    cases o <;> rfl
  | cons l ls => rfl

theorem onward_newline {line pos : Nat} {scan : List Char → Scan} {before : Except LexicalFault (List Token)}
    {o : Option Opening} (h : scan ['\n'] = .after before (.ok ([], o))) (cs : List Char) :
    onward line pos scan ('\n' :: cs) =
      .after before (onward (line + 1) (pos + 1) (scanLine (line + 1) (pos + 1) o) cs) := by
  unfold onward
  rw [firstLine_newline, laterLines_newline, h, Scan.thenLines_after]
  congr 1
  rw [Scan.thenLines_ok_nil]
  exact scanLines_lines ..

/-! ## Code within a line -/

/-- Code behind a word that is still open. -/
def code (line pos : Nat) (word : List Char) : List Char → Scan := onward line pos (scanCode line pos word)

@[simp] theorem ofWord_nil (line pos : Nat) : ofWord line pos [] = .ok [] := rfl

theorem scanCode_flush (line pos : Nat) (word : List Char) {l : List Char} (h : ∀ c ∈ l.head?, isWordChar c = false) :
    scanCode line pos word l = .after (ofWord line pos word) (scanCode line pos [] l) := by
  fun_cases scanCode line pos word l with
  | case1 => exact (Scan.after_ok_nil _ none).symm
  | case2 cs => exact (Scan.after_ok_nil _ none).symm
  | case3 cs => simp [scanCode]
  | case4 cs => simp [scanCode]
  | case5 c cs h₁ h₂ hq hb => rw [scanCode.eq_5 line pos [] c cs h₁ h₂ hq, if_pos hb, ofWord_nil, Scan.after_nil]
  | case6 c cs h₁ h₂ hq hb s hs =>
    simp only [scanCode.eq_5 line pos [] c cs h₁ h₂ hq, if_neg hb, hs, ofWord_nil, Scan.after_nil]
  | case7 c cs h₁ h₂ hq hb hs =>
    have hword := isWordChar_of_none (by simpa using hb) hq hs
    rw [h c rfl] at hword
    cases hword

theorem code_flush (line pos : Nat) (word : List Char) {cs : List Char} (h : ∀ c ∈ cs.head?, isWordChar c = false) :
    code line pos word cs = .after (ofWord line pos word) (code line pos [] cs) := by
  unfold code onward
  rw [scanCode_flush line pos word (by rw [head?_firstLine]; exact h), Scan.thenLines_after]

theorem code_word (line : Nat) {w : List Char} (hw : ∀ c ∈ w, isWordChar c = true) :
    ∀ (pos : Nat) (word cs : List Char),
      code line pos word (w ++ cs) = code line (pos + byteLength w) (w.reverse ++ word) cs := by
  induction w with
  | nil => exact fun _ _ _ => rfl
  | cons c w ih =>
    intro pos word cs
    obtain ⟨hb, hq, hs⟩ := isWordChar_iff.mp (hw c (List.mem_cons_self ..))
    obtain ⟨hslash, hnewline⟩ := isWordChar_char (hw c (List.mem_cons_self ..))
    have hcons : ∀ l, scanCode line pos word (c :: l) = scanCode line (pos + c.utf8Size) (c :: word) l := by
      intro l
      rw [scanCode.eq_5 line pos word c l (fun _ h _ => hslash h) (fun _ h _ => hslash h) hq, if_neg (by simp [hb]), hs]
    show onward line pos (scanCode line pos word) (c :: (w ++ cs)) = _
    rw [onward_cons hnewline (hcons _)]
    refine (ih (fun d hd => hw d (List.mem_cons_of_mem _ hd)) _ _ cs).trans ?_
    simp [Nat.add_assoc]

theorem code_nil (line pos : Nat) : code line pos [] [] = .ok ([], none) := by
  unfold code
  rw [onward_nil, scanCode]
  rfl

theorem code_newline (line pos : Nat) (cs : List Char) :
    code line pos [] ('\n' :: cs) = code (line + 1) (pos + 1) [] cs := by
  refine (onward_newline (o := none) ?_ cs).trans (Scan.after_nil _)
  rw [scanCode, if_pos (by decide), scanCode]
  · rfl
  · exact fun _ h => by cases h
  · exact fun _ h => by cases h
  · exact fun h => by cases h

theorem code_blank (line pos : Nat) {c : Char} (hc : isBlank c = true) (cs : List Char) :
    code line pos [] (c :: cs) = code (line + [c].count '\n') (pos + c.utf8Size) [] cs := by
  by_cases hn : c = '\n'
  · subst hn
    exact code_newline line pos cs
  · obtain ⟨hslash, hq⟩ := isBlank_char hc
    have hcons : ∀ l, scanCode line pos [] (c :: l) = scanCode line (pos + c.utf8Size) [] l := by
      intro l
      rw [scanCode.eq_5 line pos [] c l (fun _ h _ => hslash h) (fun _ h _ => hslash h) hq, if_pos hc]
      exact Scan.after_nil _
    rw [List.count_cons_of_ne hn]
    exact onward_cons hn (hcons _)

/-- A comment of two slashes ends in front of the line feed. -/
theorem code_slashes (line pos : Nat) (cs : List Char) : code line pos [] ('/' :: '/' :: cs) =
    code line (pos + 2 + byteLength (cs.takeWhile (· ≠ '\n'))) [] (cs.dropWhile (· ≠ '\n')) := by
  -- The scan of the line ends at the slashes; the lines behind it are reached over what is skipped.
  have skip : ∀ (cs : List Char) (pos : Nat),
      scanLines (line + 1) (pos + byteLength (firstLine cs)) none (laterLines cs) =
        code line (pos + byteLength (cs.takeWhile (· ≠ '\n'))) [] (cs.dropWhile (· ≠ '\n')) := by
    intro cs
    induction cs with
    | nil => exact fun pos => (code_nil _ _).symm
    | cons c cs ih =>
      intro pos
      by_cases hc : c = '\n'
      · subst hc
        rw [firstLine_newline, laterLines_newline, scanLines_lines]
        exact (code_newline line pos cs).symm
      · rw [firstLine_cons hc, laterLines_cons hc, List.takeWhile_cons_of_pos (by simpa using hc),
          List.dropWhile_cons_of_pos (by simpa using hc), byteLength_cons, byteLength_cons, ← Nat.add_assoc,
          ← Nat.add_assoc]
        exact ih _
  rw [← skip cs, ← Scan.thenLines_ok_nil]
  unfold code onward
  rw [firstLine_cons (by decide), firstLine_cons (by decide), laterLines_cons (by decide), laterLines_cons (by decide),
    scanCode]
  simp only [byteLength_cons, ← Nat.add_assoc]
  rfl

theorem code_symbol (line pos : Nat) {c : Char} {s : Symbol} (hs : Symbol.ofChar? c = some s) {cs : List Char}
    (h : c = '/' → cs.head? ≠ some '/' ∧ cs.head? ≠ some '*') :
    code line pos [] (c :: cs) =
      .after (.ok [⟨.symbol s, s.text, ⟨pos, pos + c.utf8Size⟩, line⟩]) (code line (pos + c.utf8Size) [] cs) := by
  obtain ⟨hb, hq, hn⟩ := symbol_char hs
  rw [← head?_firstLine] at h
  refine (onward_cons hn ?_).trans (onward_after ..)
  rw [scanCode.eq_5, if_neg (by simp [hb]), hs]
  · exact Scan.after_nil _
  · exact fun l hc hl => (h hc).1 (by rw [hl]; rfl)
  · exact fun l hc hl => (h hc).2 (by rw [hl]; rfl)
  · exact hq

/-! ## Comments -/

def comment (line pos : Nat) (opening : Opening) : List Char → Scan := onward line pos (scanComment line pos opening)

/-- An open comment goes on through its end, past any line feed. -/
theorem comment_eq (opening : Opening) (cs : List Char) : ∀ line pos : Nat, comment line pos opening cs =
    match throughClose cs with
    | some body => code (line + body.count '\n') (pos + byteLength body) [] (cs.drop body.length)
    | none => .ok ([], some opening) := by
  fun_induction throughClose cs with
  | case1 =>
    intro line pos
    unfold comment
    rw [onward_nil, scanComment]
  | case2 cs =>
    intro line pos
    unfold comment
    rw [onward_cons (g := fun l => scanComment line pos opening ('*' :: l)) (by decide) rfl,
      onward_cons (g := scanCode line (pos + 2) []) (by decide) rfl]
    rfl
  | case3 c cs h ih =>
    intro line pos
    -- One character of the comment, a line feed as well, leaves it open.
    have hmove : comment line pos opening (c :: cs) =
        comment (line + [c].count '\n') (pos + c.utf8Size) opening cs := by
      by_cases hc : c = '\n'
      · subst hc
        exact (onward_newline (o := some opening) rfl cs).trans (Scan.after_nil _)
      · rw [List.count_cons_of_ne hc]
        refine onward_cons hc (scanComment.eq_3 line pos opening c _ fun l hstar hl => ?_)
        have hhead := head?_firstLine cs
        rw [hl] at hhead
        cases cs with
        | nil => cases hhead
        | cons d ds =>
          cases hhead
          exact h ds hstar rfl
    rw [hmove, ih]
    cases throughClose cs with
    | none => rfl
    | some body =>
      simp only [Option.map_some, byteLength_cons, List.count_cons, List.length_cons, List.drop_succ_cons]
      congr 1
      · simp
        omega
      · omega

theorem code_opening (line pos : Nat) (cs : List Char) :
    code line pos [] ('/' :: '*' :: cs) = comment line (pos + 2) ⟨⟨pos, pos + 2⟩, line⟩ cs := by
  unfold code comment
  rw [onward_cons (g := fun l => scanCode line pos [] ('/' :: l)) (by decide) rfl,
    onward_cons (g := scanComment line (pos + 2) ⟨⟨pos, pos + 2⟩, line⟩) (by decide) (Scan.after_nil _)]
  rfl

/-! ## String constants -/

def string (line pos start : Nat) (text : List Char) : List Char → Scan :=
  onward line pos (scanString line pos start text)

theorem code_quote (line pos : Nat) (cs : List Char) : code line pos [] ('"' :: cs) = string line (pos + 1) pos [] cs :=
  onward_cons (by decide) (Scan.after_nil _)

theorem openStringFault_newline (line start : Nat) (text : List Char) :
    openStringFault line start ('\n' :: text) = openStringFault line start text := by
  simp [openStringFault]

/-- A string constant ends at a quote of its own line or is wrong. -/
theorem string_eq (line start : Nat) (cs : List Char) : ∀ (pos : Nat) (text : List Char),
    string line pos start text cs =
      let more := cs.takeWhile isStringChar
      if (cs.dropWhile isStringChar).head? = some '"' then
        .after (.ok [⟨.stringConstant, String.ofList (text.reverse ++ more), ⟨start, pos + byteLength more + 1⟩, line⟩])
          (code line (pos + byteLength more + 1) [] (cs.dropWhile isStringChar).tail)
      else .error (openStringFault line start (more.reverse ++ text)) := by
  induction cs with
  | nil =>
    intro pos text
    unfold string
    rw [onward_nil]
    rfl
  | cons c cs ih =>
    intro pos text
    by_cases hc : isStringChar c = true
    · obtain ⟨hq, hn⟩ : c ≠ '"' ∧ c ≠ '\n' := by simpa [isStringChar] using hc
      have hmove : string line pos start text (c :: cs) = string line (pos + c.utf8Size) start (c :: text) cs :=
        onward_cons hn (scanString.eq_3 line pos start text c _ hq)
      rw [hmove, ih]
      simp [hc, Nat.add_assoc]
    · rw [List.takeWhile_cons_of_neg hc, List.dropWhile_cons_of_neg hc]
      have hcases : c = '"' ∨ c = '\n' := by
        simp [isStringChar] at hc
        tauto
      rcases hcases with rfl | rfl
      · have hclose : string line pos start text ('"' :: cs) = .after
            (.ok [⟨.stringConstant, String.ofList text.reverse, ⟨start, pos + 1⟩, line⟩]) (code line (pos + 1) [] cs) :=
          (onward_cons (by decide) rfl).trans (onward_after ..)
        rw [hclose]
        simp
      · -- The line feed is the last character of its line: the fault is found behind it.
        unfold string onward
        rw [firstLine_newline, scanString.eq_3 line pos start text '\n' [] (by decide), scanString,
          openStringFault_newline]
        rfl

/-! ## The elements of code -/

def Scan.report (scan : Scan) : Except Error (List Token) := scan.close.mapError LexicalFault.toError

theorem Scan.report_after (ts : List Token) (scan : Scan) :
    (Scan.after (.ok ts) scan).report = scan.report.map (ts ++ ·) := by
  cases scan with
  | error f => rfl
  | ok r =>
    obtain ⟨us, o⟩ := r
    cases o <;> rfl

theorem drop_length_takeWhile (p : Char → Bool) (cs : List Char) :
    cs.drop (cs.takeWhile p).length = cs.dropWhile p := by
  have h : (cs.takeWhile p ++ cs.dropWhile p).drop (cs.takeWhile p).length = cs.dropWhile p := List.drop_left
  rwa [List.takeWhile_append_dropWhile] at h

theorem count_newline_takeWhile {p : Char → Bool} (hp : p '\n' = false) (cs : List Char) :
    (cs.takeWhile p).count '\n' = 0 := by
  refine List.count_eq_zero.mpr fun h => ?_
  rw [List.mem_takeWhile_imp h] at hp
  cases hp

/-- The scan passes an element as the grammar says: its line and its offset move by what the
    element covers, and code goes on behind it. -/
def Passed (e : Element) (line pos : Nat) (cs : List Char) : Prop :=
  (code line pos [] cs).report = e.followedBy line pos
    (code (line + e.covers.count '\n') (pos + byteLength e.covers) [] (cs.drop e.covers.length)).report

theorem passed_slashes (line pos : Nat) (cs : List Char) :
    Passed ⟨'/' :: '/' :: cs.takeWhile (· ≠ '\n'), .gap⟩ line pos ('/' :: '/' :: cs) := by
  have hcount : ('/' :: '/' :: cs.takeWhile (· ≠ '\n')).count '\n' = 0 := by
    rw [List.count_cons_of_ne (by decide), List.count_cons_of_ne (by decide)]
    exact count_newline_takeWhile (by decide) cs
  unfold Passed
  rw [code_slashes, ← drop_length_takeWhile, hcount, byteLength_cons, byteLength_cons, ← Nat.add_assoc, ← Nat.add_assoc]
  rfl

theorem passed_comment (line pos : Nat) {cs body : List Char} (h : throughClose cs = some body) :
    Passed ⟨'/' :: '*' :: body, .gap⟩ line pos ('/' :: '*' :: cs) := by
  unfold Passed
  rw [code_opening, comment_eq, h, List.count_cons_of_ne (by decide), List.count_cons_of_ne (by decide),
    byteLength_cons, byteLength_cons, ← Nat.add_assoc, ← Nat.add_assoc]
  rfl

theorem passed_openComment (line pos : Nat) {cs : List Char} (h : throughClose cs = none) :
    Passed ⟨['/', '*'], .fault "unterminated block comment"⟩ line pos ('/' :: '*' :: cs) := by
  unfold Passed
  rw [code_opening, comment_eq, h]
  rfl

/-- The fault of an open string constant holds the rest of its line, carriage returns at its end aside. -/
theorem openStringFault_lexeme {line start : Nat} {text : List Char} (h : '\n' ∉ text) :
    (openStringFault line start text.reverse).toError =
      .lexical ⟨start, start + byteLength ('"' :: text.rdropWhile (· = '\r'))⟩ line
        (String.ofList ('"' :: text.rdropWhile (· = '\r'))) "unterminated string constant" := by
  have hdrop : text.reverse.dropWhile (fun c => c = '\r' || c = '\n') = text.reverse.dropWhile (· = '\r') := by
    have hrev : '\n' ∉ text.reverse := by simpa using h
    generalize text.reverse = l at hrev
    induction l with
    | nil => rfl
    | cons c l ih =>
      have hc : c ≠ '\n' := fun hc => hrev (hc ▸ List.mem_cons_self ..)
      have hl := ih fun hl => hrev (List.mem_cons_of_mem _ hl)
      simp only [List.dropWhile_cons, hc, decide_false, Bool.or_false, hl]
  simp only [openStringFault, hdrop]
  rfl

theorem passed_stringElement (line pos : Nat) (cs : List Char) : Passed (stringElement cs) line pos ('"' :: cs) := by
  have hcount := count_newline_takeWhile (p := isStringChar) (by decide) cs
  unfold Passed stringElement
  rw [code_quote, string_eq]
  dsimp only
  split
  · have hcovers : ('"' :: cs.takeWhile isStringChar ++ ['"']).count '\n' = 0 := by simp [hcount]
    have hbytes : pos + byteLength ('"' :: cs.takeWhile isStringChar ++ ['"']) =
        pos + 1 + byteLength (cs.takeWhile isStringChar) + 1 := by
      simp only [List.cons_append, byteLength_cons, byteLength_append, byteLength_nil]
      show pos + (1 + (_ + (1 + 0))) = _
      omega
    have hdrop : ('"' :: cs).drop ('"' :: cs.takeWhile isStringChar ++ ['"']).length =
        (cs.dropWhile isStringChar).tail := by
      rw [← drop_length_takeWhile, List.tail_drop]
      simp
    rw [Scan.report_after, hcovers, hdrop]
    unfold Element.followedBy
    dsimp only
    rw [hbytes]
    rfl
  · show Except.error (LexicalFault.toError _) = Except.error (Error.lexical ..)
    rw [List.append_nil, openStringFault_lexeme (List.count_eq_zero.mp hcount)]

theorem passed_wordElement (line pos : Nat) {w cs : List Char} (hne : w ≠ []) (hw : ∀ c ∈ w, isWordChar c = true)
    (h : ∀ c ∈ cs.head?, isWordChar c = false) : Passed (wordElement w) line pos (w ++ cs) := by
  have hcount : w.count '\n' = 0 := List.count_eq_zero.mpr fun hn => (isWordChar_char (hw _ hn)).2 rfl
  have hword : ofWord line (pos + byteLength w) w.reverse =
      (ofLexeme (String.ofList w) ⟨pos, pos + byteLength w⟩ line).map ([·]) := by
    simp [ofWord, hne]
  unfold Passed
  rw [code_word line hw, List.append_nil, code_flush line _ _ h, hword, covers_wordElement, hcount, List.drop_left]
  unfold ofLexeme wordElement
  cases classify (String.ofList w) with
  | error cause => rfl
  | ok kind => exact Scan.report_after ..

theorem passed_symbol (line pos : Nat) {c : Char} {s : Symbol} (hs : Symbol.ofChar? c = some s) {cs : List Char}
    (h : c = '/' → cs.head? ≠ some '/' ∧ cs.head? ≠ some '*') :
    Passed ⟨[c], .token (.symbol s) [c]⟩ line pos (c :: cs) := by
  have hcount : [c].count '\n' = 0 := List.count_eq_zero.mpr fun hn =>
    (symbol_char hs).2.2 (List.mem_singleton.mp hn).symm
  unfold Passed
  rw [code_symbol line pos hs h, Scan.report_after, hcount]
  obtain rfl := Symbol.ofChar?_eq_some_iff.mp hs
  rfl

/-- The next element of code is passed as the grammar says. -/
theorem passed_nextElement (line pos : Nat) {cs : List Char} (hne : cs ≠ []) : Passed (nextElement cs) line pos cs := by
  fun_cases nextElement cs with
  | case1 => exact absurd rfl hne
  | case2 cs => exact passed_slashes line pos cs
  | case3 cs body h => exact passed_comment line pos h
  | case4 cs h => exact passed_openComment line pos h
  | case5 cs => exact passed_stringElement line pos cs
  | case6 c cs _ _ _ hb =>
    unfold Passed
    rw [code_blank line pos hb]
    rfl
  | case7 c cs hslash hstar _ _ s hs =>
    have hslashes : c = '/' → cs.head? ≠ some '/' ∧ cs.head? ≠ some '*' := by
      intro hc
      cases cs with
      | nil => simp
      | cons d ds =>
        refine ⟨fun hd => ?_, fun hd => ?_⟩
        · cases hd
          exact hslash ds hc rfl
        · cases hd
          exact hstar ds hc rfl
    exact passed_symbol line pos hs hslashes
  | case8 c cs _ _ hq hb hs =>
    have hword := isWordChar_of_none (by simpa using hb) hq hs
    have hstops : ∀ d ∈ ((c :: cs).dropWhile isWordChar).head?, isWordChar d = false := by
      intro d hd
      have hstop := List.head?_dropWhile_not isWordChar (c :: cs)
      rw [Option.mem_def] at hd
      rwa [hd] at hstop
    have h := passed_wordElement line pos (w := (c :: cs).takeWhile isWordChar) (by simp [hword])
      (fun d hd => List.mem_takeWhile_imp hd) hstops
    rwa [List.takeWhile_append_dropWhile] at h

theorem report_code (ahead before : List Char) :
    (code (before.count '\n' + 1) (byteLength before) [] ahead).report = tokensFrom before ahead := by
  fun_induction tokensFrom before ahead with
  | case1 before =>
    rw [code_nil]
    rfl
  | case2 before c cs e ih =>
    rw [← ih, passed_nextElement _ _ (List.cons_ne_nil c cs), List.count_append, byteLength_append, Nat.add_right_comm]

theorem tokenize_eq_report (source : String) :
    SourceUnit.tokenize source = (code 1 0 [] source.toList).report := by
  have hscan : Token.scan source = (code 1 0 [] source.toList).close := by
    unfold code
    rw [show scanCode 1 0 [] = scanLine 1 0 none from rfl, ← scanLines_lines]
    rfl
  rw [SourceUnit.tokenize, hscan]
  unfold Scan.report
  cases Scan.close _ <;> rfl

theorem tokenize_eq_tokensFrom (source : String) : SourceUnit.tokenize source = tokensFrom [] source.toList := by
  rw [tokenize_eq_report]
  exact report_code source.toList []

theorem tokenize_ofList (cs : List Char) : SourceUnit.tokenize (String.ofList cs) = tokensFrom [] cs := by
  rw [tokenize_eq_tokensFrom, String.toList_ofList]

/-- Reading line by line gives the tokens of the whole text, or its first fault. -/
theorem tokenize_eq_wholeTokens (source : String) : SourceUnit.tokenize source = wholeTokens source :=
  tokenize_eq_tokensFrom source

end JackAnalyzer.Token
