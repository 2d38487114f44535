/-
  JackAnalyzer.Proofs.Token.Rows — a text as a row of elements. Which element stands in front of
  a text depends on what it covers and little behind it, so a row can be cut off behind any
  of its elements, and other text put there that its last element does not join with. That text
  is read as if it began there.
  - `nextElement_of_stands`, `exists_stands`: the elements of a text, told without reading it.
  - `exists_row`: a text is a row of elements, up to its end or its first fault.
  - `tokensFrom_row`: what is read from a row and the text behind it.
-/

import JackAnalyzer.Proofs.Token.Lossless

namespace JackAnalyzer.Token

open Text

def Element.Sound (e : Element) : Prop := ∀ detail, e.content ≠ .fault detail

/-- The element stands in front of the text `rest`. -/
inductive Stands : Element → List Char → Prop
  | line {body rest : List Char} : '\n' ∉ body → (∀ c ∈ rest.head?, c = '\n') → Stands ⟨'/' :: '/' :: body, .gap⟩ rest
  | block {body rest : List Char} : throughClose body = some body → Stands ⟨'/' :: '*' :: body, .gap⟩ rest
  | openBlock {rest : List Char} : throughClose rest = none →
      Stands ⟨['/', '*'], .fault LexicalCause.openComment.detail⟩ rest
  | string {text rest : List Char} : (∀ c ∈ text, isStringChar c = true) →
      Stands ⟨'"' :: text ++ ['"'], .token .stringConstant text⟩ rest
  /-- The carriage returns at the end of the line do not belong to it. -/
  | openString {text returns rest : List Char} : (∀ c ∈ text, isStringChar c = true) → text.getLast? ≠ some '\r' →
      (∀ c ∈ returns, c = '\r') → (∀ c ∈ rest.head?, c = '\n') →
      Stands ⟨'"' :: text, .fault LexicalCause.openString.detail⟩ (returns ++ rest)
  | blank {c : Char} {rest : List Char} : isBlank c = true → Stands ⟨[c], .gap⟩ rest
  | symbol {s : Symbol} {rest : List Char} : (s = .slash → rest.head? ≠ some '/' ∧ rest.head? ≠ some '*') →
      Stands ⟨[s.char], .token (.symbol s) [s.char]⟩ rest
  | word {k : Kind} {w rest : List Char} : w ≠ [] → (∀ c ∈ w, isWordChar c = true) →
      (∀ c ∈ rest.head?, isWordChar c = false) → classify (String.ofList w) = .ok k → Stands ⟨w, .token k w⟩ rest
  | wrongWord {cause : LexicalCause} {w rest : List Char} : w ≠ [] → (∀ c ∈ w, isWordChar c = true) →
      (∀ c ∈ rest.head?, isWordChar c = false) → classify (String.ofList w) = .error cause →
      Stands ⟨w, .fault cause.detail⟩ rest

/-! ## The element in front of a text -/

theorem throughClose_front {cs through : List Char} (h : throughClose cs = some through) (front : List Char) :
    throughClose (through ++ front) = some through := by
  induction cs using throughClose.induct generalizing through with
  | case1 => cases h
  | case2 cs =>
    cases h
    rfl
  | case3 c cs hclose ih =>
    rw [throughClose.eq_3 c cs hclose] at h
    obtain ⟨later, hlater, rfl⟩ := Option.map_eq_some_iff.mp h
    obtain ⟨body, rest, hbody, hcs, -⟩ := throughClose_eq_some hlater
    rw [List.cons_append, throughClose.eq_3, ih hlater]
    · rfl
    · -- A slash in front of the cut is one of the whole text.
      intro ds hstar hslash
      obtain ⟨d, later, rfl⟩ := List.exists_cons_of_ne_nil (l := later) (by simp [hbody])
      cases hslash
      exact hclose _ hstar hcs

theorem nextElement_wordElement {w rest : List Char} (hne : w ≠ []) (hw : ∀ c ∈ w, isWordChar c = true)
    (hrest : ∀ c ∈ rest.head?, isWordChar c = false) : nextElement (w ++ rest) = wordElement w := by
  have htake := takeWhile_append_stop hw hrest
  obtain ⟨c, cs, rfl⟩ := List.exists_cons_of_ne_nil hne
  rw [List.cons_append] at htake ⊢
  rw [nextElement_word (hw c List.mem_cons_self), htake]

theorem stringElement_open {text returns rest : List Char} (htext : ∀ c ∈ text, isStringChar c = true)
    (hlast : text.getLast? ≠ some '\r') (hreturns : ∀ c ∈ returns, c = '\r') (hrest : ∀ c ∈ rest.head?, c = '\n') :
    stringElement (text ++ (returns ++ rest)) = ⟨'"' :: text, .fault LexicalCause.openString.detail⟩ := by
  have hchars : ∀ c ∈ text ++ returns, isStringChar c = true := by
    intro c hc
    rcases List.mem_append.mp hc with hc | hc
    · exact htext c hc
    · rw [hreturns c hc]
      decide
  have hstop : ∀ c ∈ rest.head?, isStringChar c = false := by
    intro c hc
    rw [hrest c hc]
    decide
  have hquote : rest.head? ≠ some '"' := fun hq => absurd (hrest _ hq) (by decide)
  have hdrop : (text ++ returns).rdropWhile (· = '\r') = text := by
    unfold List.rdropWhile
    rw [List.reverse_append, dropWhile_append_stop, List.reverse_reverse]
    · intro c hc
      simpa using hreturns c (List.mem_reverse.mp hc)
    · intro c hc
      rw [List.head?_reverse] at hc
      have hne : c ≠ '\r' := fun hr => hlast (hr ▸ hc)
      simpa using hne
  unfold stringElement
  rw [← List.append_assoc, takeWhile_append_stop hchars hstop, dropWhile_append_stop hchars hstop]
  dsimp only
  rw [if_neg hquote, hdrop]
  rfl

theorem covers_ne_nil_of_stands {e : Element} {rest : List Char} (h : Stands e rest) : e.covers ≠ [] := by
  cases h with
  | word hne | wrongWord hne => exact hne
  | _ => exact List.cons_ne_nil _ _

theorem nextElement_of_stands {e : Element} {rest : List Char} (h : Stands e rest) :
    nextElement (e.covers ++ rest) = e := by
  cases h with
  | line hbody hrest =>
    have hchars : ∀ c ∈ _, (decide (c ≠ '\n')) = true := fun c hc => by
      simp only [decide_eq_true_eq]
      exact fun hn => hbody (hn ▸ hc)
    have hstop : ∀ c ∈ rest.head?, (decide (c ≠ '\n')) = false := fun c hc => by simp [hrest c hc]
    show (⟨'/' :: '/' :: (_ ++ rest).takeWhile _, .gap⟩ : Element) = _
    rw [takeWhile_append_stop hchars hstop]
  | block hclose =>
    rw [List.cons_append, List.cons_append, nextElement, throughClose_front hclose]
  | openBlock hopen =>
    show nextElement ('/' :: '*' :: rest) = _
    rw [nextElement, hopen]
    rfl
  | string htext =>
    show nextElement ('"' :: (_ ++ ['"']) ++ rest) = _
    rw [List.cons_append, List.append_assoc, List.singleton_append]
    exact stringElement_closed htext rest
  | openString htext hlast hreturns hrest => exact stringElement_open htext hlast hreturns hrest
  | blank hb => exact nextElement_blank hb
  | symbol hslash =>
    refine nextElement_symbol (Symbol.ofChar?_char _) fun hc => hslash ?_
    revert hc
    cases ‹Symbol› <;> decide
  | word hne hw hrest hclass =>
    rw [nextElement_wordElement hne hw hrest, wordElement, hclass]
  | wrongWord hne hw hrest hclass =>
    rw [nextElement_wordElement hne hw hrest, wordElement, hclass]

theorem head?_dropWhile_stop {p : Char → Bool} (cs : List Char) : ∀ c ∈ (cs.dropWhile p).head?, p c = false :=
  stop_of_takeWhile_append List.takeWhile_append_dropWhile.symm

theorem exists_stands_string (cs : List Char) : ∃ rest, '"' :: cs = (stringElement cs).covers ++ rest ∧
    Stands (stringElement cs) rest := by
  have htext : ∀ c ∈ cs.takeWhile isStringChar, isStringChar c = true := fun c hc => List.mem_takeWhile_imp hc
  have hcs : cs.takeWhile isStringChar ++ cs.dropWhile isStringChar = cs := List.takeWhile_append_dropWhile
  unfold stringElement
  dsimp only
  split
  · rename_i hquote
    obtain ⟨rest, hrest⟩ := List.head?_eq_some_iff.mp hquote
    rw [hrest] at hcs
    refine ⟨rest, ?_, .string htext⟩
    conv => lhs; rw [← hcs]
    simp
  · rename_i hquote
    have hsplit : (cs.takeWhile isStringChar).rdropWhile (· = '\r') ++ (cs.takeWhile isStringChar).rtakeWhile (· = '\r') =
        cs.takeWhile isStringChar := List.rdropWhile_append_rtakeWhile
    refine ⟨(cs.takeWhile isStringChar).rtakeWhile (· = '\r') ++ cs.dropWhile isStringChar, ?_, .openString ?_ ?_ ?_ ?_⟩
    · rw [List.cons_append, ← List.append_assoc, hsplit, hcs]
    · exact fun c hc => htext c ((List.rdropWhile_prefix _ _).mem hc)
    · intro hlast
      unfold List.rdropWhile at hlast
      rw [List.getLast?_reverse] at hlast
      cases head?_dropWhile_stop _ _ hlast
    · exact fun c hc => by simpa using List.mem_rtakeWhile_imp hc
    · intro c hc
      have hstop := head?_dropWhile_stop cs c hc
      have hq : c ≠ '"' := fun hq => hquote (hq ▸ hc)
      simpa [isStringChar, hq] using hstop

/-- In front of a text stands its next element. -/
theorem exists_stands {cs : List Char} (hne : cs ≠ []) :
    ∃ rest, cs = (nextElement cs).covers ++ rest ∧ Stands (nextElement cs) rest := by
  fun_cases nextElement cs with
  | case1 => exact absurd rfl hne
  | case2 cs =>
    refine ⟨cs.dropWhile (· ≠ '\n'), ?_, .line (fun hn => ?_) fun c hc => ?_⟩
    · simp
    · simpa using List.mem_takeWhile_imp hn
    · simpa using head?_dropWhile_stop cs c hc
  | case3 cs body hclose =>
    obtain ⟨_, rest, -, rfl, -⟩ := throughClose_eq_some hclose
    have hself := throughClose_front hclose []
    rw [List.append_nil] at hself
    exact ⟨rest, rfl, .block hself⟩
  | case4 cs hopen => exact ⟨cs, rfl, .openBlock hopen⟩
  | case5 cs => exact exists_stands_string cs
  | case6 c cs _ _ _ hb => exact ⟨cs, rfl, .blank hb⟩
  | case7 c cs hline hblock _ _ s hs =>
    obtain rfl := Symbol.ofChar?_eq_some_iff.mp hs
    refine ⟨cs, rfl, .symbol fun hslash => ⟨fun hd => ?_, fun hd => ?_⟩⟩
    · obtain ⟨ds, rfl⟩ := List.head?_eq_some_iff.mp hd
      exact hline _ (by rw [hslash]; rfl) rfl
    · obtain ⟨ds, rfl⟩ := List.head?_eq_some_iff.mp hd
      exact hblock _ (by rw [hslash]; rfl) rfl
  | case8 c cs _ _ hq hb hs =>
    have hword := isWordChar_of_none (by simpa using hb) hq hs
    have hwne : (c :: cs).takeWhile isWordChar ≠ [] := by simp [hword]
    have hw : ∀ d ∈ (c :: cs).takeWhile isWordChar, isWordChar d = true := fun d hd => List.mem_takeWhile_imp hd
    refine ⟨(c :: cs).dropWhile isWordChar, ?_, ?_⟩
    · rw [covers_wordElement, List.takeWhile_append_dropWhile]
    · unfold wordElement
      split
      · rename_i hclass
        exact .word hwne hw (head?_dropWhile_stop _) hclass
      · rename_i hclass
        exact .wrongWord hwne hw (head?_dropWhile_stop _) hclass

theorem tokensFrom_of_stands {e : Element} {rest : List Char} (h : Stands e rest) (before : List Char) :
    tokensFrom before (e.covers ++ rest) = e.followedBy (before.count '\n' + 1) (byteLength before)
      (tokensFrom (before ++ e.covers) rest) := by
  have hnext := nextElement_of_stands h
  cases hcs : e.covers ++ rest with
  | nil => exact absurd (List.append_eq_nil_iff.mp hcs).1 (covers_ne_nil_of_stands h)
  | cons c cs => rw [tokensFrom, ← hcs, hnext, List.drop_left]

/-! ## What may stand behind an element -/

theorem Stands.of_head? {e : Element} {rest other : List Char} (h : Stands e rest) (hsound : e.Sound)
    (hother : other.head? = none ∨ other.head? = rest.head?) : Stands e other := by
  have hhead : ∀ c ∈ other.head?, c ∈ rest.head? := by
    intro c hc
    rcases hother with hnone | hsame
    · rw [hnone] at hc
      cases hc
    · rwa [← hsame]
  cases h with
  | line hbody hrest => exact .line hbody fun c hc => hrest c (hhead c hc)
  | block hclose => exact .block hclose
  | string htext => exact .string htext
  | blank hb => exact .blank hb
  | symbol hslash => exact .symbol fun hs => ⟨fun hc => (hslash hs).1 (hhead _ hc), fun hc => (hslash hs).2 (hhead _ hc)⟩
  | word hne hw hrest hclass => exact .word hne hw (fun c hc => hrest c (hhead c hc)) hclass
  | openBlock | openString | wrongWord => exact absurd rfl (hsound _)

theorem head?_newline (rest : List Char) : ∀ c ∈ ('\n' :: rest).head?, c = '\n' := fun _ hc => (Option.some.inj hc).symm

/-- A line feed joins with no element, but it does not close a comment. -/
theorem Stands.before_newline {e : Element} {rest : List Char} (h : Stands e rest)
    (hopen : e.content ≠ .fault LexicalCause.openComment.detail) (other : List Char) : Stands e ('\n' :: other) := by
  have hword : ∀ c ∈ ('\n' :: other).head?, isWordChar c = false := by
    intro c hc
    rw [head?_newline other c hc]
    decide
  cases h with
  | line hbody => exact .line hbody (head?_newline other)
  | block hclose => exact .block hclose
  | openBlock => exact absurd rfl hopen
  | string htext => exact .string htext
  | openString htext hlast =>
    show Stands _ ([] ++ '\n' :: other)
    exact .openString htext hlast (List.forall_mem_nil _) (head?_newline other)
  | blank hb => exact .blank hb
  | symbol => exact .symbol fun _ => ⟨nofun, nofun⟩
  | word hne hw _ hclass => exact .word hne hw hword hclass
  | wrongWord hne hw _ hclass => exact .wrongWord hne hw hword hclass

/-- A slash joins with no line feed, and of the tokens only with a slash. -/
theorem Stands.before_slash {e : Element} {rest : List Char} (h : Stands e rest) (hsound : e.Sound)
    (hend : e.covers.getLast? = some '\n' ∨ ∃ k text, e.content = .token k text ∧ k ≠ .symbol .slash)
    (other : List Char) : Stands e ('/' :: other) := by
  cases h with
  | line hbody =>
    rcases hend with hlast | ⟨k, text, hcontent, -⟩
    · have hmem := List.mem_of_getLast? hlast
      simp [hbody] at hmem
    · cases hcontent
  | block hclose => exact .block hclose
  | string htext => exact .string htext
  | blank hb => exact .blank hb
  | symbol =>
    refine .symbol fun hs => ?_
    subst hs
    rcases hend with hlast | ⟨k, text, hcontent, hk⟩
    · cases hlast
    · cases hcontent
      exact absurd rfl hk
  | word hne hw _ hclass =>
    refine .word hne hw (fun c hc => ?_) hclass
    cases hc
    decide
  | openBlock | openString | wrongWord => exact absurd rfl (hsound _)

/-! ## Rows of elements -/

def covered (es : List Element) : List Char := es.flatMap Element.covers

@[simp] theorem covered_nil : covered [] = [] := rfl

@[simp] theorem covered_cons (e : Element) (es : List Element) : covered (e :: es) = e.covers ++ covered es := rfl

@[simp] theorem covered_append (es fs : List Element) : covered (es ++ fs) = covered es ++ covered fs :=
  List.flatMap_append

/-- No element of the row is a fault, and each of them stands in front of the others and the text
    `rest`. -/
inductive Row : List Element → List Char → Prop
  | nil {rest : List Char} : Row [] rest
  | cons {e : Element} {es : List Element} {rest : List Char} : e.Sound → Stands e (covered es ++ rest) → Row es rest →
      Row (e :: es) rest

/-- The token of an element behind the text `before`, if it has one. -/
def Element.tokens (before : List Char) (e : Element) : List Token :=
  match e.content with
  | .token kind text =>
    [⟨kind, String.ofList text, ⟨byteLength before, byteLength (before ++ e.covers)⟩, before.count '\n' + 1⟩]
  | _ => []

def rowTokens (before : List Char) : List Element → List Token
  | [] => []
  | e :: es => e.tokens before ++ rowTokens (before ++ e.covers) es

theorem Element.Sound.followedBy {e : Element} (h : e.Sound) (before : List Char) (later : Except Error (List Token)) :
    e.followedBy (before.count '\n' + 1) (byteLength before) later = later.map (e.tokens before ++ ·) := by
  unfold Element.followedBy Element.tokens
  cases hcontent : e.content with
  | gap => cases later <;> rfl
  | token kind text =>
    rw [byteLength_append]
    rfl
  | fault detail => exact absurd hcontent (h detail)

theorem Element.followedBy_move {move : Except Error (List Token) → Except Error (List Token)} {f : Token → Token}
    {g : Error → Error} {line line' shift : Nat} (hok : ∀ ts, move (.ok ts) = .ok (ts.map f))
    (herror : ∀ e, move (.error e) = .error (g e))
    (hf : ∀ kind text span, f ⟨kind, text, span, line⟩ = ⟨kind, text, span.shift shift, line'⟩)
    (hg : ∀ span lexeme detail, g (.lexical span line lexeme detail) = .lexical (span.shift shift) line' lexeme detail)
    (e : Element) (pos : Nat) (later : Except Error (List Token)) :
    e.followedBy line' (pos + shift) (move later) = move (e.followedBy line pos later) := by
  have hspan : (⟨pos + shift, pos + shift + byteLength e.covers⟩ : Span) =
      Span.shift shift ⟨pos, pos + byteLength e.covers⟩ := by
    simp only [Span.shift, Span.mk.injEq, true_and]
    omega
  unfold Element.followedBy
  dsimp only
  rw [hspan]
  cases e.content with
  | gap => rfl
  | token kind text =>
    cases later with
    | error e => simp only [Except.map, herror]
    | ok ts => simp only [Except.map, hok, List.map_cons, hf]
  | fault detail => rw [herror, hg]

/-- From a row and the text behind it the tokens of the row are read, and then those of the text. -/
theorem tokensFrom_row {es : List Element} {rest : List Char} (h : Row es rest) : ∀ before,
    tokensFrom before (covered es ++ rest) = (tokensFrom (before ++ covered es) rest).map (rowTokens before es ++ ·) := by
  induction h with
  | @nil rest =>
    intro before
    rw [covered_nil, List.nil_append, List.append_nil]
    cases tokensFrom before rest <;> rfl
  | @cons e es rest hsound hstands _ ih =>
    intro before
    rw [covered_cons, List.append_assoc, tokensFrom_of_stands hstands, hsound.followedBy, ih, ← List.append_assoc]
    cases tokensFrom (before ++ e.covers ++ covered es) rest with
    | error f => rfl
    | ok ts => exact congrArg Except.ok (List.append_assoc ..).symm

theorem tokensFrom_row_end {es : List Element} (h : Row es []) (before : List Char) :
    tokensFrom before (covered es) = .ok (rowTokens before es) := by
  have hread := tokensFrom_row h before
  rw [List.append_nil, tokensFrom] at hread
  exact hread.trans (congrArg Except.ok (List.append_nil _))

theorem row_append {es fs : List Element} {rest : List Char} :
    Row (es ++ fs) rest ↔ Row es (covered fs ++ rest) ∧ Row fs rest := by
  induction es with
  | nil => exact ⟨fun h => ⟨.nil, h⟩, fun h => h.2⟩
  | cons e es ih =>
    rw [List.cons_append]
    constructor
    · intro h
      cases h with
      | cons hsound hstands hrow =>
        obtain ⟨hes, hfs⟩ := ih.mp hrow
        rw [covered_append, List.append_assoc] at hstands
        exact ⟨.cons hsound hstands hes, hfs⟩
    · rintro ⟨hes, hfs⟩
      cases hes with
      | cons hsound hstands hrow =>
        rw [← List.append_assoc, ← covered_append] at hstands
        exact .cons hsound hstands (ih.mpr ⟨hrow, hfs⟩)

theorem rowTokens_append (es fs : List Element) : ∀ before,
    rowTokens before (es ++ fs) = rowTokens before es ++ rowTokens (before ++ covered es) fs := by
  induction es with
  | nil => simp [rowTokens]
  | cons e es ih =>
    intro before
    rw [List.cons_append, rowTokens, ih, rowTokens, covered_cons, ← List.append_assoc, ← List.append_assoc before]

theorem Element.place_of_mem_tokens {e : Element} {before : List Char} {t : Token} (h : t ∈ e.tokens before) :
    t.span = ⟨byteLength before, byteLength (before ++ e.covers)⟩ ∧ t.line = before.count '\n' + 1 := by
  unfold Element.tokens at h
  split at h
  · rw [List.mem_singleton.mp h]
    exact ⟨rfl, rfl⟩
  · cases h

/-- A token of a row is that of an element, and the tokens on its two sides are those of the
    elements there. -/
theorem rowTokens_eq_append_cons {es : List Element} {ts us : List Token} {u : Token} {before : List Char}
    (h : rowTokens before es = ts ++ u :: us) : ∃ front e back, es = front ++ e :: back ∧
      rowTokens before front = ts ∧ e.tokens (before ++ covered front) = [u] ∧
        rowTokens (before ++ covered front ++ e.covers) back = us := by
  induction es generalizing before ts with
  | nil => simp [rowTokens] at h
  | cons e es ih =>
    -- In a longer row the tokens of `e` are the first of those in front of `u`.
    have hlonger {ss : List Token} (hts : e.tokens before ++ ss = ts)
        (hss : rowTokens (before ++ e.covers) es = ss ++ u :: us) : ∃ front f back, e :: es = front ++ f :: back ∧
          rowTokens before front = ts ∧ f.tokens (before ++ covered front) = [u] ∧
            rowTokens (before ++ covered front ++ f.covers) back = us := by
      obtain ⟨front, f, back, rfl, hfront, hf, hback⟩ := ih hss
      rw [List.append_assoc before] at hf hback
      exact ⟨e :: front, f, back, rfl, by rw [rowTokens, hfront, hts], hf, hback⟩
    rw [rowTokens] at h
    cases htokens : e.tokens before with
    | nil => exact hlonger (by rw [htokens]; rfl) (by rwa [htokens] at h)
    | cons t more =>
      obtain rfl : more = [] := by
        unfold Element.tokens at htokens
        split at htokens <;> cases htokens
        rfl
      rw [htokens, List.singleton_append] at h
      cases ts with
      | nil =>
        obtain ⟨rfl, rfl⟩ := List.cons.inj h
        exact ⟨[], e, es, rfl, rfl, by simpa using htokens, by simp⟩
      | cons s ts =>
        obtain ⟨rfl, hlater⟩ := List.cons.inj h
        exact hlonger (by rw [htokens]; rfl) hlater

theorem stop_le_of_mem_rowTokens {es : List Element} {t : Token} : ∀ {before}, t ∈ rowTokens before es →
    t.span.stop ≤ byteLength (before ++ covered es) := by
  induction es with
  | nil =>
    intro before ht
    cases ht
  | cons e es ih =>
    intro before ht
    rw [covered_cons, ← List.append_assoc]
    rcases List.mem_append.mp ht with ht | ht
    · rw [(Element.place_of_mem_tokens ht).1, byteLength_append (before ++ e.covers)]
      exact Nat.le_add_right _ _
    · exact ih ht

/-- Other text may stand behind a row where it may stand behind its last element. -/
theorem Row.replace {es : List Element} {rest other : List Char} (h : Row es rest)
    (hlast : ∀ e ∈ es.getLast?, e.Sound → Stands e rest → Stands e other) : Row es other := by
  induction h with
  | nil => exact .nil
  | @cons e es rest hsound hstands hrow ih =>
    cases es with
    | nil => exact .cons hsound (hlast e rfl hsound hstands) .nil
    | cons f es =>
      refine .cons hsound (hstands.of_head? hsound (.inr ?_)) (ih fun g hg => hlast g (by rwa [List.getLast?_cons_cons]))
      cases hrow with
      | cons _ hf _ =>
        have hne := covers_ne_nil_of_stands hf
        rw [covered_cons, List.append_assoc, List.append_assoc, List.head?_append_of_ne_nil _ hne,
          List.head?_append_of_ne_nil _ hne]

theorem Row.of_head? {es : List Element} {rest other : List Char} (h : Row es rest)
    (hother : other.head? = none ∨ other.head? = rest.head?) : Row es other :=
  h.replace fun _ _ hsound hstands => hstands.of_head? hsound hother

/-- A text is a row of elements up to its end or up to its first fault. -/
theorem exists_row (cs : List Char) : ∃ es rest, cs = covered es ++ rest ∧ Row es rest ∧
    (rest = [] ∨ ∃ f detail more, f.content = .fault detail ∧ rest = f.covers ++ more ∧ Stands f more) := by
  induction hn : cs.length using Nat.strong_induction_on generalizing cs with
  | _ n ih =>
    subst hn
    by_cases hne : cs = []
    · exact ⟨[], [], by simp [hne], .nil, .inl rfl⟩
    · obtain ⟨more, hcs, hstands⟩ := exists_stands hne
      generalize nextElement cs = e at hcs hstands
      subst hcs
      cases hcontent : e.content with
      | fault detail => exact ⟨[], _, rfl, .nil, .inr ⟨e, detail, more, hcontent, rfl, hstands⟩⟩
      | gap | token =>
        have hpos := List.length_pos_iff.mpr (covers_ne_nil_of_stands hstands)
        obtain ⟨es, rest, rfl, hrow, hrest⟩ := ih more.length (by rw [List.length_append]; omega) more rfl
        exact ⟨e :: es, rest, by simp, .cons (by simp [Element.Sound, hcontent]) hstands hrow, hrest⟩

def Element.error (before : List Char) (e : Element) (detail : String) : Error :=
  .lexical ⟨byteLength before, byteLength (before ++ e.covers)⟩ (before.count '\n' + 1) (String.ofList e.covers) detail

theorem tokensFrom_row_fault {es : List Element} {f : Element} {detail : String} {more : List Char}
    (h : Row es (f.covers ++ more)) (hf : Stands f more) (hcontent : f.content = .fault detail) (before : List Char) :
    tokensFrom before (covered es ++ (f.covers ++ more)) = .error (f.error (before ++ covered es) detail) := by
  rw [tokensFrom_row h, tokensFrom_of_stands hf, Element.followedBy, hcontent, ← byteLength_append]
  rfl

theorem exists_row_of_ok {cs : List Char} {ts : List Token} (h : tokensFrom [] cs = .ok ts) :
    ∃ es, cs = covered es ∧ Row es [] ∧ ts = rowTokens [] es := by
  obtain ⟨es, rest, rfl, hrow, rfl | ⟨f, detail, more, hcontent, rfl, hf⟩⟩ := exists_row cs
  · rw [List.append_nil, tokensFrom_row_end hrow] at h
    cases h
    exact ⟨es, List.append_nil _, hrow, rfl⟩
  · rw [tokensFrom_row_fault hrow hf hcontent] at h
    cases h

theorem exists_row_of_error {cs : List Char} {e : Error} (h : tokensFrom [] cs = .error e) :
    ∃ es f detail more, cs = covered es ++ (f.covers ++ more) ∧ Row es (f.covers ++ more) ∧ Stands f more ∧
      f.content = .fault detail ∧ e = f.error (covered es) detail := by
  obtain ⟨es, rest, rfl, hrow, rfl | ⟨f, detail, more, hcontent, rfl, hf⟩⟩ := exists_row cs
  · rw [List.append_nil, tokensFrom_row_end hrow] at h
    cases h
  · rw [tokensFrom_row_fault hrow hf hcontent] at h
    cases h
    exact ⟨es, f, detail, more, rfl, hrow, hf, hcontent, rfl⟩

end JackAnalyzer.Token
