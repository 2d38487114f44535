/-
  JackAnalyzer.Proofs.Token.Lossless — nothing of a text is lost by cutting it into tokens. In
  the bytes of the text, each token stands at its span as it is written, on its line; what is
  left before, between and behind the tokens is blanks and comments; and all of it, one behind
  the other, is the text again.
  - `covered_of_tokensFrom`: how the tokens lie in the characters of the text.
  - `tokenize_lossless`: how they lie in its bytes.
-/

import JackAnalyzer.Proofs.Token.Printing

namespace JackAnalyzer.Token

open Text

/-! ## Gaps -/

/-- Text in front of `rest` that holds no token. A comment of two slashes goes up to the end of
    its line; one of a slash and a star goes through the first star and slash behind these. -/
inductive Gap (rest : List Char) : List Char → Prop
  | nil : Gap rest []
  | blank {c : Char} {cs : List Char} : isBlank c = true → Gap rest cs → Gap rest (c :: cs)
  | line {body cs : List Char} : '\n' ∉ body → (∀ c ∈ (cs ++ rest).head?, c = '\n') → Gap rest cs →
      Gap rest ('/' :: '/' :: (body ++ cs))
  | block {body cs : List Char} : ¬['*', '/'] <:+: body ++ ['*'] → Gap rest cs →
      Gap rest ('/' :: '*' :: (body ++ '*' :: '/' :: cs))

/-- What is kept through the first star and slash ends with them and has none before. -/
theorem throughClose_eq_some {cs through : List Char} (h : throughClose cs = some through) :
    ∃ body rest, through = body ++ ['*', '/'] ∧ cs = through ++ rest ∧ ¬['*', '/'] <:+: body ++ ['*'] := by
  induction cs using throughClose.induct generalizing through with
  | case1 => cases h
  | case2 cs =>
    cases h
    refine ⟨[], cs, rfl, rfl, fun hin => ?_⟩
    have := hin.length_le
    simp at this
  | case3 c cs hclose ih =>
    rw [throughClose.eq_3 c cs hclose] at h
    obtain ⟨through', hthrough, rfl⟩ := Option.map_eq_some_iff.mp h
    obtain ⟨body, rest, rfl, rfl, hno⟩ := ih hthrough
    refine ⟨c :: body, rest, rfl, rfl, fun hin => ?_⟩
    rcases List.infix_cons_iff.mp hin with hpre | hin
    · -- A slash right behind this star would have closed the comment here.
      obtain ⟨hstar, hslash⟩ := List.cons_prefix_cons.mp hpre
      cases body with
      | nil =>
        obtain ⟨heq, -⟩ := List.cons_prefix_cons.mp hslash
        cases heq
      | cons d body =>
        obtain ⟨heq, -⟩ := List.cons_prefix_cons.mp hslash
        subst heq
        exact hclose _ hstar.symm rfl
    · exact hno hin

theorem stop_of_takeWhile_append {p : Char → Bool} {cs rest : List Char} (h : cs = cs.takeWhile p ++ rest) :
    ∀ c ∈ rest.head?, p c = false := by
  intro c hc
  conv at h => lhs; rw [← List.takeWhile_append_dropWhile (p := p) (l := cs)]
  have hstop := List.head?_dropWhile_not p cs
  rw [List.append_cancel_left h, Option.mem_def.mp hc] at hstop
  simpa using hstop

theorem gap_of_nextElement {cs gap rest : List Char} (hcontent : (nextElement cs).content = .gap)
    (hcs : cs = (nextElement cs).covers ++ (gap ++ rest)) (h : Gap rest gap) :
    Gap rest ((nextElement cs).covers ++ gap) := by
  revert hcontent hcs
  fun_cases nextElement cs with
  | case1 => exact fun _ _ => h
  | case2 cs =>
    intro _ hcs
    have htake : cs = cs.takeWhile (· ≠ '\n') ++ (gap ++ rest) := by simpa using hcs
    refine .line (fun hn => ?_) (fun c hc => ?_) h
    · simpa using List.mem_takeWhile_imp hn
    · simpa using stop_of_takeWhile_append htake c hc
  | case3 cs through hthrough =>
    intro _ _
    obtain ⟨body, _, rfl, -, hno⟩ := throughClose_eq_some hthrough
    have hblock := Gap.block hno h
    simpa using hblock
  | case6 c cs _ _ _ hb => exact fun _ _ => .blank hb h
  | case5 cs =>
    intro hcontent
    unfold stringElement at hcontent
    dsimp only at hcontent
    split at hcontent <;> cases hcontent
  | case8 c cs =>
    intro hcontent
    unfold wordElement at hcontent
    split at hcontent <;> cases hcontent
  | case4 | case7 =>
    intro hcontent
    cases hcontent

/-! ## Lexemes -/

theorem kind_ne_stringConstant_of_classify {cs : List Char} (hne : cs ≠ []) (hw : ∀ c ∈ cs, isWordChar c = true)
    {k : Kind} (h : classify (String.ofList cs) = .ok k) : k ≠ .stringConstant := by
  have hne' : String.ofList cs ≠ "" := by
    rw [Ne, ← String.toList_eq_nil_iff, String.toList_ofList]
    exact hne
  have hword := (admits_of_classify hne' (by rw [String.toList_ofList]; exact hw) h).1
  intro hk
  subst hk
  cases hword

/-- What an element with a token covers is the token as it is written. -/
theorem covers_eq_lexeme {cs : List Char} {k : Kind} {text : List Char} (span : Span) (line : Nat)
    (h : (nextElement cs).content = .token k text) :
    (nextElement cs).covers = lexeme ⟨k, String.ofList text, span, line⟩ := by
  revert h
  fun_cases nextElement cs with
  | case5 cs =>
    unfold stringElement
    dsimp only
    split
    · intro h
      cases h
      simp [lexeme]
    · intro h
      cases h
  | case7 c cs _ _ _ _ s hs =>
    intro h
    cases h
    simp [lexeme]
  | case8 c cs _ _ hq hb hs =>
    have hword := isWordChar_of_none (by simpa using hb) hq hs
    unfold wordElement
    split
    · rename_i hclass
      intro h
      cases h
      have hk := kind_ne_stringConstant_of_classify (by simp [hword]) (fun d hd => List.mem_takeWhile_imp hd) hclass
      cases k with
      | stringConstant => exact absurd rfl hk
      | _ => simp [lexeme]
    · intro h
      cases h
  | _ =>
    intro h
    cases h

/-- An element that is not wrong covers what the text begins with. -/
theorem covers_nextElement_append {cs : List Char} (h : ∀ detail, (nextElement cs).content ≠ .fault detail) :
    (nextElement cs).covers ++ cs.drop (nextElement cs).covers.length = cs := by
  suffices hpre : (nextElement cs).covers <+: cs by
    obtain ⟨rest, hrest⟩ := hpre
    have hdrop : cs.drop (nextElement cs).covers.length = rest := by
      generalize (nextElement cs).covers = covers at hrest
      rw [← hrest, List.drop_left]
    rw [hdrop, hrest]
  revert h
  fun_cases nextElement cs with
  | case1 => exact fun _ => List.prefix_rfl
  | case2 cs =>
    intro _
    have hline := List.takeWhile_prefix (l := cs) (· ≠ '\n')
    exact (List.prefix_append_right_inj ['/', '/']).mpr hline
  | case3 cs through hthrough =>
    intro _
    obtain ⟨_, rest, -, rfl, -⟩ := throughClose_eq_some hthrough
    exact ⟨rest, rfl⟩
  | case5 cs =>
    unfold stringElement
    dsimp only
    split
    · rename_i hquote
      intro _
      obtain ⟨rest, hrest⟩ := List.head?_eq_some_iff.mp hquote
      refine ⟨rest, ?_⟩
      conv => rhs; rw [← List.takeWhile_append_dropWhile (p := isStringChar) (l := cs), hrest]
      simp
    · intro h
      exact absurd rfl (h _)
  | case8 c cs =>
    intro _
    rw [covers_wordElement]
    exact List.takeWhile_prefix _
  | case4 =>
    intro h
    exact absurd rfl (h _)
  | _ => exact fun _ => List.prefix_append [_] _

/-! ## Tokens in a text -/

/-- The tokens of the text `ahead`, behind the text `before`: each token stands as it is written
    behind a gap, at the offsets and on the line of its place, and a gap ends the text. -/
inductive Covered : List Char → List Char → List Token → Prop
  | last {before gap : List Char} : Gap [] gap → Covered before gap []
  | token {before gap rest : List Char} {t : Token} {ts : List Token} : Gap (t.lexeme ++ rest) gap → t.lexeme ≠ [] →
      t.span = ⟨byteLength (before ++ gap), byteLength (before ++ gap ++ t.lexeme)⟩ →
      t.line = (before ++ gap).count '\n' + 1 → Covered (before ++ gap ++ t.lexeme) rest ts →
      Covered before (gap ++ (t.lexeme ++ rest)) (t :: ts)

theorem Covered.cons_gap {before more ahead : List Char} {ts : List Token} (h : Covered (before ++ more) ahead ts)
    (hgap : ∀ gap rest, ahead = gap ++ rest → Gap rest gap → Gap rest (more ++ gap)) :
    Covered before (more ++ ahead) ts := by
  cases h with
  | last hlast => exact .last (hgap _ [] (List.append_nil _).symm hlast)
  | token hfirst hne hspan hline hlater =>
    rw [← List.append_assoc]
    refine .token (hgap _ _ rfl hfirst) hne ?_ ?_ ?_
    · rw [hspan, List.append_assoc]
    · rw [hline, List.append_assoc]
    · rw [← List.append_assoc before]
      exact hlater

/-- The tokens that are read lie in the text that they are read from. -/
theorem covered_of_tokensFrom (before ahead : List Char) : ∀ {ts}, tokensFrom before ahead = .ok ts →
    Covered before ahead ts := by
  fun_induction tokensFrom before ahead with
  | case1 before =>
    intro ts h
    cases h
    exact .last .nil
  | case2 before c cs e =>
    rename_i ih
    intro ts h
    have hsplit : (∀ detail, e.content ≠ .fault detail) → e.covers ++ (c :: cs).drop e.covers.length = c :: cs :=
      covers_nextElement_append
    rcases Element.followedBy_eq_ok h with ⟨hcontent, hlater⟩ | ⟨k, text, us, hcontent, hlater, rfl⟩
    · have hsplit := hsplit (by simp [hcontent])
      have hcov := (ih hlater).cons_gap fun gap rest hahead hgap =>
        gap_of_nextElement hcontent (by rw [← hahead]; exact hsplit.symm) hgap
      rwa [hsplit] at hcov
    · let t : Token := ⟨k, String.ofList text, ⟨byteLength before, byteLength before + byteLength e.covers⟩,
        before.count '\n' + 1⟩
      have hlexeme : e.covers = t.lexeme := covers_eq_lexeme t.span t.line hcontent
      have hcov : Covered before ([] ++ (t.lexeme ++ (c :: cs).drop e.covers.length)) (t :: us) := by
        refine .token .nil ?_ ?_ ?_ ?_
        · rw [← hlexeme]
          exact covers_nextElement_ne_nil c cs
        · rw [List.append_nil, ← hlexeme, byteLength_append]
        · rw [List.append_nil]
        · rw [List.append_nil, ← hlexeme]
          exact ih hlater
      rw [← hlexeme, List.nil_append, hsplit (by simp [hcontent])] at hcov
      exact hcov

theorem Covered.exists_append {before ahead : List Char} {ts : List Token} (h : Covered before ahead ts) :
    ∀ t ∈ ts, ∃ pre post, before ++ ahead = pre ++ t.lexeme ++ post ∧ t.lexeme ≠ [] ∧
      t.span = ⟨byteLength pre, byteLength (pre ++ t.lexeme)⟩ ∧ t.line = pre.count '\n' + 1 ∧
      byteLength before ≤ byteLength pre := by
  induction h with
  | last hgap =>
    intro t ht
    cases ht
  | @token before gap rest t ts hgap hne hspan hline hlater ih =>
    intro u hu
    rcases List.mem_cons.mp hu with rfl | hu
    · refine ⟨before ++ gap, rest, by simp, hne, hspan, hline, ?_⟩
      rw [byteLength_append]
      omega
    · obtain ⟨pre, post, heq, hne', hspan', hline', hle⟩ := ih u hu
      refine ⟨pre, post, ?_, hne', hspan', hline', ?_⟩
      · rw [← heq]
        simp
      · simp only [byteLength_append] at hle
        omega

theorem Covered.pairwise {before ahead : List Char} {ts : List Token} (h : Covered before ahead ts) :
    ts.Pairwise fun t u => t.span.stop ≤ u.span.start := by
  induction h with
  | last hgap => exact .nil
  | @token before gap rest t ts hgap hne hspan hline hlater ih =>
    refine List.pairwise_cons.mpr ⟨fun u hu => ?_, ih⟩
    obtain ⟨pre, _, -, -, hspan', -, hle⟩ := hlater.exists_append u hu
    rw [hspan, hspan']
    exact hle

/-- The spans that tokens leave between two offsets: before the first, between two, behind the last. -/
def gapSpans (start stop : Nat) : List Token → List Span
  | [] => [⟨start, stop⟩]
  | t :: ts => ⟨start, t.span.start⟩ :: gapSpans t.span.stop stop ts

theorem Covered.exists_gap {before ahead : List Char} {ts : List Token} (h : Covered before ahead ts) :
    ∀ g ∈ gapSpans (byteLength before) (byteLength (before ++ ahead)) ts, ∃ pre gap rest,
      before ++ ahead = pre ++ gap ++ rest ∧ Gap rest gap ∧ g = ⟨byteLength pre, byteLength (pre ++ gap)⟩ := by
  induction h with
  | @last before gap hgap =>
    intro g hg
    obtain rfl := List.mem_singleton.mp hg
    exact ⟨before, gap, [], by simp, hgap, rfl⟩
  | @token before gap rest t ts hgap hne hspan hline hlater ih =>
    intro g hg
    rcases List.mem_cons.mp hg with rfl | hg
    · exact ⟨before, gap, t.lexeme ++ rest, by simp, hgap, by rw [hspan]⟩
    · have heq : before ++ (gap ++ (t.lexeme ++ rest)) = before ++ gap ++ t.lexeme ++ rest := by simp
      rw [heq]
      rw [hspan, heq] at hg
      exact ih g hg

/-! ## The bytes of a text -/

def bytes (cs : List Char) : ByteArray := (String.ofList cs).toByteArray

def bytesAt (source : String) (span : Span) : ByteArray := source.toByteArray.extract span.start span.stop

theorem bytes_eq_utf8Encode (cs : List Char) : bytes cs = cs.utf8Encode := String.toByteArray_ofList

theorem bytes_toList (source : String) : bytes source.toList = source.toByteArray := by
  rw [bytes, String.ofList_toList]

theorem bytes_append (cs ds : List Char) : bytes (cs ++ ds) = bytes cs ++ bytes ds := by
  rw [bytes, String.ofList_append, String.toByteArray_append]
  rfl

theorem size_bytes (cs : List Char) : (bytes cs).size = byteLength cs := by
  rw [bytes_eq_utf8Encode]
  induction cs with
  | nil => rfl
  | cons c cs ih =>
    rw [List.utf8Encode_cons, ByteArray.size_append, ih, List.utf8Encode_singleton, List.size_toByteArray,
      String.length_utf8EncodeChar, byteLength_cons]

theorem byteLength_pos {cs : List Char} (h : cs ≠ []) : 0 < byteLength cs := by
  cases cs with
  | nil => exact absurd rfl h
  | cons c cs =>
    have := c.utf8Size_pos
    rw [byteLength_cons]
    omega

theorem utf8ByteSize_eq_byteLength (source : String) : source.utf8ByteSize = byteLength source.toList := by
  rw [← String.size_toByteArray, ← bytes_toList, size_bytes]

theorem bytesAt_eq {source : String} {pre part : List Char} (post : List Char)
    (h : source.toList = pre ++ part ++ post) :
    bytesAt source ⟨byteLength pre, byteLength (pre ++ part)⟩ = bytes part := by
  have hstop : byteLength (pre ++ part) = (bytes pre).size + (bytes part).size := by
    rw [byteLength_append, size_bytes, size_bytes]
  have hbytes : source.toByteArray = bytes pre ++ (bytes part ++ bytes post) := by
    rw [← bytes_toList, h, List.append_assoc, bytes_append, bytes_append]
  have hskip := ByteArray.extract_append_size_add (a := bytes pre) (b := bytes part ++ bytes post) (i := 0)
    (j := (bytes part).size)
  rw [Nat.add_zero] at hskip
  unfold bytesAt
  rw [hbytes, hstop, ← size_bytes pre, hskip]
  exact ByteArray.extract_append_eq_left rfl

theorem isValid_byteLength {source : String} {pre post : List Char} (h : source.toList = pre ++ post) :
    (String.Pos.Raw.mk (byteLength pre)).IsValid source := by
  refine String.Pos.Raw.isValid_iff_exists_append.mpr ⟨String.ofList pre, String.ofList post, ?_, ?_⟩
  · rw [← String.ofList_append, ← h, String.ofList_toList]
  · rw [String.rawEndPos, utf8ByteSize_eq_byteLength, String.toList_ofList]

theorem eq_newline_of_ofNat {n : Nat} (hn : n < 256) (h : '\n'.toUInt8 = UInt8.ofNat n) : n = 10 := by
  have hnat := congrArg UInt8.toNat h
  rw [UInt8.toNat_ofNat', Nat.mod_eq_of_lt hn] at hnat
  exact hnat.symm

theorem newline_notMem_utf8EncodeChar {c : Char} (hc : c ≠ '\n') : '\n'.toUInt8 ∉ String.utf8EncodeChar c := by
  intro h
  have hval : c.val.toNat ≠ 10 := fun hval => hc (Char.toNat_inj.mp hval)
  have hother : ∀ n, n < 256 → n ≠ 10 → '\n'.toUInt8 ≠ UInt8.ofNat n :=
    fun n hn hne h => hne (eq_newline_of_ofNat hn h)
  unfold String.utf8EncodeChar at h
  dsimp only at h
  -- The one byte of a character below 128 is its number, and the bytes of any other are above 127.
  split at h
  · exact hother _ (by omega) hval (List.mem_singleton.mp h)
  · split at h
    · simp only [List.mem_cons, List.not_mem_nil, or_false] at h
      rcases h with h | h <;> exact hother _ (by omega) (by omega) h
    · split at h
      · simp only [List.mem_cons, List.not_mem_nil, or_false] at h
        rcases h with h | h | h <;> exact hother _ (by omega) (by omega) h
      · simp only [List.mem_cons, List.not_mem_nil, or_false] at h
        rcases h with h | h | h | h <;> exact hother _ (by omega) (by omega) h

theorem count_newline_bytes (cs : List Char) : (bytes cs).data.toList.count '\n'.toUInt8 = cs.count '\n' := by
  rw [bytes_eq_utf8Encode, List.utf8Encode, List.toList_data_toByteArray]
  induction cs with
  | nil => rfl
  | cons c cs ih =>
    rw [List.flatMap_cons, List.count_append, ih]
    by_cases hc : c = '\n'
    · subst hc
      have hone : (String.utf8EncodeChar '\n').count '\n'.toUInt8 = 1 := by decide
      rw [List.count_cons_self, hone, Nat.add_comm]
    · rw [List.count_cons_of_ne hc, List.count_eq_zero.mpr (newline_notMem_utf8EncodeChar hc), Nat.zero_add]

/-! ## Nothing is lost -/

/-- The bytes from an offset on, put together: the gaps as they stand in the text, the tokens as
    they are written. -/
def restored (source : String) (start : Nat) : List Token → ByteArray
  | [] => bytesAt source ⟨start, source.utf8ByteSize⟩
  | t :: ts => bytesAt source ⟨start, t.span.start⟩ ++ bytes t.lexeme ++ restored source t.span.stop ts

/-- How the tokens of a text lie in its bytes. -/
structure Lossless (source : String) (ts : List Token) : Prop where
  /-- A span is not empty, lies within the text and cuts no character. -/
  spans : ∀ t ∈ ts, t.span.start < t.span.stop ∧ t.span.stop ≤ source.utf8ByteSize ∧
    (String.Pos.Raw.mk t.span.start).IsValid source ∧ (String.Pos.Raw.mk t.span.stop).IsValid source
  /-- The length of a span leads from its start to its end. -/
  lengths : ∀ t ∈ ts, t.span.start + t.span.length = t.span.stop
  /-- Each token begins behind the end of those before it. -/
  ordered : ts.Pairwise fun t u => t.span.start < u.span.start ∧ t.span.stop ≤ u.span.start
  /-- A token's span holds the token as it is written, a string constant with its quotes. -/
  lexemes : ∀ t ∈ ts, bytesAt source t.span = bytes t.lexeme
  /-- Lines count from 1, by the line feeds before the token. -/
  lines : ∀ t ∈ ts, t.line = 1 + (bytesAt source ⟨0, t.span.start⟩).data.toList.count '\n'.toUInt8
  /-- Blanks and comments stand before the first token, between two and behind the last. -/
  gaps : ∀ g ∈ gapSpans 0 source.utf8ByteSize ts, ∃ gap rest, Gap rest gap ∧ bytesAt source g = bytes gap ∧
    bytesAt source ⟨g.stop, source.utf8ByteSize⟩ = bytes rest
  /-- The gaps and the tokens are the text. -/
  whole : restored source 0 ts = source.toByteArray

/-- What is put together behind a part of the text is the rest of it. -/
theorem Covered.restored {source : String} {before ahead : List Char} {ts : List Token} (h : Covered before ahead ts)
    (hsource : source.toList = before ++ ahead) : restored source (byteLength before) ts = bytes ahead := by
  induction h with
  | @last before gap hgap =>
    rw [Token.restored, utf8ByteSize_eq_byteLength, hsource]
    exact bytesAt_eq [] (by rw [hsource, List.append_nil])
  | @token before gap rest t ts hgap hne hspan hline hlater ih =>
    rw [Token.restored, hspan]
    dsimp only
    rw [bytesAt_eq (t.lexeme ++ rest) (by rw [hsource, List.append_assoc]), ih (by rw [hsource]; simp),
      bytes_append, bytes_append, ByteArray.append_assoc]

/-- The tokens of a text lie in it without loss. -/
theorem tokenize_lossless (source : String) (ts : List Token) (h : SourceUnit.tokenize source = .ok ts) :
    Lossless source ts := by
  rw [tokenize_eq_tokensFrom] at h
  have hcov := covered_of_tokensFrom [] source.toList h
  have hsize := utf8ByteSize_eq_byteLength source
  have hspans : ∀ t ∈ ts, t.span.start < t.span.stop ∧ t.span.stop ≤ source.utf8ByteSize ∧
      (String.Pos.Raw.mk t.span.start).IsValid source ∧ (String.Pos.Raw.mk t.span.stop).IsValid source := by
    intro t ht
    obtain ⟨pre, post, hsource, hne, hspan, -, -⟩ := hcov.exists_append t ht
    have hpos : 0 < byteLength t.lexeme := byteLength_pos hne
    rw [List.nil_append] at hsource
    rw [hspan, hsize, hsource]
    refine ⟨?_, ?_, isValid_byteLength (by rw [hsource, List.append_assoc]), isValid_byteLength hsource⟩
    · simp only [byteLength_append]
      omega
    · simp only [byteLength_append]
      omega
  refine { spans := hspans, lengths := fun t ht => ?_, ordered := ?_, lexemes := fun t ht => ?_, lines := fun t ht => ?_,
           gaps := fun g hg => ?_, whole := ?_ }
  · have := (hspans t ht).1
    unfold Span.length
    omega
  · refine hcov.pairwise.imp_of_mem fun {t u} ht _ hle => ⟨?_, hle⟩
    have := (hspans t ht).1
    omega
  · obtain ⟨pre, post, hsource, -, hspan, -, -⟩ := hcov.exists_append t ht
    rw [hspan]
    exact bytesAt_eq post hsource
  · obtain ⟨pre, post, hsource, -, hspan, hline, -⟩ := hcov.exists_append t ht
    have hbefore : bytesAt source ⟨byteLength [], byteLength ([] ++ pre)⟩ = bytes pre :=
      bytesAt_eq (t.lexeme ++ post) (by rw [← List.append_assoc]; exact hsource)
    rw [hline, hspan]
    dsimp only
    rw [show (0 : Nat) = byteLength [] from rfl, show byteLength pre = byteLength ([] ++ pre) from rfl, hbefore,
      count_newline_bytes, Nat.add_comm]
  · rw [hsize] at hg ⊢
    obtain ⟨pre, gap, rest, hsource, hgap, rfl⟩ := hcov.exists_gap g hg
    rw [List.nil_append] at hsource
    refine ⟨gap, rest, hgap, bytesAt_eq rest hsource, ?_⟩
    dsimp only
    rw [hsource]
    exact bytesAt_eq [] (by rw [hsource, List.append_nil])
  · rw [← bytes_toList]
    exact hcov.restored rfl

/-- Two tokens behind a comment of two lines, with characters of more than one byte. -/
theorem tokenize_lossless_second_line :
    let source := "/*\u00e9\n*/do \"\u00fc\"// x"
    let ts : List Token := [⟨.keyword .doKw, "do", ⟨7, 9⟩, 2⟩, ⟨.stringConstant, "\u00fc", ⟨10, 14⟩, 2⟩]
    SourceUnit.tokenize source = .ok ts ∧ Lossless source ts := by
  intro source ts
  have h : SourceUnit.tokenize source = .ok ts := by decide +kernel
  exact ⟨h, tokenize_lossless source ts h⟩

end JackAnalyzer.Token
