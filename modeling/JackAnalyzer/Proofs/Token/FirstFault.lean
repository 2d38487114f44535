/-
  JackAnalyzer.Proofs.Token.FirstFault — the fault of a text that is not read. It stands at its
  span, and what is in front of it is read. It does not depend on what is behind its line:
  a text that goes on with a line feed behind the fault has the same fault, unless the fault
  is a comment without an end, which later text may close.
  - `tokenize_first_fault`: where the fault stands, and which part of the text makes it one.
-/

import JackAnalyzer.Proofs.Token.Rows

namespace JackAnalyzer

theorem LexicalCause.detail_injective : Function.Injective LexicalCause.detail := by
  intro c d h
  revert h
  cases c <;> cases d <;> decide

namespace Token

open Text

/-- How the fault of a text lies in its bytes. -/
structure FirstFault (source : String) (span : Span) (line : Nat) (lexeme : String) (cause : LexicalCause) : Prop where
  /-- The span is not empty, lies within the text and cuts no character. -/
  inside : span.start < span.stop ∧ span.stop ≤ source.utf8ByteSize ∧
    (String.Pos.Raw.mk span.start).IsValid source ∧ (String.Pos.Raw.mk span.stop).IsValid source
  /-- The span holds the lexeme. -/
  holds : bytesAt source span = lexeme.toByteArray
  /-- Lines count from 1, by the line feeds before the fault. -/
  lines : line = 1 + (bytesAt source ⟨0, span.start⟩).data.toList.count '\n'.toUInt8
  /-- The text in front of the fault is read. -/
  front : ∃ front ts, front.toByteArray = bytesAt source ⟨0, span.start⟩ ∧ SourceUnit.tokenize front = .ok ts
  /-- The text through the fault has it with any lines behind it, unless it is an open comment. -/
  final : cause ≠ .openComment → ∃ through, through.toByteArray = bytesAt source ⟨0, span.stop⟩ ∧
    ∀ more, SourceUnit.tokenize (through ++ "\n" ++ more) = .error (.lexical span line lexeme cause.detail)

theorem exists_cause {f : Element} {rest : List Char} (h : Stands f rest) {detail : String}
    (hcontent : f.content = .fault detail) : ∃ cause : LexicalCause, detail = cause.detail := by
  cases h with
  | openBlock | openString | wrongWord =>
    cases hcontent
    exact ⟨_, rfl⟩
  | _ => cases hcontent

theorem bytesAt_front {source : String} {pre : List Char} (post : List Char) (h : source.toList = pre ++ post) :
    bytesAt source ⟨0, byteLength pre⟩ = bytes pre :=
  @bytesAt_eq source [] pre post h

/-- Where a text is not read its fault is told: the place and the text of the first piece that is
    no element. -/
theorem tokenize_first_fault (source : String) (e : Error) (h : SourceUnit.tokenize source = .error e) :
    ∃ span line lexeme cause, e = .lexical span line lexeme (LexicalCause.detail cause) ∧
      FirstFault source span line lexeme cause := by
  rw [tokenize_eq_tokensFrom] at h
  obtain ⟨es, f, detail, more, hsource, hrow, hf, hcontent, rfl⟩ := exists_row_of_error h
  obtain ⟨cause, rfl⟩ := exists_cause hf hcontent
  have hne := covers_ne_nil_of_stands hf
  have hthrough : source.toList = covered es ++ f.covers ++ more := by rw [hsource, List.append_assoc]
  refine ⟨_, _, _, cause, rfl, ?inside, ?holds, ?lines, ?front, ?final⟩
  case inside =>
    have hpos := byteLength_pos hne
    refine ⟨?_, ?_, isValid_byteLength hsource, isValid_byteLength hthrough⟩
    · simp only [byteLength_append]
      omega
    · rw [utf8ByteSize_eq_byteLength, hthrough]
      simp only [byteLength_append]
      omega
  case holds => exact bytesAt_eq more hthrough
  case lines =>
    rw [bytesAt_front _ hsource, count_newline_bytes, Nat.add_comm]
  case front =>
    refine ⟨String.ofList (covered es), rowTokens [] es, (bytesAt_front _ hsource).symm, ?_⟩
    rw [tokenize_ofList, tokensFrom_row_end (hrow.of_head? (.inl rfl))]
  case final =>
    intro hcause
    refine ⟨String.ofList (covered es ++ f.covers), (bytesAt_front _ hthrough).symm, fun w => ?_⟩
    have hline : Stands f ('\n' :: w.toList) := by
      refine hf.before_newline (fun hopen => hcause (LexicalCause.detail_injective ?_)) _
      exact Content.fault.inj (hcontent.symm.trans hopen)
    have hrow' : Row es (f.covers ++ '\n' :: w.toList) := by
      refine hrow.of_head? (.inr ?_)
      rw [List.head?_append_of_ne_nil _ hne, List.head?_append_of_ne_nil _ hne]
    have hfault := tokensFrom_row_fault hrow' hline hcontent []
    have hchars : (String.ofList (covered es ++ f.covers) ++ "\n" ++ w).toList =
        covered es ++ (f.covers ++ '\n' :: w.toList) := by
      simp
    rw [tokenize_eq_tokensFrom, hchars, hfault]
    rfl

/-- A string constant that its line leaves open, on the second line and in front of a carriage
    return. -/
theorem tokenize_first_fault_open_string :
    let source := "/*\u00e9\n*/let s = \"ab\r\n;"
    let e : Error := .lexical ⟨15, 18⟩ 2 "\"ab" "unterminated string constant"
    SourceUnit.tokenize source = .error e ∧ ∃ span line lexeme cause,
      e = .lexical span line lexeme (LexicalCause.detail cause) ∧ FirstFault source span line lexeme cause := by
  intro source e
  have h : SourceUnit.tokenize source = .error e := by decide +kernel
  exact ⟨h, tokenize_first_fault source e h⟩

end Token

end JackAnalyzer
