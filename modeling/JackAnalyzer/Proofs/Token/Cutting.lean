/-
  JackAnalyzer.Proofs.Token.Cutting — tokens of a part of a text. Where a text stands behind
  another moves the places of its tokens and changes nothing else. A row of elements may be cut
  off behind any of them. So a text that is cut in front of one of its tokens and behind another
  yields the tokens between, moved to the beginning.
  - `tokensFrom_behind`: a text read behind another.
  - `tokensFrom_between`: the tokens of a text from one to another.
-/

import JackAnalyzer.Proofs.Token.Rows

namespace JackAnalyzer

/-! ## Moving a text -/

/-- The token where it stands behind so many bytes and lines. -/
def Token.behind (bytes lines : Nat) (t : Token) : Token :=
  { t with span := t.span.shift bytes, line := t.line + lines }

def Error.behind (bytes lines : Nat) : Error → Error
  | .lexical span line lexeme detail => .lexical (span.shift bytes) (line + lines) lexeme detail
  | .parse span line found detail => .parse (span.shift bytes) (line + lines) found detail
  | e => e

namespace Token

open Text

def allBehind (bytes lines : Nat) : Except Error (List Token) → Except Error (List Token)
  | .ok ts => .ok (ts.map (behind bytes lines))
  | .error e => .error (e.behind bytes lines)

theorem allBehind_eq_ok {bytes lines : Nat} {read : Except Error (List Token)} {ts : List Token}
    (h : allBehind bytes lines read = .ok ts) : ∃ us, read = .ok us ∧ us.map (behind bytes lines) = ts := by
  cases read with
  | error e => cases h
  | ok us =>
    cases h
    exact ⟨us, rfl, rfl⟩

theorem tokensFrom_behind (other before ahead : List Char) : tokensFrom (other ++ before) ahead =
    allBehind (byteLength other) (other.count '\n') (tokensFrom before ahead) := by
  fun_induction tokensFrom before ahead with
  | case1 before =>
    rw [tokensFrom]
    rfl
  | case2 before c cs e =>
    rename_i ih
    have hline : (other ++ before).count '\n' + 1 = before.count '\n' + 1 + other.count '\n' := by
      rw [List.count_append]
      omega
    have hpos : byteLength (other ++ before) = byteLength before + byteLength other := by
      rw [byteLength_append, Nat.add_comm]
    rw [tokensFrom, hline, hpos, List.append_assoc, ih]
    exact Element.followedBy_move (fun _ => rfl) (fun _ => rfl) (fun _ _ _ => rfl) (fun _ _ _ => rfl) ..

/-! ## From one token to another -/

/-- A row of tokens from among those of a text: the part of the text from where the first of them
    begins to where the last of them ends yields these tokens, at places of its own. -/
theorem tokensFrom_between {source : List Char} {ts us vs : List Token} {first last : Token}
    (h : tokensFrom [] source = .ok (ts ++ us ++ vs)) (hfirst : us.head? = some first)
    (hlast : us.getLast? = some last) : ∃ pre part post read, source = pre ++ part ++ post ∧
      first.span.start = byteLength pre ∧ last.span.stop = byteLength (pre ++ part) ∧
      first.line = pre.count '\n' + 1 ∧ tokensFrom [] part = .ok read ∧
      read.map (behind (byteLength pre) (pre.count '\n')) = us := by
  obtain ⟨es, rfl, hrow, htokens⟩ := exists_row_of_ok h
  obtain ⟨us', rfl⟩ := List.head?_eq_some_iff.mp hfirst
  obtain ⟨ys, hys⟩ := List.getLast?_eq_some_iff.mp hlast
  -- The row is cut in front of the element of the first token, and behind that of the last.
  rw [List.append_assoc, List.cons_append] at htokens
  obtain ⟨pre, e, back, rfl, -, he, hback⟩ := rowTokens_eq_append_cons htokens.symm
  rw [List.nil_append] at he hback
  have hbegin := Element.place_of_mem_tokens (by rw [he]; exact List.mem_singleton_self first)
  have hrest : rowTokens (covered pre) (e :: back) = ys ++ last :: vs := by
    rw [rowTokens, he, hback, List.singleton_append, ← List.cons_append, hys, List.append_assoc]
    rfl
  obtain ⟨part, l, post, hcut, hpart, hl, -⟩ := rowTokens_eq_append_cons hrest
  have hend := Element.place_of_mem_tokens (by rw [hl]; exact List.mem_singleton_self last)
  rw [List.append_cons] at hcut
  rw [hcut] at hrow
  have hrow' : Row (part ++ [l]) [] := (row_append.mp (row_append.mp hrow).2).1.of_head? (.inl rfl)
  have hread := tokensFrom_row_end hrow' (covered pre ++ [])
  rw [tokensFrom_behind, List.append_nil, rowTokens_append, hpart, rowTokens, rowTokens, hl, List.append_nil,
    ← hys] at hread
  obtain ⟨read, hread, hmap⟩ := allBehind_eq_ok hread
  refine ⟨covered pre, covered (part ++ [l]), covered post, read, ?_, ?_, ?_, hbegin.2, hread, hmap⟩
  · rw [hcut]
    simp
  · rw [hbegin.1]
  · rw [hend.1]
    simp

end Token

end JackAnalyzer
