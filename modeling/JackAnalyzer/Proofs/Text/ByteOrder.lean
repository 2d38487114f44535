/-
  JackAnalyzer.Proofs.Text.ByteOrder — the order of texts by their characters is that by the bytes
  of their UTF-8. The number of a character is spread over its bytes from the front, and a longer
  row of bytes begins with a greater one.
  - `lex_encodeChar`: two characters are told apart at the first byte in which they differ.
  - `lt_iff_bytesLt`: the two orders.
-/

import Mathlib.Data.List.Lex
import Mathlib.Data.String.Basic

namespace JackAnalyzer.Text

open String (utf8EncodeChar)

/-- The bytes of a text come before those of another, by the first in which they differ. -/
def BytesLt (s t : String) : Prop := List.Lex (· < ·) s.toUTF8.data.toList t.toUTF8.data.toList

section Characters

variable {m n v w : Nat} {x y : List UInt8}

theorem lex_cons_of_lt (hn : n < 256) (h : m < n) : List.Lex (· < ·) (UInt8.ofNat m :: x) (UInt8.ofNat n :: y) := by
  refine .rel (UInt8.lt_iff_toNat_lt.mpr ?_)
  rwa [UInt8.toNat_ofNat_of_lt' (Nat.lt_trans h hn), UInt8.toNat_ofNat_of_lt' hn]

theorem lex_cons_of_le (hn : n < 256) (hle : m ≤ n) (h : m = n → List.Lex (· < ·) x y) :
    List.Lex (· < ·) (UInt8.ofNat m :: x) (UInt8.ofNat n :: y) := by
  rcases Nat.lt_or_eq_of_le hle with hlt | rfl
  · exact lex_cons_of_lt hn hlt
  · exact .cons (h rfl)

/-- The last six bits tell numbers apart that agree in all others. -/
theorem lex_last (h : v < w) (heq : v / 64 = w / 64) :
    List.Lex (· < ·) (UInt8.ofNat (v % 64 + 128) :: x) (UInt8.ofNat (w % 64 + 128) :: y) :=
  lex_cons_of_lt (by omega) (by omega)

theorem lex_last_two (h : v < w) (heq : v / 4096 = w / 4096) :
    List.Lex (· < ·) (UInt8.ofNat (v / 64 % 64 + 128) :: UInt8.ofNat (v % 64 + 128) :: x)
      (UInt8.ofNat (w / 64 % 64 + 128) :: UInt8.ofNat (w % 64 + 128) :: y) :=
  lex_cons_of_le (by omega) (by omega) fun hsame => lex_last h (by omega)

theorem lex_last_three (h : v < w) (heq : v / 262144 = w / 262144) :
    List.Lex (· < ·)
      (UInt8.ofNat (v / 4096 % 64 + 128) :: UInt8.ofNat (v / 64 % 64 + 128) :: UInt8.ofNat (v % 64 + 128) :: x)
      (UInt8.ofNat (w / 4096 % 64 + 128) :: UInt8.ofNat (w / 64 % 64 + 128) :: UInt8.ofNat (w % 64 + 128) :: y) :=
  lex_cons_of_le (by omega) (by omega) fun hsame => lex_last_two h (by omega)

end Characters

/-- A smaller character comes first, whatever stands behind the two. -/
theorem lex_encodeChar {c d : Char} (h : c < d) (x y : List UInt8) :
    List.Lex (· < ·) (utf8EncodeChar c ++ x) (utf8EncodeChar d ++ y) := by
  have hlt : c.val.toNat < d.val.toNat := h
  have hmax : d.val.toNat < 0x110000 := by
    have := d.valid
    simp only [UInt32.isValidChar, Nat.isValidChar] at this
    omega
  unfold utf8EncodeChar
  generalize c.val.toNat = v at hlt
  generalize d.val.toNat = w at hlt hmax
  dsimp only
  -- rows of different length differ in their first bytes, others in the bits from the front
  split
  · split
    · exact lex_cons_of_lt (by omega) hlt
    · split
      · exact lex_cons_of_lt (by omega) (by omega)
      · split <;> exact lex_cons_of_lt (by omega) (by omega)
  · rw [if_neg (show ¬ w ≤ 127 by omega)]
    split
    · split
      · exact lex_cons_of_le (by omega) (by omega) fun hsame => lex_last hlt (by omega)
      · split <;> exact lex_cons_of_lt (by omega) (by omega)
    · rw [if_neg (show ¬ w ≤ 2047 by omega)]
      split
      · split
        · exact lex_cons_of_le (by omega) (by omega) fun hsame => lex_last_two hlt (by omega)
        · exact lex_cons_of_lt (by omega) (by omega)
      · rw [if_neg (show ¬ w ≤ 65535 by omega)]
        exact lex_cons_of_le (by omega) (by omega) fun hsame => lex_last_three hlt (by omega)

theorem lex_flatMap_encodeChar {cs ds : List Char} (h : cs < ds) :
    List.Lex (· < ·) (cs.flatMap utf8EncodeChar) (ds.flatMap utf8EncodeChar) := by
  induction h with
  | @nil d ds =>
    obtain ⟨b, bs, hd⟩ := List.exists_cons_of_ne_nil (String.utf8EncodeChar_ne_nil (c := d))
    rw [List.flatMap_cons, hd]
    exact .nil
  | @cons c cs ds _ ih =>
    rw [List.flatMap_cons, List.flatMap_cons]
    exact List.Lex.append_left _ ih _
  | @rel c cs d ds hlt =>
    rw [List.flatMap_cons, List.flatMap_cons]
    exact lex_encodeChar hlt _ _

theorem bytes_eq_flatMap (s : String) : s.toUTF8.data.toList = s.toList.flatMap utf8EncodeChar := by
  rw [String.toUTF8_eq_toByteArray, ← String.utf8Encode_toList, List.utf8Encode, List.toList_data_toByteArray]

theorem lt_iff_bytesLt {s t : String} : s < t ↔ BytesLt s t := by
  have hbytes : ∀ {s t : String}, s < t → BytesLt s t := by
    intro s t h
    unfold BytesLt
    rw [bytes_eq_flatMap, bytes_eq_flatMap]
    exact lex_flatMap_encodeChar (String.lt_iff_toList_lt.mp h)
  refine ⟨hbytes, fun h => ?_⟩
  by_contra hnot
  rcases eq_or_ne s t with rfl | hne
  · exact List.lt_irrefl _ h
  · have hle := String.not_lt.mp hnot
    have hlt : t < s := by
      by_contra hge
      exact hne (String.le_antisymm (String.not_lt.mp hge) hle)
    exact List.lt_asymm (hbytes hlt) h

end JackAnalyzer.Text
