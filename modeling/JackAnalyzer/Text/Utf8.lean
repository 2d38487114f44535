/-
  JackAnalyzer.Text.Utf8 — texts in UTF-8: how many bytes they take, and the text of given bytes.
  - `ofBytes?_toUTF8`, `eq_toUTF8_of_ofBytes?`: the bytes of a text, and no others, are read as it.
-/

namespace JackAnalyzer.Text

/-- The number of bytes that the characters take. -/
def byteLength (cs : List Char) : Nat := cs.foldr (fun c n => c.utf8Size + n) 0

@[simp] theorem byteLength_nil : byteLength [] = 0 := rfl

@[simp] theorem byteLength_cons (c : Char) (cs : List Char) : byteLength (c :: cs) = c.utf8Size + byteLength cs := rfl

@[simp] theorem byteLength_append (as cs : List Char) : byteLength (as ++ cs) = byteLength as + byteLength cs := by
  induction as with
  | nil => simp
  | cons a as ih =>
    rw [List.cons_append, byteLength_cons, byteLength_cons, ih]
    omega

@[simp] theorem byteLength_reverse (cs : List Char) : byteLength cs.reverse = byteLength cs := by
  induction cs with
  | nil => rfl
  | cons c cs ih =>
    rw [List.reverse_cons, byteLength_append, byteLength_cons, byteLength_cons, ih, byteLength_nil]
    omega

def ofBytes? (bytes : ByteArray) : Option String := String.fromUTF8? bytes

theorem ofBytes?_toUTF8 (text : String) : ofBytes? text.toUTF8 = some text := by
  simp only [ofBytes?, String.fromUTF8?]
  exact dif_pos text.isValidUTF8

theorem eq_toUTF8_of_ofBytes? {content : ByteArray} {text : String} (h : ofBytes? content = some text) :
    content = text.toUTF8 := by
  simp only [ofBytes?, String.fromUTF8?] at h
  split at h
  · cases h
    rfl
  · cases h

end JackAnalyzer.Text
