/-
  JackAnalyzer.Proofs.Grammar.Wording — what a message names, read off its text: the keywords
  and symbols in quotes and, where a class member is wanted, the keywords that one begins with.
  Split at the quotes, a text falls into the words that its pieces name and plain text, and
  plain text has blanks in it where it is not empty.
  - `Expected.mem_offered`: what the text names, the pieces of the wording offer.
-/

import JackAnalyzer.Grammar.Rule

namespace JackAnalyzer

namespace Terminal

def letters : Terminal → List Char
  | keyword k => k.text.toList
  | symbol s => [s.char]
  | _ => []

theorem letters_plain (x : Terminal) : '\'' ∉ x.letters ∧ ' ' ∉ x.letters := by
  have hkeyword : ∀ k ∈ Keyword.all, '\'' ∉ k.text.toList ∧ ' ' ∉ k.text.toList := by decide +kernel
  cases x with
  | keyword k => exact hkeyword k (Keyword.mem_all k)
  | symbol s => cases s <;> decide
  | _ => decide

theorem letters_injective {x y : Terminal} (hx : x.letters ≠ []) (h : x.letters = y.letters) : x = y := by
  have hkeyword : ∀ k ∈ Keyword.all, k.text.toList.length ≠ 1 := by decide +kernel
  have hlength : ∀ (k : Keyword) (s : Symbol), k.text.toList ≠ [s.char] := by
    intro k s heq
    exact hkeyword k (Keyword.mem_all k) (by rw [heq]; rfl)
  cases x with
  | keyword k =>
    cases y with
    | keyword k' => rw [Keyword.text_injective (String.toList_inj.mp h)]
    | symbol s => exact absurd h (hlength k s)
    | _ => exact absurd h hx
  | symbol s =>
    cases y with
    | keyword k => exact absurd h.symm (hlength k s)
    | symbol s' =>
      have hchar : s.char = s'.char := (List.cons.inj h).1
      have hs := Symbol.ofChar?_char s
      rw [hchar, Symbol.ofChar?_char] at hs
      rw [Option.some.inj hs]
    | _ => exact absurd h hx
  | _ => exact absurd rfl hx

end Terminal

namespace Grammar

/-- The text names the terminal: in quotes, or as a beginning of a class member. -/
def Names (text : String) (x : Terminal) : Prop :=
  (x.letters ≠ [] ∧ '\'' :: (x.letters ++ ['\'']) <:+: text.toList) ∨
    ("a class member".toList <:+: text.toList ∧ x ∈ variableKinds ++ subroutineKinds)

def Expected.offered (e : Expected) : List Terminal :=
  e.quoted ++ if e = .classMember then variableKinds ++ subroutineKinds else []

/-! ## Words and plain text -/

theorem Piece.toList_text {p : Piece} {x : Terminal} (h : p.terminal? = some x) :
    p.text.toList = '\'' :: (x.letters ++ ['\'']) := by
  cases p with
  | words w => cases h
  | keyword k => cases h; simp [text, Terminal.letters]
  | symbol s => cases h; simp [text, Terminal.letters, Symbol.text]

/-- Words that are not in quotes have a blank in them. -/
def Piece.Plain : Piece → Prop
  | words w => '\'' ∉ w.toList ∧ ' ' ∈ w.toList
  | _ => True

/-- Split at the quotes, a text falls into the words of its pieces, and what is not a word. -/
theorem mem_splitOn_pieces {ps : List Piece} (hps : ∀ p ∈ ps, p.Plain) : ∀ {front : List Char}, '\'' ∉ front →
    front = [] ∨ ' ' ∈ front → ∀ w ∈ (front ++ ps.flatMap fun p => p.text.toList).splitOn '\'',
      (w = [] ∨ ' ' ∈ w) ∨ ∃ x ∈ ps.filterMap Piece.terminal?, w = x.letters := by
  induction ps with
  | nil =>
    intro front hq hb w hw
    rw [List.flatMap_nil, List.append_nil, List.splitOn_eq_singleton hq, List.mem_singleton] at hw
    exact Or.inl (hw ▸ hb)
  | cons p ps ih =>
    obtain ⟨hp, hrest⟩ := List.forall_mem_cons.mp hps
    intro front hq hb w hw
    rw [List.flatMap_cons] at hw
    cases hx : p.terminal? with
    | none =>
      rw [List.filterMap_cons_none hx]
      cases p with
      | words v =>
        rw [← List.append_assoc] at hw
        have hblank : ' ' ∈ front ++ v.toList := List.mem_append_right _ hp.2
        exact ih hrest (by simp [hq, hp.1]) (Or.inr hblank) w hw
      | keyword | symbol => cases hx
    | some x =>
      -- The piece falls into the text in front of it, its word, and what comes behind it.
      have hsplit : (front ++ (p.text.toList ++ ps.flatMap fun p => p.text.toList)).splitOn '\'' =
          front :: x.letters :: (ps.flatMap fun p => p.text.toList).splitOn '\'' := by
        rw [Piece.toList_text hx, List.cons_append, List.splitOn_append_cons_self_of_not_mem hq, List.append_assoc,
          List.singleton_append, List.splitOn_append_cons_self_of_not_mem x.letters_plain.1]
      rw [List.filterMap_cons_some hx]
      rw [hsplit] at hw
      rcases List.mem_cons.mp hw with rfl | hw
      · exact Or.inl hb
      · rcases List.mem_cons.mp hw with rfl | hw
        · exact Or.inr ⟨x, List.mem_cons_self, rfl⟩
        · refine (ih hrest List.not_mem_nil (Or.inl rfl) w hw).imp_right fun hx => ?_
          obtain ⟨y, hy, rfl⟩ := hx
          exact ⟨y, List.mem_cons_of_mem _ hy, rfl⟩

/-! ## Messages -/

theorem Expected.pieces_plain (e : Expected) : ∀ p ∈ e.pieces, p.Plain := by
  cases e with
  | keyword k => simp [pieces, Piece.Plain]
  | symbol s => simp [pieces, Piece.Plain]
  | operator c => cases c <;> simp [pieces, Piece.Plain, Context.terminators]
  | _ => simp [pieces, Piece.Plain]

theorem Expected.toList_detail (e : Expected) :
    e.detail.toList = "expected ".toList ++ e.pieces.flatMap fun p => p.text.toList := by
  simp [detail, String.toList_join, List.flatMap_map]

theorem Expected.mem_quoted {e : Expected} {x : Terminal} (hx : x.letters ≠ [])
    (h : '\'' :: (x.letters ++ ['\'']) <:+: e.detail.toList) : x ∈ e.quoted := by
  obtain ⟨front, back, heq⟩ := h
  have hmem : x.letters ∈ e.detail.toList.splitOn '\'' := by
    rw [← heq, List.append_assoc, List.cons_append, List.splitOn_append_cons_self, List.append_assoc,
      List.singleton_append, List.splitOn_append_cons_self_of_not_mem x.letters_plain.1]
    exact List.mem_append_right _ List.mem_cons_self
  rw [toList_detail] at hmem
  rcases mem_splitOn_pieces e.pieces_plain (by decide) (Or.inr (by decide)) _ hmem with hplain | ⟨y, hy, hletters⟩
  · exact absurd hplain (not_or.mpr ⟨hx, x.letters_plain.2⟩)
  · rw [Terminal.letters_injective hx hletters]
    exact hy

theorem Expected.eq_classMember {e : Expected} (h : "a class member".toList <:+: e.detail.toList) :
    e = .classMember := by
  -- A message of one quoted word has a blank in front of the word only.
  have hone : ∀ {p : Piece} {x : Terminal}, e.pieces = [p] → p.terminal? ≠ some x := by
    intro p x hp hx
    have hcount := h.sublist.count_le ' '
    rw [toList_detail, hp, List.flatMap_singleton, Piece.toList_text hx] at hcount
    have hletters : x.letters.count ' ' = 0 := List.count_eq_zero.mpr x.letters_plain.2
    have hblanks : "a class member".toList.count ' ' = 2 ∧ "expected ".toList.count ' ' = 1 := by decide
    simp only [List.count_append, List.count_cons, hletters, hblanks] at hcount
    exact absurd hcount (by decide)
  cases e with
  | classMember => rfl
  | keyword k => exact absurd rfl (hone rfl)
  | symbol s => exact absurd rfl (hone rfl)
  | operator c => cases c <;> exact absurd h (by decide +kernel)
  | _ => exact absurd h (by decide +kernel)

theorem Expected.mem_offered {e : Expected} {x : Terminal} (h : Names e.detail x) : x ∈ e.offered := by
  rcases h with ⟨hx, hquoted⟩ | ⟨hmember, hx⟩
  · exact List.mem_append_left _ (mem_quoted hx hquoted)
  · rw [eq_classMember hmember]
    exact List.mem_append_right _ hx

end Grammar

end JackAnalyzer
