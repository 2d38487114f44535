/-
  JackAnalyzer.Proofs.Grammar.Late — what stands once only and may not come again: a subscript
  behind a name, a name behind a dot, the variables of a class in front of its subroutines. The
  last tokens taken leave a mark that tells what would come late, and the marks that a rule can
  leave are listed with the rule; that its body leaves no others is checked by running the check.
  - `Phrase.Takes.mark`: the marks that a phrase leaves.
  - `classDec_not_late`: in a class nothing comes late.
-/

import JackAnalyzer.Proofs.Grammar.Words

namespace JackAnalyzer.Grammar

/-- Behind the tokens taken, the terminal would be a second subscript, a second name behind a
    dot, or a variable of a class behind a subroutine. -/
def isLate (taken : List Token) (x : Terminal) : Bool :=
  match x, taken.reverse.map Token.terminal with
  | .symbol .lbracket, .symbol .rbracket :: _ => true
  | .symbol .dot, _ :: .symbol .dot :: _ => true
  | .keyword .staticKw, .symbol .rbrace :: _ => true
  | .keyword .fieldKw, .symbol .rbrace :: _ => true
  | _, _ => false

theorem isLate_append (us : List Token) {vs : List Token} {x : Terminal} (h : isLate vs x = true) :
    isLate (us ++ vs) x = true := by
  unfold isLate at h ⊢
  rw [List.reverse_append, List.map_append]
  split at h
  case h_5 => cases h
  all_goals
    rename_i heq
    rw [heq]
    rfl

/-! ## Marks -/

/-- What the last tokens taken were, as far as something may come late behind them. -/
inductive Mark where
  | plain
  /-- The end of a subscript. -/
  | bracket
  /-- The end of a block. -/
  | brace
  | dot
  /-- A name behind a dot. -/
  | member
  /-- Something has come late, or no name behind a dot. -/
  | late
  deriving DecidableEq, Repr

namespace Mark

def all : List Mark := [plain, bracket, brace, dot, member, late]

theorem mem_all (m : Mark) : m ∈ all := by cases m <;> decide

def next : Mark → Terminal → Mark
  | late, _ => late
  | bracket, .symbol .lbracket => late
  | brace, .keyword .staticKw => late
  | brace, .keyword .fieldKw => late
  | member, .symbol .dot => late
  | dot, .identifier => member
  | dot, _ => late
  | _, .symbol .rbracket => bracket
  | _, .symbol .rbrace => brace
  | _, .symbol .dot => dot
  | _, _ => plain

def after (m : Mark) (us : List Token) : Mark := us.foldl (fun m t => m.next t.terminal) m

theorem after_append (m : Mark) (us vs : List Token) : m.after (us ++ vs) = (m.after us).after vs := List.foldl_append

theorem after_late (us : List Token) : late.after us = late := by
  induction us with
  | nil => rfl
  | cons t us ih => exact ih

theorem next_rbracket_next (m : Mark) : (m.next (.symbol .rbracket)).next (.symbol .lbracket) = late := by
  cases m <;> rfl

theorem next_rbrace_next (m : Mark) {x : Terminal} (h : x ∈ variableKinds) :
    (m.next (.symbol .rbrace)).next x = late := by
  have hx : x = .keyword .staticKw ∨ x = .keyword .fieldKw := by simpa [variableKinds] using h
  rcases hx with rfl | rfl <;> cases m <;> rfl

theorem next_dot_next_next (m : Mark) (y : Terminal) : ((m.next (.symbol .dot)).next y).next (.symbol .dot) = late := by
  have hdot : m.next (.symbol .dot) = dot ∨ m.next (.symbol .dot) = late := by cases m <;> decide
  rcases hdot with hdot | hdot <;> rw [hdot] <;> cases y <;> rfl

/-- What is late behind tokens is late behind the mark that they leave. -/
theorem next_eq_late (m : Mark) {us : List Token} {x : Terminal} (h : isLate us x = true) :
    (m.after us).next x = late := by
  have hlast : ∀ (t : Token) vs, m.after (vs ++ [t]) = (m.after vs).next t.terminal := fun t vs => after_append m vs [t]
  rw [← us.reverse_reverse]
  unfold isLate at h
  generalize us.reverse = ts at h
  split at h
  case h_5 => cases h
  case h_2 heq =>
    obtain ⟨t, ts, rfl, rfl, hts⟩ := List.map_eq_cons_iff.mp heq
    obtain ⟨t', ts, rfl, ht', rfl⟩ := List.map_eq_cons_iff.mp hts
    rw [List.reverse_cons, List.reverse_cons, hlast, hlast, ht']
    exact next_dot_next_next _ _
  all_goals
    rename_i heq
    obtain ⟨t, ts, rfl, ht, rfl⟩ := List.map_eq_cons_iff.mp heq
    rw [List.reverse_cons, hlast, ht]
  case h_1 => exact next_rbracket_next _
  case h_3 | h_4 => exact next_rbrace_next _ (by decide)

end Mark

/-! ## The marks that a phrase leaves -/

/-- The marks in front of which a rule may be entered. -/
def Rule.marksBefore : Rule → List Mark
  | classDec | classVarDec => [.plain]
  | _ => [.plain, .brace]

def Rule.marksBehind : Rule → List Mark
  | classDec | subroutineDec | subroutineBody | ifStatement | whileStatement => [.brace]
  | statements | parameterList => [.plain, .brace]
  | expression _ | term => [.plain, .bracket]
  | expressionList => [.plain, .brace, .bracket]
  | _ => [.plain]

/-- The marks that a phrase leaves behind any of the given ones. -/
def Phrase.marks : Phrase → List Mark → List Mark
  | skip, ms | ahead .., ms | atEnd _, ms => ms
  | refuse _, _ => []
  | accept set _, ms => Mark.all.filter fun m => ms.any fun m' => set.any fun t => m'.next t == m
  | node r, ms => if ms.all r.marksBefore.contains then r.marksBehind else Mark.all
  | both p q, ms => q.marks (p.marks ms)
  | ifAt _ p q, ms => p.marks ms ++ q.marks ms
  | whileAt _ p, ms =>
    let loop := ms ++ p.marks ms
    if (p.marks loop).all loop.contains then loop else Mark.all

theorem Rule.marks_body (r : Rule) : r.body.marks r.marksBefore ⊆ r.marksBehind := by
  cases r with
  | expression c => cases c <;> decide
  | _ => decide +kernel

/-- What a phrase takes leaves one of its marks, and rounds of a loop keep to marks that one
    round keeps to. -/
theorem Phrase.Takes.mark {p : Phrase} {us : List Token} (h : p.Takes us) :
    (∀ {m ms}, m ∈ ms → m.after us ∈ p.marks ms) ∧
      ∀ {set q}, p = whileAt set q → ∀ {ms}, q.marks ms ⊆ ms → ∀ {m}, m ∈ ms → m.after us ∈ ms := by
  induction h with
  | skip | ahead | atEnd => exact ⟨fun hm => hm, nofun⟩
  | @accept set e t ht =>
    refine ⟨fun {m ms} hm => List.mem_filter.mpr ⟨Mark.mem_all _, ?_⟩, nofun⟩
    exact List.any_eq_true.mpr ⟨m, hm, List.any_eq_true.mpr ⟨t.terminal, ht, beq_self_eq_true _⟩⟩
  | @node r us _ ih =>
    refine ⟨fun {m ms} hm => ?_, nofun⟩
    simp only [marks]
    split
    · rename_i hms
      exact r.marks_body (ih.1 (List.contains_iff_mem.mp (List.all_eq_true.mp hms m hm)))
    · exact Mark.mem_all _
  | both _ _ ihp ihq =>
    refine ⟨fun {m ms} hm => ?_, nofun⟩
    rw [Mark.after_append]
    exact ihq.1 (ihp.1 hm)
  | left _ ih => exact ⟨fun hm => List.mem_append_left _ (ih.1 hm), nofun⟩
  | right _ ih => exact ⟨fun hm => List.mem_append_right _ (ih.1 hm), nofun⟩
  | exit =>
    constructor
    · intro m ms hm
      simp only [marks]
      split
      · exact List.mem_append_left _ hm
      · exact Mark.mem_all _
    · intro _ _ _ ms _ m hm
      exact hm
  | @round set p us vs _ _ ihp ih =>
    have hloop : ∀ {ms}, p.marks ms ⊆ ms → ∀ {m}, m ∈ ms → m.after (us ++ vs) ∈ ms := by
      intro ms hms m hm
      rw [Mark.after_append]
      exact ih.2 rfl hms (hms (ihp.1 hm))
    refine ⟨fun {m ms} hm => ?_, fun heq => ?_⟩
    · simp only [marks]
      split
      · rename_i hms
        refine hloop (fun x hx => ?_) (List.mem_append_left _ hm)
        exact List.contains_iff_mem.mp (List.all_eq_true.mp hms x hx)
      · exact Mark.mem_all _
    · cases heq
      exact hloop

theorem classDec_not_late {us vs : List Token} {t : Token} (h : (Phrase.node .classDec).Takes (us ++ t :: vs)) :
    isLate us t.terminal = false := by
  have hmark := h.mark.1 (List.mem_singleton_self Mark.plain)
  cases hl : isLate us t.terminal with
  | false => rfl
  | true =>
    have hlate : Mark.plain.after (us ++ t :: vs) = .late := by
      rw [Mark.after_append]
      show ((Mark.plain.after us).next t.terminal).after vs = .late
      rw [Mark.next_eq_late _ hl, Mark.after_late]
    rw [hlate] at hmark
    exact absurd hmark (by decide)

end JackAnalyzer.Grammar
