/-
  JackAnalyzer.Proofs.Grammar.Lookahead — one token ahead is enough. A phrase fits a set of
  tokens that may come behind it if each of its decisions is told by the next token: what a
  branch can start with is in the branch's set or out of it, and what may come behind a loop
  is not in the loop's set. That every rule fits what may come behind it is checked by
  running the check.
  - `Phrase.next_mem_start`: what a derivation starts with.
  - `Rule.run_complete`: a rule takes every derivation tree of its label, in front of any
    token that may come behind it.
-/

import JackAnalyzer.Proofs.Grammar.Derivation

namespace JackAnalyzer.Grammar

/-! ## The next token -/

def next (us : List Token) : Option Terminal := us.head?.map Token.terminal

def isIn (set : List Terminal) : Option Terminal → Bool
  | none => false
  | some t => set.contains t

theorem isAt_eq (set : List Terminal) (us : List Token) : isAt set us = isIn set (next us) := by
  cases us <;> rfl

theorem next_cons (t : Token) (us : List Token) : next (t :: us) = some t.terminal := rfl

def allTerminals : List Terminal :=
  Keyword.all.map .keyword ++ Symbol.all.map .symbol ++ [.integerConstant, .stringConstant, .identifier]

/-- Every token that may come next, and the end. -/
def anyNext : List (Option Terminal) := none :: allTerminals.map some

theorem mem_allTerminals (t : Terminal) : t ∈ allTerminals := by
  cases t with
  | keyword k => exact List.mem_append_left _ (List.mem_append_left _ (List.mem_map_of_mem (Keyword.mem_all k)))
  | symbol s => exact List.mem_append_left _ (List.mem_append_right _ (List.mem_map_of_mem (Symbol.mem_all s)))
  | _ => exact List.mem_append_right _ (by decide)

theorem mem_anyNext (x : Option Terminal) : x ∈ anyNext := by
  cases x with
  | none => exact List.mem_cons_self
  | some t => exact List.mem_cons_of_mem _ (List.mem_map_of_mem (mem_allTerminals t))

/-! ## What a phrase starts with, and what may come behind a rule -/

def Rule.first : Rule → List Terminal
  | classDec => [.keyword .classKw]
  | classVarDec => variableKinds
  | subroutineDec => subroutineKinds
  | parameterList => types
  | subroutineBody => [.symbol .lbrace]
  | varDec => [.keyword .varKw]
  | statements => statementStarts
  | letStatement => [.keyword .letKw]
  | ifStatement => [.keyword .ifKw]
  | whileStatement => [.keyword .whileKw]
  | doStatement => [.keyword .doKw]
  | returnStatement => [.keyword .returnKw]
  | expression _ | term | expressionList => constants ++ [.identifier, .symbol .lparen] ++ unaryOperators

/-- What may come behind a rule, whichever of its derivation trees it takes. -/
def Rule.follow : Rule → List (Option Terminal)
  | classDec => [none]
  | parameterList | expressionList => [some (.symbol .rparen)]
  | statements => anyNext.filter fun x => !isIn (.keyword .elseKw :: statementStarts) x
  | ifStatement => anyNext.filter fun x => !isIn [.keyword .elseKw] x
  | expression c => c.terminators.map fun s => some (.symbol s)
  | term => anyNext.filter fun x => !isIn [.symbol .lbracket, .symbol .lparen, .symbol .dot] x
  | _ => anyNext

namespace Phrase

def first : Phrase → List Terminal
  | skip | ahead .. | atEnd _ | refuse _ => []
  | accept set _ => set
  | node r => r.first
  | both p q => p.first ++ if p.takesSome then [] else q.first
  | ifAt _ p q => p.first ++ q.first
  | whileAt _ p => p.first

/-- What comes next where a phrase is taken in front of something that `follow` holds. -/
def start (p : Phrase) (follow : List (Option Terminal)) : List (Option Terminal) :=
  p.first.map some ++ if p.takesSome then [] else follow

/-- Each decision in the phrase is told by the next token, if what comes behind the phrase is
    in `follow`. -/
def fits (follow : List (Option Terminal)) : Phrase → Bool
  | skip | accept .. | refuse _ => true
  | node r => follow.all r.follow.contains
  | both p q => p.fits (q.start follow) && q.fits follow
  | ifAt set p q =>
    (p.start follow).all (isIn set) && (q.start follow).all (!isIn set ·) && p.fits follow && q.fits follow
  | whileAt set p =>
    p.takesSome && p.first.all set.contains && follow.all (!isIn set ·) && p.fits (p.first.map some ++ follow)
  | ahead set _ => follow.all (isIn set)
  | atEnd _ => follow.all (· == none)

end Phrase

namespace Phrase

theorem mem_start {p : Phrase} {follow : List (Option Terminal)} {x : Option Terminal} :
    x ∈ p.start follow ↔ (∃ t ∈ p.first, some t = x) ∨ (p.takesSome = false ∧ x ∈ follow) := by
  rw [start, List.mem_append, List.mem_map]
  cases p.takesSome <;> simp

theorem mem_start_both {p q : Phrase} {follow : List (Option Terminal)} {x : Option Terminal} :
    x ∈ (both p q).start follow ↔ x ∈ p.start (q.start follow) := by
  simp only [mem_start, first, takesSome]
  cases p.takesSome <;> simp [or_and_right, exists_or, or_assoc]

theorem mem_start_ifAt {set : List Terminal} {p q : Phrase} {follow : List (Option Terminal)} {x : Option Terminal} :
    x ∈ (ifAt set p q).start follow ↔ x ∈ p.start follow ∨ x ∈ q.start follow := by
  simp only [mem_start, first, takesSome, List.mem_append, or_and_right, exists_or, Bool.and_eq_false_iff]
  grind

theorem mem_start_whileAt {set : List Terminal} {p : Phrase} {follow : List (Option Terminal)} {x : Option Terminal} :
    x ∈ (whileAt set p).start follow ↔ (∃ t ∈ p.first, some t = x) ∨ x ∈ follow := by
  simp [mem_start, first, takesSome]

end Phrase

theorem Rule.first_body (r : Rule) : r.body.first ⊆ r.first := by
  cases r with
  | expression c => cases c <;> decide
  | _ => decide +kernel

/-- Every rule decides by the next token. -/
theorem Rule.fits_body (r : Rule) : r.body.fits r.follow = true := by
  cases r with
  | expression c => cases c <;> decide +kernel
  | _ => decide +kernel

theorem Rule.start_body (r : Rule) (follow : List (Option Terminal)) :
    r.body.start follow ⊆ (Phrase.node r).start follow := by
  intro x hx
  rcases Phrase.mem_start.mp hx with ⟨t, ht, rfl⟩ | ⟨hb, hx⟩
  · exact Phrase.mem_start.mpr (Or.inl ⟨t, r.first_body ht, rfl⟩)
  · refine Phrase.mem_start.mpr (Or.inr ⟨?_, hx⟩)
    show r.takesSome = false
    cases hr : r.takesSome with
    | false => rfl
    | true => rw [r.takesSome_body hr] at hb; cases hb

/-! ## What a derivation starts with -/

/-- In front of anything, the tree starts as the rule of its label does. -/
def Starts (t : Tree) : Prop :=
  ∀ (r : Rule) follow rest, t.constituent = .node r.label → next rest ∈ follow →
    next (t.leaves ++ rest) ∈ (Phrase.node r).start follow

/-- In front of anything, trees that a phrase can take start as the phrase does. -/
theorem Phrase.next_mem_start (p : Phrase) : ∀ {ts : List Tree} {follow rest},
    ts.map Tree.constituent ∈ p.shape.matches' → (∀ t ∈ ts, Starts t) → next rest ∈ follow →
      next (ts.flatMap Tree.leaves ++ rest) ∈ p.start follow := by
  induction p with
  | skip | ahead | atEnd =>
    intro ts follow rest h _ hr
    obtain rfl := List.map_eq_nil_iff.mp ((Language.mem_one _).mp h)
    exact hr
  | accept set e =>
    intro ts follow rest h _ hr
    obtain ⟨t, rfl, ht⟩ := map_constituent_mem_oneOf.mp h
    exact mem_start.mpr (Or.inl ⟨t.terminal, ht, rfl⟩)
  | node r =>
    intro ts follow rest h hs hr
    obtain ⟨t, rfl, ht⟩ := map_constituent_mem_char.mp h
    simpa using hs t List.mem_cons_self r follow rest ht hr
  | both p q ihp ihq =>
    intro ts follow rest h hs hr
    obtain ⟨us, vs, rfl, hu, hv⟩ := map_constituent_mem_mul.mp h
    have hq := ihq hv (fun t ht => hs t (List.mem_append_right _ ht)) hr
    have hp := ihp hu (fun t ht => hs t (List.mem_append_left _ ht)) hq
    rw [List.flatMap_append, List.append_assoc]
    exact mem_start_both.mpr hp
  | ifAt set p q ihp ihq =>
    intro ts follow rest h hs hr
    rcases h with h | h
    · exact mem_start_ifAt.mpr (Or.inl (ihp h hs hr))
    · exact mem_start_ifAt.mpr (Or.inr (ihq h hs hr))
  | whileAt set p ih =>
    intro ts follow rest h hs hr
    obtain ⟨rounds, rfl, hw⟩ := map_constituent_mem_star.mp h
    clear h
    induction rounds with
    | nil => exact mem_start_whileAt.mpr (Or.inr hr)
    | cons us rounds ihr =>
      have hrest := ihr (fun vs hv => hw vs (List.mem_cons_of_mem _ hv)) fun t ht => hs t (List.mem_append_right _ ht)
      have hp := ih (hw us List.mem_cons_self) (fun t ht => hs t (List.mem_append_left _ ht)) hrest
      rw [List.flatten_cons, List.flatMap_append, List.append_assoc]
      rcases mem_start.mp hp with hp | ⟨-, hp⟩
      · exact mem_start_whileAt.mpr (Or.inl hp)
      · exact hp
  | refuse e => intro ts follow rest h; cases h

theorem Derivation.starts {t : Tree} (h : Derivation t) : Starts t := by
  induction h with
  | leaf t => intro r follow rest ht; cases ht
  | @node l cs row _ ih =>
    intro r follow rest ht hr
    cases ht
    rw [← r.shape_body] at row
    simpa using r.start_body follow (r.body.next_mem_start row ih hr)

/-! ## Completeness -/

/-- In front of whatever may come behind it, the tree is what the rule of its label takes. -/
def Taken (t : Tree) : Prop :=
  ∀ (r : Rule) rest, t.constituent = .node r.label → next rest ∈ r.follow → r.call (t.leaves ++ rest) = .done [t] rest

/-- A phrase that decides by the next token takes whatever it can take. -/
theorem Phrase.run_complete (p : Phrase) : ∀ {follow ts rest}, p.fits follow = true → next rest ∈ follow →
    ts.map Tree.constituent ∈ p.shape.matches' → (∀ t ∈ ts, Derivation t) → (∀ t ∈ ts, Taken t) →
      p.run Rule.call (ts.flatMap Tree.leaves ++ rest) = .done ts rest := by
  have starts : ∀ {p : Phrase} {ts : List Tree} {follow rest}, ts.map Tree.constituent ∈ p.shape.matches' →
      (∀ t ∈ ts, Derivation t) → next rest ∈ follow → next (ts.flatMap Tree.leaves ++ rest) ∈ p.start follow :=
    fun h hd hr => next_mem_start _ h (fun t ht => (hd t ht).starts) hr
  induction p with
  | skip =>
    intro follow ts rest _ _ h _ _
    obtain rfl := List.map_eq_nil_iff.mp ((Language.mem_one _).mp h)
    rfl
  | accept set e =>
    intro follow ts rest _ _ h _ _
    obtain ⟨t, rfl, ht⟩ := map_constituent_mem_oneOf.mp h
    simp [run, ht]
  | node r =>
    intro follow ts rest hf hr h _ hk
    obtain ⟨t, rfl, ht⟩ := map_constituent_mem_char.mp h
    have hrf : next rest ∈ r.follow := List.contains_iff_mem.mp (List.all_eq_true.mp hf _ hr)
    simpa [run] using hk t List.mem_cons_self r rest ht hrf
  | both p q ihp ihq =>
    intro follow ts rest hf hr h hd hk
    obtain ⟨us, vs, rfl, hu, hv⟩ := map_constituent_mem_mul.mp h
    obtain ⟨hfp, hfq⟩ := Bool.and_eq_true_iff.mp hf
    have hq := ihq hfq hr hv (fun t ht => hd t (List.mem_append_right _ ht))
      fun t ht => hk t (List.mem_append_right _ ht)
    have hnext := starts hv (fun t ht => hd t (List.mem_append_right _ ht)) hr
    have hp := ihp hfp hnext hu (fun t ht => hd t (List.mem_append_left _ ht))
      fun t ht => hk t (List.mem_append_left _ ht)
    rw [List.flatMap_append, List.append_assoc]
    exact Outcome.andThen_eq_done.mpr ⟨us, _, vs, hp, hq, rfl⟩
  | ifAt set p q ihp ihq =>
    intro follow ts rest hf hr h hd hk
    simp only [fits, Bool.and_eq_true, List.all_eq_true] at hf
    obtain ⟨⟨⟨hin, hout⟩, hfp⟩, hfq⟩ := hf
    simp only [run, isAt_eq]
    rcases h with h | h
    · rw [if_pos (hin _ (starts h hd hr))]
      exact ihp hfp hr h hd hk
    · have hn := hout _ (starts h hd hr)
      rw [if_neg (by simpa using hn)]
      exact ihq hfq hr h hd hk
  | whileAt set p ih =>
    intro follow ts rest hf hr h hd hk
    simp only [fits, Bool.and_eq_true, List.all_eq_true] at hf
    obtain ⟨⟨⟨hts, hin⟩, hout⟩, hfp⟩ := hf
    obtain ⟨rounds, rfl, hw⟩ := map_constituent_mem_star.mp h
    clear h
    -- The induction is on the rounds that the trees are made of.
    induction rounds with
    | nil =>
      have hn := hout _ hr
      rw [run_whileAt Rule.regular_call hts, isAt_eq, if_neg (by simpa using hn)]
      rfl
    | cons us rounds ihr =>
      have hrounds : ∀ vs ∈ rounds, vs.map Tree.constituent ∈ p.shape.matches' :=
        fun vs hv => hw vs (List.mem_cons_of_mem _ hv)
      have hdr : ∀ t ∈ rounds.flatten, Derivation t := fun t ht => hd t (List.mem_append_right _ ht)
      have hu := hw us List.mem_cons_self
      have hdu : ∀ t ∈ us, Derivation t := fun t ht => hd t (List.mem_append_left _ ht)
      have hloop := ihr hrounds hdr fun t ht => hk t (List.mem_append_right _ ht)
      have hnext : next (rounds.flatten.flatMap Tree.leaves ++ rest) ∈ p.first.map some ++ follow := by
        have h := starts (p := whileAt set p) (map_constituent_mem_star.mpr ⟨rounds, rfl, hrounds⟩) hdr hr
        rcases mem_start_whileAt.mp h with ⟨t, ht, h⟩ | h
        · exact List.mem_append_left _ (List.mem_map.mpr ⟨t, ht, h⟩)
        · exact List.mem_append_right _ h
      have hround := ih hfp hnext hu hdu fun t ht => hk t (List.mem_append_left _ ht)
      have hset : isIn set (next (us.flatMap Tree.leaves ++ (rounds.flatten.flatMap Tree.leaves ++ rest))) = true := by
        rcases mem_start.mp (starts hu hdu hnext) with ⟨t, ht, h⟩ | ⟨h, -⟩
        · rw [← h]
          exact hin t ht
        · rw [hts] at h; cases h
      rw [List.flatten_cons, List.flatMap_append, List.append_assoc, run_whileAt Rule.regular_call hts, isAt_eq,
        if_pos hset]
      exact Outcome.andThen_eq_done.mpr ⟨us, _, rounds.flatten, hround, hloop, rfl⟩
  | ahead set e =>
    intro follow ts rest hf hr h _ _
    obtain rfl := List.map_eq_nil_iff.mp ((Language.mem_one _).mp h)
    have hin := List.all_eq_true.mp hf _ hr
    simp [run, isAt_eq, hin]
  | atEnd e =>
    intro follow ts rest hf hr h _ _
    obtain rfl := List.map_eq_nil_iff.mp ((Language.mem_one _).mp h)
    have hnone := List.all_eq_true.mp hf _ hr
    cases rest with
    | nil => rfl
    | cons t rest => simp [next] at hnone
  | refuse e => intro follow ts rest _ _ h; cases h

theorem Derivation.taken {t : Tree} (h : Derivation t) : Taken t := by
  induction h with
  | leaf t => intro r rest ht; cases ht
  | @node l cs row below ih =>
    intro r rest ht hr
    cases ht
    rw [← r.shape_body] at row
    refine Outcome.wrap_eq_done.mpr ⟨cs, ?_, rfl⟩
    rw [Tree.leaves_node, r.run_eq]
    exact r.body.run_complete r.fits_body hr row below ih

/-- A rule takes every derivation tree of its label, in front of whatever may come behind it. -/
theorem Rule.run_complete {r : Rule} {cs : List Tree} {rest : List Token} (h : Derives r.label (.node r.label cs))
    (hr : next rest ∈ r.follow) : r.run (cs.flatMap Tree.leaves ++ rest) = .done cs rest := by
  have ht := h.2.taken r rest h.1 hr
  rw [Tree.leaves_node] at ht
  obtain ⟨cs', hrun, heq⟩ := Outcome.wrap_eq_done.mp ht
  cases heq
  exact hrun

end JackAnalyzer.Grammar
