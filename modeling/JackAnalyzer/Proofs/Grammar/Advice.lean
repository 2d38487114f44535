/-
  JackAnalyzer.Proofs.Grammar.Advice — what a message advises. A message belongs to a place in
  a rule, and several ways lead there. What it offers is taken there, unless it belongs to a
  part in front of that place that was passed already and stands once only: then it is late.
  - `Phrase.candid`: the check that a phrase offers nothing else.
  - `Phrase.Stops.advice`: what becomes of a token that is offered where a phrase stops.
  - `classDec_advice`: with a token that a message names, a class goes on just if it is not late.
-/

import JackAnalyzer.Proofs.Grammar.CorrectPrefix
import JackAnalyzer.Proofs.Grammar.Late
import JackAnalyzer.Proofs.Grammar.Wording

namespace JackAnalyzer.Grammar

/-! ## The check -/

namespace Phrase

def again : Phrase → List Terminal
  | whileAt _ p => p.first
  | _ => []

/-- What is late behind the phrase, if it took anything. -/
def lateBehind (p : Phrase) : List Terminal :=
  if p = ifAt [.symbol .lbracket] subscript skip then [.symbol .lbracket]
  else if p = ifAt [.symbol .dot] (both (symbol .dot) identifier) skip then [.symbol .dot]
  else if p = whileAt subroutineKinds (node .subroutineDec) then variableKinds
  else []

end Phrase

/-- What the messages in a rule may offer that is behind the rule. -/
def Rule.offersBehind : Rule → List Terminal
  | expression c => c.terminators.map .symbol
  | expressionList => [.symbol .rparen]
  | _ => []

/-- Each message in the phrase offers what is taken at its place, or what is taken `before` or
    `behind` the phrase, or what is late. -/
def Phrase.candid (before behind : List Terminal) : Phrase → Bool
  | skip => true
  | accept set e => e.offered.all fun x => set.contains x || before.contains x
  | node r => r.offersBehind.all behind.contains
  | both p q =>
    p.candid before (q.first ++ if q.takesSome then [] else behind) &&
      (p.takesSome || q.candid (before ++ p.first) behind) && q.candid (p.again ++ p.lateBehind) behind
  | ifAt _ p q => p.candid before behind && q.candid before behind
  | whileAt _ p => p.candid behind (p.first ++ behind)
  | ahead _ e => e.offered.all fun x => behind.contains x || before.contains x
  | atEnd e | refuse e => e.offered.all before.contains

theorem Rule.candid_body (r : Rule) : r.body.candid [] r.offersBehind = true := by
  cases r with
  | expression c => cases c <;> decide +kernel
  | _ => decide +kernel

/-! ## What is late -/

theorem isLate_rbracket (us : List Token) {t : Token} (h : t.terminal = .symbol .rbracket) :
    isLate (us ++ [t]) (.symbol .lbracket) = true := by
  simp [isLate, h]

theorem isLate_rbrace (us : List Token) {t : Token} (h : t.terminal = .symbol .rbrace) {x : Terminal}
    (hx : x ∈ variableKinds) : isLate (us ++ [t]) x = true := by
  have hx : x = .keyword .staticKw ∨ x = .keyword .fieldKw := by simpa [variableKinds] using hx
  rcases hx with rfl | rfl <;> simp [isLate, h]

namespace Phrase

theorem subroutineDec_takes_last {us : List Token} (h : (node .subroutineDec).Takes us) :
    ∃ vs t, us = vs ++ [t] ∧ t.terminal = .symbol .rbrace := by
  cases h with
  | node h =>
    obtain ⟨vs, ws, rfl, hbody⟩ := Takes.last [_, _, _, _, _, _] h
    cases hbody with
    | node hbody =>
      obtain ⟨vs', ws', rfl, hbrace⟩ := Takes.last [_, _, _] hbody
      obtain ⟨t, rfl, ht⟩ := takes_accept_iff.mp hbrace
      exact ⟨vs ++ vs', t, (List.append_assoc _ _ _).symm, List.mem_singleton.mp ht⟩

theorem Takes.isLate {p : Phrase} {us : List Token} (h : p.Takes us) (hus : us ≠ []) {x : Terminal}
    (hx : x ∈ p.lateBehind) : isLate us x = true := by
  unfold lateBehind at hx
  split at hx
  · subst p
    obtain rfl := List.mem_singleton.mp hx
    cases h with
    | left h =>
      obtain ⟨vs, ws, rfl, hbracket⟩ := Takes.last [_, _] h
      obtain ⟨t, rfl, ht⟩ := takes_accept_iff.mp hbracket
      exact isLate_rbracket vs (List.mem_singleton.mp ht)
    | right h => cases h; exact absurd rfl hus
  split at hx
  · subst p
    obtain rfl := List.mem_singleton.mp hx
    cases h with
    | left h =>
      cases h with
      | both hdot hname =>
        obtain ⟨d, rfl, hd⟩ := takes_accept_iff.mp hdot
        obtain ⟨t, rfl, -⟩ := takes_accept_iff.mp hname
        simp [Grammar.isLate, List.mem_singleton.mp hd]
    | right h => cases h; exact absurd rfl hus
  split at hx
  · subst p
    obtain ⟨vs, ws, rfl, hlast⟩ := h.last_round.resolve_left hus
    obtain ⟨vs', t, rfl, ht⟩ := subroutineDec_takes_last hlast
    rw [← List.append_assoc]
    exact isLate_rbrace _ ht hx
  · cases hx

theorem Takes.again {p : Phrase} {us : List Token} (h : p.Takes us) (hp : p.closable = true) {t : Token}
    (ht : t.terminal ∈ p.again) : ∃ ws, p.Takes (us ++ t :: ws) := by
  cases p with
  | whileAt set p =>
    have hp : p.closable = true := hp
    obtain ⟨ws, hws⟩ := exists_takes_first hp ht
    exact ⟨ws, h.append (.once hws)⟩
  | _ => cases ht

/-! ## Advice -/

/-- What becomes of a token that a message offers, behind what a phrase has taken. -/
inductive Advice (before behind : List Terminal) (p : Phrase) (us : List Token) (t : Token) : Prop
  /-- The phrase goes on with it. -/
  | within {ws : List Token} : p.Takes (us ++ t :: ws) → Advice before behind p us t
  /-- The phrase ends in front of it. -/
  | behind : t.terminal ∈ behind → p.Takes us → Advice before behind p us t
  /-- The phrase has not begun. -/
  | before : t.terminal ∈ before → us = [] → Advice before behind p us t
  | late : isLate us t.terminal = true → Advice before behind p us t

theorem Advice.map {before behind behind' : List Terminal} {p q : Phrase} {us : List Token} {t : Token}
    (h : Advice before behind p us t) (hb : t.terminal ∈ behind → t.terminal ∈ behind')
    (hq : ∀ {ws}, p.Takes ws → q.Takes ws) : Advice before behind' q us t := by
  cases h with
  | within h => exact .within (hq h)
  | behind ht h => exact .behind (hb ht) (hq h)
  | before ht h => exact .before ht h
  | late h => exact .late h

/-- The first of two phrases goes on as the second does behind it. -/
theorem Advice.first {before behind : List Terminal} {p q : Phrase} {us : List Token} {t : Token}
    (h : Advice before (q.first ++ if q.takesSome then [] else behind) p us t) (hq : q.closable = true)
    (hprod : q.productive 3 = true) : Advice before behind (both p q) us t := by
  cases h with
  | @within ws h =>
    obtain ⟨vs, hvs⟩ := exists_takes hprod
    have hboth := Takes.both h hvs
    rw [List.append_assoc] at hboth
    exact .within hboth
  | behind ht h =>
    rcases List.mem_append.mp ht with ht | ht
    · obtain ⟨ws, hws⟩ := exists_takes_first hq ht
      exact .within (.both h hws)
    · cases hs : q.takesSome with
      | true => simp [hs] at ht
      | false => exact .behind (by simpa [hs] using ht) (by simpa using Takes.both h (takes_nil hs))
  | before ht h => exact .before ht h
  | late h => exact .late h

theorem Advice.second {before behind : List Terminal} {p q : Phrase} {us vs : List Token} {t : Token}
    (hus : p.Takes us) (hne : us ≠ []) (h : Advice (p.again ++ p.lateBehind) behind q vs t) (hp : p.closable = true)
    (hprod : q.productive 3 = true) : Advice before behind (both p q) (us ++ vs) t := by
  cases h with
  | within h => exact .within (by rw [List.append_assoc]; exact .both hus h)
  | behind ht h => exact .behind ht (.both hus h)
  | before ht h =>
    subst h
    rw [List.append_nil]
    rcases List.mem_append.mp ht with ht | ht
    · obtain ⟨ws, hws⟩ := hus.again hp ht
      obtain ⟨vs, hvs⟩ := exists_takes hprod
      have hboth := Takes.both hws hvs
      rw [List.append_assoc] at hboth
      exact .within hboth
    · exact .late (hus.isLate hne ht)
  | late h => exact .late (isLate_append us h)

theorem Advice.second_of_nil {before behind : List Terminal} {p q : Phrase} {vs : List Token} {t : Token}
    (hnil : p.Takes []) (h : Advice (before ++ p.first) behind q vs t) (hp : p.closable = true)
    (hprod : q.productive 3 = true) : Advice before behind (both p q) vs t := by
  cases h with
  | within h =>
    have hboth := Takes.both hnil h
    exact .within hboth
  | behind ht h => exact .behind ht (.both hnil h)
  | before ht h =>
    subst h
    rcases List.mem_append.mp ht with ht | ht
    · exact .before ht rfl
    · obtain ⟨ws, hws⟩ := exists_takes_first hp ht
      obtain ⟨vs, hvs⟩ := exists_takes hprod
      have hboth := Takes.both hws hvs
      exact .within hboth
  | late h => exact .late h

theorem Advice.round {before behind set : List Terminal} {p : Phrase} {us vs : List Token} {t : Token}
    (hus : (whileAt set p).Takes us) (h : Advice behind (p.first ++ behind) p vs t) (hp : p.closable = true) :
    Advice before behind (whileAt set p) (us ++ vs) t := by
  cases h with
  | within h => exact .within (by rw [List.append_assoc]; exact hus.append (.once h))
  | behind ht h =>
    have hbehind := hus.append (.once h)
    rcases List.mem_append.mp ht with ht | ht
    · obtain ⟨ws, hws⟩ := hbehind.again hp ht
      exact .within hws
    · exact .behind ht hbehind
  | before ht h =>
    subst h
    exact .behind ht (by simpa using hus)
  | late h => exact .late (isLate_append us h)

/-- Where a candid phrase stops, what its message offers is not wrong there, unless it is late. -/
theorem Stops.advice {p : Phrase} {us : List Token} {e : Expected} (h : p.Stops us e) :
    ∀ {before behind : List Terminal}, p.closable = true → p.candid before behind = true →
      ∀ t : Token, t.terminal ∈ e.offered → Advice before behind p us t := by
  induction h with
  | @accept set e =>
    intro before behind _ hc t ht
    rcases Bool.or_eq_true_iff.mp (List.all_eq_true.mp hc _ ht) with hin | hin
    · exact .within (.accept (List.contains_iff_mem.mp hin))
    · exact .before (List.contains_iff_mem.mp hin) rfl
  | @node r us e _ ih =>
    intro before behind _ hc t ht
    have h := (ih r.closable_body r.candid_body t ht)
    cases h with
    | within h => exact .within (.node h)
    | behind hb h => exact .behind (List.contains_iff_mem.mp (List.all_eq_true.mp hc _ hb)) (.node h)
    | before hb h => cases hb
    | late h => exact .late h
  | first _ ih =>
    intro before behind hcl hc t ht
    simp only [closable, candid, Bool.and_eq_true] at hcl hc
    exact (ih hcl.1.1 hc.1.1 t ht).first hcl.1.2 hcl.2
  | @second p q us vs e hus _ ih =>
    intro before behind hcl hc t ht
    simp only [closable, candid, Bool.and_eq_true] at hcl hc
    obtain ⟨⟨-, hempty⟩, hsome⟩ := hc
    by_cases hnil : us = []
    · subst hnil
      have hs : p.takesSome = false := by
        cases hs : p.takesSome with
        | true => exact absurd rfl (hus.ne_nil hs)
        | false => rfl
      rw [hs, Bool.false_or] at hempty
      exact .second_of_nil hus (ih hcl.1.2 hempty t ht) hcl.1.1 hcl.2
    · exact .second hus hnil (ih hcl.1.2 hsome t ht) hcl.1.1 hcl.2
  | left _ ih =>
    intro before behind hcl hc t ht
    exact (ih (Bool.and_eq_true_iff.mp hcl).1 (Bool.and_eq_true_iff.mp hc).1 t ht).map id .left
  | right _ ih =>
    intro before behind hcl hc t ht
    exact (ih (Bool.and_eq_true_iff.mp hcl).2 (Bool.and_eq_true_iff.mp hc).2 t ht).map id .right
  | round hus _ ih =>
    intro before behind hcl hc t ht
    exact .round hus (ih hcl hc t ht) hcl
  | ahead =>
    intro before behind _ hc t ht
    rcases Bool.or_eq_true_iff.mp (List.all_eq_true.mp hc _ ht) with hin | hin
    · exact .behind (List.contains_iff_mem.mp hin) .ahead
    · exact .before (List.contains_iff_mem.mp hin) rfl
  | atEnd | refuse =>
    intro before behind _ hc t ht
    exact .before (List.contains_iff_mem.mp (List.all_eq_true.mp hc _ ht)) rfl

end Phrase

/-! ## Classes -/

theorem Rule.exists_stop_of_parse {r : Rule} {ts : List Token} {span : Span} {line : Nat} {found detail : String}
    (h : r.parse ts = .error (.parse span line found detail)) :
    ∃ e, (Phrase.node r).Stops (ts.take (r.consumed ts)) e ∧ detail = e.detail := by
  rw [take_consumed]
  unfold parse apply at h
  cases hrun : r.run ts with
  | done cs rest =>
    rw [show (Cursor.ofTokens ts).ahead = ts from rfl, hrun] at h
    cases h
  | stop cs rest e =>
    rw [show (Cursor.ofTokens ts).ahead = ts from rfl, hrun] at h
    refine ⟨e, stops_of_run hrun, ?_⟩
    simp only [Cursor.errorHere] at h
    split at h <;> cases h <;> rfl

/-- On tokens that go on to a class and one more, a class takes all but the last, and the last
    just if they go on to a class with it. -/
theorem classDec_consumed_append {us : List Token} (h : Rule.classDec.Completable us) (t : Token) :
    (Rule.classDec.Completable (us ++ [t]) ∧ Rule.classDec.consumed (us ++ [t]) = us.length + 1) ∨
      (¬Rule.classDec.Completable (us ++ [t]) ∧ Rule.classDec.consumed (us ++ [t]) = us.length) := by
  have hlength : (us ++ [t]).length = us.length + 1 := List.length_append
  have hle := Rule.classDec.consumed_le (us ++ [t])
  have hall := classDec_completable_take_iff (Nat.le_refl (us ++ [t]).length)
  have hfront := classDec_completable_take_iff (Nat.le.intro hlength.symm)
  rw [List.take_length, hlength] at hall
  rw [List.take_left] at hfront
  have hge := hfront.mp h
  by_cases hc : Rule.classDec.Completable (us ++ [t])
  · have := hall.mp hc
    exact Or.inl ⟨hc, by omega⟩
  · have := mt hall.mpr hc
    exact Or.inr ⟨hc, by omega⟩

/-- What a class that failed took goes on to a class with a token that the message names, just
    if it is not late. -/
theorem classDec_completable_named_iff {ts : List Token} {span : Span} {line : Nat} {found detail : String}
    (h : Rule.classDec.parse ts = .error (.parse span line found detail)) {t : Token} (ht : Names detail t.terminal) :
    Rule.classDec.Completable (ts.take (Rule.classDec.consumed ts) ++ [t]) ↔
      isLate (ts.take (Rule.classDec.consumed ts)) t.terminal = false := by
  obtain ⟨e, hstop, rfl⟩ := Rule.exists_stop_of_parse h
  have hadvice : Phrase.Advice [] [] (.node .classDec) (ts.take (Rule.classDec.consumed ts)) t :=
    hstop.advice rfl rfl t (Expected.mem_offered ht)
  constructor
  · intro hx
    obtain ⟨ws, hws⟩ := hx
    rw [List.append_assoc] at hws
    exact classDec_not_late (classDec_takes_iff.mpr hws)
  · intro hnot
    cases hadvice with
    | @within ws h => exact ⟨ws, by rw [List.append_assoc]; exact classDec_takes_iff.mp h⟩
    | behind hb => cases hb
    | before hb => cases hb
    | late h => rw [hnot] at h; cases h

/-- With a keyword or a symbol that its message names, a class that failed goes on just if the
    token is not late; and only a late one is named where it is the token found. -/
theorem classDec_advice {ts : List Token} {span : Span} {line : Nat} {found detail : String}
    (h : Rule.classDec.parse ts = .error (.parse span line found detail)) {t : Token} (ht : Names detail t.terminal) :
    (Rule.classDec.consumed (ts.take (Rule.classDec.consumed ts) ++ [t]) =
      if isLate (ts.take (Rule.classDec.consumed ts)) t.terminal then Rule.classDec.consumed ts
      else Rule.classDec.consumed ts + 1) ∧
    (ts[Rule.classDec.consumed ts]? = some t → isLate (ts.take (Rule.classDec.consumed ts)) t.terminal = true) := by
  have hlate := classDec_completable_named_iff h ht
  have hlength : (ts.take (Rule.classDec.consumed ts)).length = Rule.classDec.consumed ts := by
    rw [List.length_take, Nat.min_eq_left (Rule.classDec.consumed_le ts)]
  constructor
  · have hconsumed := classDec_consumed_append (classDec_completable_consumed ts) t
    rw [hlength, hlate] at hconsumed
    rcases hconsumed with ⟨hl, hc⟩ | ⟨hl, hc⟩
    · rw [hc, hl]
      rfl
    · rw [hc, if_pos (by simpa using hl)]
  · intro hfound
    obtain ⟨hlt, rfl⟩ := List.getElem?_eq_some_iff.mp hfound
    have hwrong := mt (classDec_completable_take_iff hlt).mp (by omega)
    rw [List.take_succ_eq_append_getElem hlt, hlate] at hwrong
    simpa using hwrong

/-- A name that something is assigned to is taken, and a semicolon is found: the message names
    a bracket, and a class goes on with it. -/
theorem classDec_advice_behind_name :
    let ts := [Terminal.keyword .classKw, .identifier, .symbol .lbrace, .keyword .functionKw, .keyword .voidKw,
      .identifier, .symbol .lparen, .symbol .rparen, .symbol .lbrace, .keyword .letKw, .identifier,
      .symbol .semicolon].map Terminal.token
    (∃ span line found, Rule.classDec.parse ts = .error (.parse span line found "expected '[' or '='")) ∧
      Names "expected '[' or '='" (.symbol .lbracket) ∧
      Rule.classDec.consumed (ts.take 11 ++ [Terminal.token (.symbol .lbracket)]) = 12 := by
  intro ts
  have hparse : ∃ span line found, Rule.classDec.parse ts = .error (.parse span line found "expected '[' or '='") :=
    ⟨_, _, _, rfl⟩
  have hnames : Names "expected '[' or '='" (.symbol .lbracket) :=
    Or.inl ⟨by decide, "expected ".toList, " or '='".toList, by decide⟩
  have hk : Rule.classDec.consumed ts = 11 := rfl
  obtain ⟨span, line, found, h⟩ := hparse
  have hadvice := (classDec_advice h (t := Terminal.token (.symbol .lbracket)) hnames).1
  rw [hk, if_neg (by decide)] at hadvice
  exact ⟨⟨span, line, found, h⟩, hnames, hadvice⟩

/-- Behind a subscript the same message names the bracket that was found, and a class does not
    go on with it. -/
theorem classDec_advice_behind_subscript :
    let ts := [Terminal.keyword .classKw, .identifier, .symbol .lbrace, .keyword .functionKw, .keyword .voidKw,
      .identifier, .symbol .lparen, .symbol .rparen, .symbol .lbrace, .keyword .letKw, .identifier,
      .symbol .lbracket, .integerConstant, .symbol .rbracket, .symbol .lbracket].map Terminal.token
    (∃ span line, Rule.classDec.parse ts = .error (.parse span line "'['" "expected '[' or '='")) ∧
      Names "expected '[' or '='" (.symbol .lbracket) ∧ Rule.classDec.consumed ts = 14 ∧
      Rule.classDec.consumed (ts.take 14 ++ [Terminal.token (.symbol .lbracket)]) = 14 := by
  intro ts
  have hnames : Names "expected '[' or '='" (.symbol .lbracket) :=
    Or.inl ⟨by decide, "expected ".toList, " or '='".toList, by decide⟩
  exact ⟨⟨_, _, rfl⟩, hnames, rfl, rfl⟩

end JackAnalyzer.Grammar
