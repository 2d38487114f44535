/-
  JackAnalyzer.Proofs.Grammar.Depth — the bounds that make the runs of rules end are never
  met. A rule enters at most two rules below itself before a token is taken, and each round
  of a loop takes a token, so what is left of the tokens bounds both.
  - `Rule.run_eq`: a rule runs its body, and the rules named in it are run in the same way.
  - `Phrase.run_whileAt`: a loop is a round and the loop again, or nothing.
  - `Phrase.run_congr`: a phrase depends on the rules only for what is left when they are
    entered.
-/

import JackAnalyzer.Grammar.Outcome

namespace JackAnalyzer.Grammar

/-! ## What is entered before a token is taken -/

/-- How many rules may be entered below the rule, one in another, before a token is taken. -/
def Rule.depth : Rule → Nat
  | statements | expression _ => 1
  | expressionList => 2
  | _ => 0

/-- Where the rule ends, it has taken a token. -/
def Rule.takesSome : Rule → Bool
  | parameterList | statements | expressionList => false
  | _ => true

namespace Phrase

def takesSome : Phrase → Bool
  | skip | whileAt .. | ahead .. | atEnd _ => false
  | accept .. | refuse _ => true
  | node r => r.takesSome
  | both p q => p.takesSome || q.takesSome
  | ifAt _ p q => p.takesSome && q.takesSome

def depth : Phrase → Nat
  | skip | accept .. | ahead .. | atEnd _ | refuse _ => 0
  | node r => r.depth + 1
  | both p q => if p.takesSome then p.depth else max p.depth q.depth
  | ifAt _ p q => max p.depth q.depth
  | whileAt _ p => p.depth

end Phrase

theorem Rule.depth_le (r : Rule) : r.depth ≤ 2 := by cases r <;> simp [depth]

theorem Rule.depth_body (r : Rule) : r.body.depth ≤ r.depth := by
  cases r with
  | expression c => cases c <;> decide
  | _ => decide

theorem Rule.takesSome_body {r : Rule} (h : r.takesSome = true) : r.body.takesSome = true := by
  cases r <;> first | rfl | cases h

theorem Phrase.depth_le (p : Phrase) : p.depth ≤ 3 := by
  induction p with
  | node r => have := r.depth_le; simp only [depth]; omega
  | both p q ihp ihq => simp only [depth]; split <;> omega
  | ifAt set p q ihp ihq => simp only [depth]; omega
  | whileAt set p ih => exact ih
  | _ => exact Nat.zero_le _

/-! ## Outcomes -/

namespace Outcome

theorem andThen_eq_done {o : Outcome} {next : List Token → Outcome} {ts : List Tree} {vs : List Token} :
    o.andThen next = done ts vs ↔
      ∃ ts₁ us ts₂, o = done ts₁ us ∧ next us = done ts₂ vs ∧ ts = ts₁ ++ ts₂ := by
  cases o with
  | stop ts' us e => simp [andThen]
  | done ts' us =>
    simp only [andThen]
    cases hn : next us with
    | stop ts'' us' e => simp [hn]
    | done ts'' us' =>
      simp only [done.injEq]
      constructor
      · intro hx
        obtain ⟨rfl, rfl⟩ := hx
        exact ⟨ts', us, ts'', ⟨rfl, rfl⟩, hn, rfl⟩
      · intro hx
        obtain ⟨ts₁, us₁, ts₂, ⟨rfl, rfl⟩, h, rfl⟩ := hx
        rw [hn] at h
        cases h
        exact ⟨rfl, rfl⟩

theorem andThen_congr {o : Outcome} {f g : List Token → Outcome} (h : ∀ ts vs, o = done ts vs → f vs = g vs) :
    o.andThen f = o.andThen g := by
  cases o with
  | stop => rfl
  | done ts vs => simp only [andThen, h ts vs rfl]

theorem wrap_eq_done {o : Outcome} {l : Label} {ts : List Tree} {vs : List Token} :
    o.wrap l = done ts vs ↔ ∃ cs, o = done cs vs ∧ ts = [.node l cs] := by
  cases o with
  | stop => simp [wrap]
  | done cs us =>
    simp only [wrap, done.injEq]
    constructor
    · intro hx
      obtain ⟨rfl, rfl⟩ := hx
      exact ⟨cs, ⟨rfl, rfl⟩, rfl⟩
    · intro hx
      obtain ⟨cs', ⟨rfl, rfl⟩, rfl⟩ := hx
      exact ⟨rfl, rfl⟩

theorem Covers.eq_append {us vs : List Token} {ts : List Tree} (h : (done ts vs).Covers us) :
    us = ts.flatMap Tree.leaves ++ vs := h.symm

theorem Covers.length_le {us vs : List Token} {ts : List Tree} (h : (done ts vs).Covers us) :
    vs.length ≤ us.length := by
  rw [h.eq_append, List.length_append]; omega

end Outcome

/-! ## Tokens are taken -/

/-- What holds of every way to call rules: no token is lost, and one is taken where the rule
    is said to take one. -/
structure Regular (call : Rule → List Token → Outcome) : Prop where
  covers : ∀ r us, (call r us).Covers us
  shorter : ∀ r us ts vs, r.takesSome = true → call r us = .done ts vs → vs.length < us.length

section Regular

variable {call : Rule → List Token → Outcome}

theorem Phrase.run_length_le (hc : Regular call) {p : Phrase} {us vs : List Token} {ts : List Tree}
    (h : p.run call us = .done ts vs) : vs.length ≤ us.length := by
  have hp := Phrase.run_leaves hc.covers p us
  rw [h] at hp
  exact hp.length_le

theorem Phrase.run_length_lt (hc : Regular call) {p : Phrase} (hp : p.takesSome = true) :
    ∀ {us vs : List Token} {ts : List Tree}, p.run call us = .done ts vs → vs.length < us.length := by
  induction p with
  | accept set e =>
    intro us vs ts h
    simp only [run] at h
    split at h
    · cases h
    · split at h
      · cases h; simp
      · cases h
  | node r => intro us vs ts h; exact hc.shorter r us ts vs hp h
  | both p q ihp ihq =>
    intro us vs ts h
    obtain ⟨ts₁, ws, ts₂, h₁, h₂, -⟩ := Outcome.andThen_eq_done.mp h
    have hle₁ := Phrase.run_length_le hc h₁
    have hle₂ := Phrase.run_length_le hc h₂
    rcases Bool.or_eq_true_iff.mp hp with hp | hp
    · have := ihp hp h₁; omega
    · have := ihq hp h₂; omega
  | ifAt set p q ihp ihq =>
    intro us vs ts h
    obtain ⟨hp, hq⟩ := Bool.and_eq_true_iff.mp hp
    simp only [run] at h
    split at h
    · exact ihp hp h
    · exact ihq hq h
  | refuse e => intro us vs ts h; cases h
  | skip | whileAt | ahead | atEnd => cases hp

/-! ## Loops -/

/-- The tokens bound the rounds of a loop: more rounds would not be used. -/
theorem repeatAt_stable {set : List Terminal} {step : List Token → Outcome}
    (hs : ∀ us ts vs, step us = .done ts vs → vs.length < us.length) :
    ∀ (n m : Nat) (us : List Token), us.length ≤ n → us.length ≤ m →
      repeatAt set step n us = repeatAt set step m us := by
  have at_end : ∀ n, repeatAt set step n [] = .done [] [] := by
    intro n
    cases n <;> simp [repeatAt, isAt]
  intro n
  induction n with
  | zero =>
    intro m us hn _
    obtain rfl := List.length_eq_zero_iff.mp (Nat.le_zero.mp hn)
    rw [at_end, at_end]
  | succ n ih =>
    intro m us hn hm
    cases m with
    | zero =>
      obtain rfl := List.length_eq_zero_iff.mp (Nat.le_zero.mp hm)
      rw [at_end, at_end]
    | succ m =>
      simp only [repeatAt]
      split
      · apply Outcome.andThen_congr
        intro ts vs h
        have := hs us ts vs h
        exact ih m vs (by omega) (by omega)
      · rfl

theorem Phrase.run_whileAt (hc : Regular call) {p : Phrase} (hp : p.takesSome = true) (set : List Terminal)
    (us : List Token) :
    (whileAt set p).run call us =
      if isAt set us then (p.run call us).andThen ((whileAt set p).run call) else .done [] us := by
  cases us with
  | nil => simp [run, repeatAt, isAt]
  | cons t us =>
    show repeatAt set (p.run call) (us.length + 1) (t :: us) = _
    simp only [repeatAt]
    split
    · apply Outcome.andThen_congr
      intro ts vs h
      have := Phrase.run_length_lt hc hp h
      exact repeatAt_stable (fun _ _ _ => Phrase.run_length_lt hc hp) _ _ vs (Nat.le_of_lt_succ this) (Nat.le_refl _)
    · rfl

/-- What holds before a loop and is kept by its rounds holds behind it, in front of a token
    that is not in the loop's set. -/
theorem Phrase.run_whileAt_exit (hc : Regular call) {p : Phrase} (hp : p.takesSome = true) {set : List Terminal}
    (inv : List Token → Prop)
    (hs : ∀ us ts vs, isAt set us = true → inv us → p.run call us = .done ts vs → inv vs) :
    ∀ (n : Nat) {us vs : List Token} {ts : List Tree}, us.length ≤ n → inv us →
      (whileAt set p).run call us = .done ts vs → inv vs ∧ isAt set vs = false := by
  intro n
  induction n with
  | zero =>
    intro us vs ts hn hi h
    obtain rfl := List.length_eq_zero_iff.mp (Nat.le_zero.mp hn)
    cases h
    exact ⟨hi, rfl⟩
  | succ n ih =>
    intro us vs ts hn hi h
    rw [run_whileAt hc hp] at h
    split at h
    · rename_i hat
      obtain ⟨ts₁, ws, ts₂, h₁, h₂, -⟩ := Outcome.andThen_eq_done.mp h
      have hlt := Phrase.run_length_lt hc hp h₁
      exact ih (by omega) (hs us ts₁ ws hat hi h₁) h₂
    · rename_i hat
      cases h
      exact ⟨hi, by simpa using hat⟩

end Regular

/-! ## The depth -/

def Rule.callWithin (n : Nat) (r : Rule) (us : List Token) : Outcome := (r.runWithin n us).wrap r.label

theorem Rule.runWithin_succ (n : Nat) (r : Rule) (us : List Token) :
    r.runWithin (n + 1) us = r.body.run (callWithin n) us := rfl

theorem Rule.regular_callWithin (n : Nat) : Regular (callWithin n) := by
  refine ⟨fun r us => Outcome.covers_wrap _ (runWithin_leaves n r us), ?_⟩
  induction n with
  | zero =>
    intro r us ts vs _ h
    obtain ⟨cs, h, -⟩ := Outcome.wrap_eq_done.mp h
    cases h
  | succ n ih =>
    intro r us ts vs hr h
    obtain ⟨cs, h, -⟩ := Outcome.wrap_eq_done.mp h
    have hn : Regular (callWithin n) := ⟨fun r us => Outcome.covers_wrap _ (runWithin_leaves n r us), ih⟩
    exact Phrase.run_length_lt hn (takesSome_body hr) h

theorem repeatAt_congr {set : List Terminal} {f g : List Token → Outcome} {b : Nat}
    (hf : ∀ us ts vs, f us = .done ts vs → vs.length ≤ us.length)
    (h : ∀ us, us.length ≤ b → f us = g us) :
    ∀ (n : Nat) (us : List Token), us.length ≤ b → repeatAt set f n us = repeatAt set g n us := by
  intro n
  induction n with
  | zero => intro us _; rfl
  | succ n ih =>
    intro us hb
    simp only [repeatAt]
    split
    · rw [← h us hb]
      apply Outcome.andThen_congr
      intro ts vs hv
      exact ih vs (Nat.le_trans (hf us ts vs hv) hb)
    · rfl

/-- Two ways to call rules that agree below a bound give a phrase the same run: three for
    each token left, and one for each rule entered before the next is taken. -/
theorem Phrase.run_congr {call call' : Rule → List Token → Outcome} (hc : Regular call) {k : Nat}
    (h : ∀ r us, 3 * us.length + r.depth < k → call r us = call' r us) (p : Phrase) :
    ∀ us, 3 * us.length + p.depth ≤ k → p.run call us = p.run call' us := by
  induction p with
  | node r =>
    intro us hk
    simp only [depth] at hk
    exact h r us (by omega)
  | both p q ihp ihq =>
    intro us hk
    have hp : 3 * us.length + p.depth ≤ k := by simp only [depth] at hk; split at hk <;> omega
    simp only [run]
    rw [← ihp us hp]
    apply Outcome.andThen_congr
    intro ts vs hv
    apply ihq
    have hle := Phrase.run_length_le hc hv
    by_cases hs : p.takesSome = true
    · have hlt := Phrase.run_length_lt hc hs hv
      have hq := q.depth_le
      omega
    · simp only [depth, hs] at hk
      simp only [Bool.false_eq_true, if_false] at hk
      omega
  | ifAt set p q ihp ihq =>
    intro us hk
    simp only [depth] at hk
    simp only [run]
    rw [ihp us (by omega), ihq us (by omega)]
  | whileAt set p ih =>
    intro us hk
    simp only [depth] at hk
    refine repeatAt_congr (fun _ _ _ => Phrase.run_length_le hc) (fun vs hv => ih vs ?_) _ us (Nat.le_refl us.length)
    omega
  | _ => intro us _; rfl

/-- A depth that leaves three for each token, and one for each rule entered before the next is
    taken, is as good as any greater one. -/
theorem Rule.runWithin_stable (n : Nat) : ∀ (m : Nat) (r : Rule) (us : List Token),
    3 * us.length + r.depth < n → 3 * us.length + r.depth < m → r.runWithin n us = r.runWithin m us := by
  induction n with
  | zero => intro m r us h _; omega
  | succ n ih =>
    intro m r us hn hm
    cases m with
    | zero => omega
    | succ m =>
      rw [runWithin_succ, runWithin_succ]
      have hb := r.depth_body
      refine Phrase.run_congr (regular_callWithin n) (k := 3 * us.length + r.depth) (fun r' vs hv => ?_) r.body us
        (by omega)
      simp only [callWithin]
      rw [ih m r' vs (by omega) (by omega)]

/-- A rule run as a part of another: as one node. -/
def Rule.call (r : Rule) (us : List Token) : Outcome := (r.run us).wrap r.label

theorem Rule.callWithin_eq_call {n : Nat} {r : Rule} {us : List Token} (h : 3 * us.length + r.depth < n) :
    callWithin n r us = call r us := by
  have := r.depth_le
  rw [callWithin, call, run, runWithin_stable n (3 * us.length + 3) r us h (by omega)]

theorem Rule.regular_call : Regular call := by
  refine ⟨fun r us => Outcome.covers_wrap _ (run_leaves r us), fun r us ts vs hr h => ?_⟩
  exact (regular_callWithin (3 * us.length + 3)).shorter r us ts vs hr h

/-- A rule runs its body, and the rules named in the body are run in the same way. -/
theorem Rule.run_eq (r : Rule) (us : List Token) : r.run us = r.body.run call us := by
  have hr := r.depth_le
  have hb := r.depth_body
  rw [run, runWithin_succ]
  refine Phrase.run_congr (regular_callWithin _) (k := 3 * us.length + r.depth) (fun r' vs hv => ?_) r.body us
    (by omega)
  exact callWithin_eq_call (by omega)

end JackAnalyzer.Grammar
