/-
  JackAnalyzer.Proofs.Grammar.Stops — where a phrase can stop, and what it has taken and wants
  there. Behind parts that ended, one stops in front of a token; runs and their bounds are left
  out from here on.
  - `Rule.stops_of_run`: a rule that stops does so at such a place.
  - `Phrase.Stops.exists_completion`: what was taken there is the beginning of something that
    the phrase takes.
-/

import JackAnalyzer.Proofs.Grammar.Words

namespace JackAnalyzer.Grammar

namespace Outcome

theorem wrap_eq_stop {o : Outcome} {l : Label} {ts : List Tree} {vs : List Token} {e : Expected}
    (h : o.wrap l = stop ts vs e) : ∃ cs, o = stop cs vs e ∧ ts = [.node l cs] := by
  cases o with
  | done => cases h
  | stop cs us e' =>
    cases h
    exact ⟨cs, rfl, rfl⟩

theorem andThen_eq_stop {o : Outcome} {next : List Token → Outcome} {ts : List Tree} {vs : List Token} {e : Expected}
    (h : o.andThen next = stop ts vs e) :
    o = stop ts vs e ∨ ∃ ts₁ us ts₂, o = done ts₁ us ∧ next us = stop ts₂ vs e ∧ ts = ts₁ ++ ts₂ := by
  cases o with
  | stop ts' us e' => exact Or.inl h
  | done ts' us =>
    simp only [andThen] at h
    cases hn : next us with
    | done ts'' us' => rw [hn] at h; cases h
    | stop ts'' us' e' =>
      rw [hn] at h
      cases h
      exact Or.inr ⟨ts', us, ts'', rfl, hn, rfl⟩

end Outcome

/-- The phrase can stop behind the tokens, wanting something else than what comes next. -/
inductive Phrase.Stops : Phrase → List Token → Expected → Prop
  | accept {set : List Terminal} {e : Expected} : Stops (.accept set e) [] e
  | node {r : Rule} {us : List Token} {e : Expected} : Stops r.body us e → Stops (.node r) us e
  | first {p q : Phrase} {us : List Token} {e : Expected} : Stops p us e → Stops (.both p q) us e
  | second {p q : Phrase} {us vs : List Token} {e : Expected} :
    Takes p us → Stops q vs e → Stops (.both p q) (us ++ vs) e
  | left {set : List Terminal} {p q : Phrase} {us : List Token} {e : Expected} :
    Stops p us e → Stops (.ifAt set p q) us e
  | right {set : List Terminal} {p q : Phrase} {us : List Token} {e : Expected} :
    Stops q us e → Stops (.ifAt set p q) us e
  | round {set : List Terminal} {p : Phrase} {us vs : List Token} {e : Expected} :
    Takes (.whileAt set p) us → Stops p vs e → Stops (.whileAt set p) (us ++ vs) e
  | ahead {set : List Terminal} {e : Expected} : Stops (.ahead set e) [] e
  | atEnd {e : Expected} : Stops (.atEnd e) [] e
  | refuse {e : Expected} : Stops (.refuse e) [] e

theorem Phrase.Stops.behind_round {set : List Terminal} {p : Phrase} {us vs : List Token} {e : Expected}
    (h : (whileAt set p).Stops vs e) (hus : p.Takes us) : (whileAt set p).Stops (us ++ vs) e := by
  cases h with
  | round hloop hstop =>
    rw [← List.append_assoc]
    exact .round (.round hus hloop) hstop

/-! ## Runs stop there -/

/-- A phrase stops where it can, if the rules in it do that are run below a bound: three for
    each token left, and one for each rule entered before the next is taken. -/
theorem Phrase.stops_of_run {k : Nat}
    (hk : ∀ (r : Rule) us, 3 * us.length + r.depth < k → ∀ {ts vs e}, r.call us = .stop ts vs e →
      (node r).Stops (ts.flatMap Tree.leaves) e) (p : Phrase) :
    ∀ us, 3 * us.length + p.depth ≤ k → ∀ {ts vs e}, p.run Rule.call us = .stop ts vs e →
      p.Stops (ts.flatMap Tree.leaves) e := by
  have taken : ∀ {p : Phrase} {us vs : List Token} {ts : List Tree}, p.run Rule.call us = .done ts vs →
      p.Takes (ts.flatMap Tree.leaves) := takes_of_run fun _ _ _ _ => Rule.call_sound
  induction p with
  | skip => intro us _ ts vs e h; cases h
  | accept set e' =>
    intro us _ ts vs e h
    simp only [run] at h
    split at h
    · cases h
      exact .accept
    · split at h <;> cases h
      exact .accept
  | node r =>
    intro us hus ts vs e h
    simp only [depth] at hus
    exact hk r us (by omega) h
  | both p q ihp ihq =>
    intro us hus ts vs e h
    have hp : 3 * us.length + p.depth ≤ k := by simp only [depth] at hus; split at hus <;> omega
    rcases Outcome.andThen_eq_stop h with h | ⟨ts₁, ws, ts₂, h₁, h₂, rfl⟩
    · exact .first (ihp us hp h)
    · have hq : 3 * ws.length + q.depth ≤ k := by
        have hle := run_length_le Rule.regular_call h₁
        have hd := q.depth_le
        cases hs : p.takesSome with
        | true =>
          have hlt := run_length_lt Rule.regular_call hs h₁
          omega
        | false =>
          simp only [depth, hs, Bool.false_eq_true, if_false] at hus
          omega
      rw [List.flatMap_append]
      exact .second (taken h₁) (ihq ws hq h₂)
  | ifAt set p q ihp ihq =>
    intro us hus ts vs e h
    simp only [depth] at hus
    simp only [run] at h
    split at h
    · exact .left (ihp us (by omega) h)
    · exact .right (ihq us (by omega) h)
  | whileAt set p ih =>
    -- The induction is on the rounds that are left.
    suffices ∀ n us, 3 * us.length + p.depth ≤ k → ∀ {ts vs e}, repeatAt set (p.run Rule.call) n us = .stop ts vs e →
        (whileAt set p).Stops (ts.flatMap Tree.leaves) e from fun us hus ts vs e h => this _ us hus h
    intro n
    induction n with
    | zero => intro us _ ts vs e h; cases h
    | succ n ihn =>
      intro us hus ts vs e h
      simp only [repeatAt] at h
      split at h
      · rcases Outcome.andThen_eq_stop h with h | ⟨ts₁, ws, ts₂, h₁, h₂, rfl⟩
        · exact .round .exit (ih us hus h)
        · have hle := run_length_le Rule.regular_call h₁
          rw [List.flatMap_append]
          exact (ihn ws (by omega) h₂).behind_round (taken h₁)
      · cases h
  | ahead set e' | atEnd e' =>
    intro us _ ts vs e h
    simp only [run] at h
    split at h <;> cases h
    constructor
  | refuse e' => intro us _ ts vs e h; cases h; exact .refuse

theorem Rule.stops_of_run {r : Rule} {us vs : List Token} {cs : List Tree} {e : Expected}
    (h : r.run us = .stop cs vs e) : (Phrase.node r).Stops (cs.flatMap Tree.leaves) e := by
  suffices ∀ (k : Nat) (r : Rule) us, 3 * us.length + r.depth < k → ∀ {ts vs e}, r.call us = .stop ts vs e →
      (Phrase.node r).Stops (ts.flatMap Tree.leaves) e by
    have hcall : r.call us = .stop [.node r.label cs] vs e := by rw [call, h]; rfl
    simpa using this _ r us (Nat.lt_succ_self _) hcall
  intro k
  induction k with
  | zero => exact fun r us hk => absurd hk (Nat.not_lt_zero _)
  | succ k ih =>
    intro r us hk ts vs e hcall
    obtain ⟨cs, hrun, rfl⟩ := Outcome.wrap_eq_stop hcall
    rw [run_eq] at hrun
    have hd := r.depth_body
    simpa using Phrase.Stops.node (r.body.stops_of_run ih us (by omega) hrun)

/-! ## What is taken can be completed -/

/-- Where a phrase stops, it has taken nothing, or what it has taken can be completed. -/
theorem Phrase.Stops.exists_completion {p : Phrase} {us : List Token} {e : Expected} (h : p.Stops us e)
    (hp : p.closable = true) : us = [] ∨ ∃ ws, p.Takes (us ++ ws) := by
  induction h with
  | accept | ahead | atEnd | refuse => exact Or.inl rfl
  | @node r us e _ ih => exact (ih r.closable_body).imp_right (Exists.imp fun _ => .node)
  | first _ ih =>
    simp only [closable, Bool.and_eq_true] at hp
    obtain ⟨⟨hp, -⟩, hprod⟩ := hp
    refine (ih hp).imp_right fun hx => ?_
    obtain ⟨ws, hws⟩ := hx
    obtain ⟨ws', hws'⟩ := exists_takes hprod
    exact ⟨ws ++ ws', by rw [← List.append_assoc]; exact .both hws hws'⟩
  | @second p q us vs e hus _ ih =>
    simp only [closable, Bool.and_eq_true] at hp
    obtain ⟨⟨-, hq⟩, hprod⟩ := hp
    have hfinish : ∃ ws, q.Takes (vs ++ ws) := by
      rcases ih hq with rfl | hx
      · exact exists_takes hprod
      · exact hx
    obtain ⟨ws, hws⟩ := hfinish
    exact Or.inr ⟨ws, by rw [List.append_assoc]; exact .both hus hws⟩
  | left _ ih => exact (ih (Bool.and_eq_true_iff.mp hp).1).imp_right (Exists.imp fun _ => .left)
  | right _ ih => exact (ih (Bool.and_eq_true_iff.mp hp).2).imp_right (Exists.imp fun _ => .right)
  | round hus _ ih =>
    rcases ih hp with rfl | ⟨ws, hws⟩
    · exact Or.inr ⟨[], by simpa using hus⟩
    · exact Or.inr ⟨ws, by rw [List.append_assoc]; exact hus.append (.once hws)⟩

theorem Rule.exists_completion {r : Rule} {us : List Token} {e : Expected} (h : (Phrase.node r).Stops us e) :
    ∃ ws, (Phrase.node r).Takes (us ++ ws) := by
  rcases h.exists_completion rfl with rfl | hx
  · exact r.exists_takes
  · exact hx

end JackAnalyzer.Grammar
