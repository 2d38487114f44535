/-
  JackAnalyzer.Proofs.Grammar.NextToken — a run depends on the tokens that it takes and on the
  terminal of the one behind them, and on nothing else. With other tokens behind that one, the
  same are taken, and the answer is the same.
  - `Phrase.run_looksAtNext`: so it is for a phrase, if it is for the rules in it.
  - `Rule.run_next`: so it is for every rule.
-/

import JackAnalyzer.Proofs.Grammar.Lookahead

namespace JackAnalyzer.Grammar

/-! ## A run depends on the next token only -/

def Outcome.withRest (us : List Token) : Outcome → Outcome
  | done ts _ => done ts us
  | stop ts _ e => stop ts us e

/-- What is run takes the same and answers the same in front of any tokens that begin alike. -/
def LooksAtNext (f : List Token → Outcome) : Prop :=
  ∀ us vs, next vs = next (f us).rest → f ((f us).trees.flatMap Tree.leaves ++ vs) = (f us).withRest vs

theorem next_append_congr (ts : List Token) {us vs : List Token} (h : next us = next vs) :
    next (ts ++ us) = next (ts ++ vs) := by
  cases ts with
  | nil => exact h
  | cons t ts => rfl

namespace LooksAtNext

variable {f g : List Token → Outcome}

theorem next_input (hc : ∀ us, (f us).Covers us) {us vs : List Token} (h : next vs = next (f us).rest) :
    next ((f us).trees.flatMap Tree.leaves ++ vs) = next us := by
  have hcov := hc us
  unfold Outcome.Covers at hcov
  conv => rhs; rw [← hcov]
  exact next_append_congr _ h

theorem wrap (l : Label) (hf : LooksAtNext f) : LooksAtNext fun us => (f us).wrap l := by
  intro us vs h
  have hus := hf us vs
  cases hfus : f us with
  | stop ts ws e =>
    simp only [hfus, Outcome.wrap, Outcome.trees, Outcome.rest, Outcome.withRest, List.flatMap_cons, List.flatMap_nil,
      Tree.leaves_node, List.append_nil] at hus h ⊢
    rw [hus h]
  | done ts ws =>
    simp only [hfus, Outcome.wrap, Outcome.trees, Outcome.rest, Outcome.withRest, List.flatMap_cons, List.flatMap_nil,
      Tree.leaves_node, List.append_nil] at hus h ⊢
    rw [hus h]

theorem andThen (hf : LooksAtNext f) (hg : LooksAtNext g) (hc : ∀ us, (g us).Covers us) :
    LooksAtNext fun us => (f us).andThen g := by
  intro us vs h
  cases hfus : f us with
  | stop ts ws e =>
    have hus := hf us vs
    simp only [hfus, Outcome.andThen, Outcome.trees, Outcome.rest] at hus h ⊢
    rw [hus h]
    rfl
  | done ts ws =>
    -- What is taken second is what the first is in front of.
    have hg := hg ws vs
    have hnext : next vs = next (g ws).rest → next ((g ws).trees.flatMap Tree.leaves ++ vs) = next ws :=
      next_input hc
    have hf := hf us ((g ws).trees.flatMap Tree.leaves ++ vs)
    cases hgws : g ws with
    | stop ts' ws' e =>
      simp only [hfus, hgws, Outcome.andThen, Outcome.trees, Outcome.rest, List.flatMap_append, List.append_assoc]
        at hf hg hnext h ⊢
      rw [hf (hnext h)]
      simp only [Outcome.withRest, hg h]
    | done ts' ws' =>
      simp only [hfus, hgws, Outcome.andThen, Outcome.trees, Outcome.rest, List.flatMap_append, List.append_assoc]
        at hf hg hnext h ⊢
      rw [hf (hnext h)]
      simp only [Outcome.withRest, hg h]

theorem ite (set : List Terminal) (hf : LooksAtNext f) (hg : LooksAtNext g) (hcf : ∀ us, (f us).Covers us)
    (hcg : ∀ us, (g us).Covers us) : LooksAtNext fun us => if isAt set us then f us else g us := by
  intro us vs h
  dsimp only at h ⊢
  split at h
  · rename_i hat
    rw [if_pos hat, isAt_eq, next_input hcf h, ← isAt_eq, if_pos hat]
    exact hf us vs h
  · rename_i hat
    rw [if_neg hat, isAt_eq, next_input hcg h, ← isAt_eq, if_neg hat]
    exact hg us vs h

end LooksAtNext

theorem looksAtNext_done : LooksAtNext fun us => .done [] us := fun _ _ _ => rfl

theorem looksAtNext_stop (e : Expected) : LooksAtNext fun us => .stop [] us e := fun _ _ _ => rfl

theorem repeatAt_looksAtNext {set : List Terminal} {step : List Token → Outcome} (hs : LooksAtNext step)
    (hc : ∀ us, (step us).Covers us) (n : Nat) : LooksAtNext (repeatAt set step n) := by
  induction n with
  | zero => exact looksAtNext_done
  | succ n ih =>
    refine .ite set (hs.andThen ih (repeatAt_covers hc n)) looksAtNext_done (fun us => ?_) fun us => rfl
    exact Outcome.covers_andThen (hc us) (repeatAt_covers hc n)

/-- A phrase looks at the next token only if the rules that it names do. -/
theorem Phrase.run_looksAtNext {call : Rule → List Token → Outcome} (hc : Regular call)
    (hl : ∀ r, LooksAtNext (call r)) (p : Phrase) : ∀ {follow}, p.fits follow = true → LooksAtNext (p.run call) := by
  have covers := Phrase.run_leaves hc.covers
  induction p with
  | skip => exact fun _ => looksAtNext_done
  | accept set e =>
    intro follow _ us vs h
    cases us with
    | nil =>
      cases vs with
      | nil => rfl
      | cons v vs => cases h
    | cons t us =>
      simp only [run] at h ⊢
      split at h
      · rename_i hin
        simp only [hin, if_true, Outcome.trees, List.flatMap_cons, List.flatMap_nil, Tree.leaves_leaf, List.append_nil,
          List.singleton_append]
        rfl
      · rename_i hout
        cases vs with
        | nil => cases h
        | cons v vs =>
          have hv : v.terminal = t.terminal := Option.some.inj h
          rw [if_neg hout]
          show (if set.contains v.terminal then _ else _) = Outcome.stop [] (v :: vs) e
          rw [hv, if_neg hout]
          rfl
  | node r => exact fun _ => hl r
  | both p q ihp ihq =>
    intro follow hf
    obtain ⟨hfp, hfq⟩ := Bool.and_eq_true_iff.mp hf
    exact (ihp hfp).andThen (ihq hfq) (covers q)
  | ifAt set p q ihp ihq =>
    intro follow hf
    simp only [fits, Bool.and_eq_true] at hf
    exact .ite set (ihp hf.1.2) (ihq hf.2) (covers p) (covers q)
  | whileAt set p ih =>
    intro follow hf us vs h
    simp only [fits, Bool.and_eq_true] at hf
    obtain ⟨⟨⟨hts, -⟩, -⟩, hfp⟩ := hf
    -- Both runs are runs of as many rounds as there are tokens in both inputs.
    have hlong : ∀ n ws, ws.length ≤ n → (whileAt set p).run call ws = repeatAt set (p.run call) n ws :=
      fun n ws hn => repeatAt_stable (fun _ _ _ => Phrase.run_length_lt hc hts) _ n ws (Nat.le_refl _) hn
    generalize hws : ((whileAt set p).run call us).trees.flatMap Tree.leaves ++ vs = ws
    have hrounds : LooksAtNext (repeatAt set (p.run call) (us.length + ws.length)) :=
      repeatAt_looksAtNext (ih hfp) (covers p) _
    have hround := hrounds us vs
    rw [← hlong _ us (by omega), hws, ← hlong _ ws (by omega)] at hround
    exact hround h
  | ahead set e =>
    exact fun _ => .ite set looksAtNext_done (looksAtNext_stop e) (fun _ => rfl) fun _ => rfl
  | atEnd e =>
    intro follow _ us vs h
    cases us with
    | nil =>
      cases vs with
      | nil => rfl
      | cons v vs => cases h
    | cons t us =>
      cases vs with
      | nil => cases h
      | cons v vs => rfl
  | refuse e => exact fun _ => looksAtNext_stop e

theorem Rule.runWithin_looksAtNext (n : Nat) : ∀ r : Rule, LooksAtNext (r.runWithin n) := by
  induction n with
  | zero => exact fun r => looksAtNext_stop _
  | succ n ih =>
    exact fun r => r.body.run_looksAtNext (regular_callWithin n) (fun r' => (ih r').wrap r'.label) r.fits_body

/-- A rule takes the same and answers the same in front of any tokens that begin alike. -/
theorem Rule.run_next (r : Rule) : LooksAtNext r.run := by
  intro us vs h
  have hr := r.depth_le
  -- The depth of both runs is enough for either input.
  have hdeep : ∀ n ws, 3 * ws.length + 3 ≤ n → r.run ws = r.runWithin n ws :=
    fun n ws hn => runWithin_stable _ n r ws (by omega) (by omega)
  generalize hws : (r.run us).trees.flatMap Tree.leaves ++ vs = ws
  have hrun := runWithin_looksAtNext (3 * us.length + 3 * ws.length + 3) r us vs
  rw [← hdeep _ us (by omega), hws, ← hdeep _ ws (by omega)] at hrun
  exact hrun h

end JackAnalyzer.Grammar
