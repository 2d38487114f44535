/-
  JackAnalyzer.Proofs.Grammar.Words — the rows of tokens that a phrase takes, without trees. A
  rule named in a phrase counts by its body, and a decision by either of its branches.
  - `Phrase.takes_node_iff`: a rule takes the leaves of the derivation trees of its label.
  - `Rule.exists_takes`: every rule takes something, and one of a rank something that has rules
    of lower ranks in it only.
  - `Rule.exists_takes_first`: what a rule is said to start with, something that it takes
    starts with.
-/

import JackAnalyzer.Proofs.Grammar.Lookahead

namespace JackAnalyzer

def Terminal.token : Terminal → Token
  | keyword k => ⟨.keyword k, k.text, default, 1⟩
  | symbol s => ⟨.symbol s, s.text, default, 1⟩
  | integerConstant => ⟨.integerConstant 0, "0", default, 1⟩
  | stringConstant => ⟨.stringConstant, "", default, 1⟩
  | identifier => ⟨.identifier, "x", default, 1⟩

@[simp] theorem Terminal.terminal_token (t : Terminal) : t.token.terminal = t := by cases t <;> rfl

namespace Grammar

/-- The tokens are a row that the phrase takes. -/
inductive Phrase.Takes : Phrase → List Token → Prop
  | skip : Takes .skip []
  | accept {set : List Terminal} {e : Expected} {t : Token} : t.terminal ∈ set → Takes (.accept set e) [t]
  | node {r : Rule} {us : List Token} : Takes r.body us → Takes (.node r) us
  | both {p q : Phrase} {us vs : List Token} : Takes p us → Takes q vs → Takes (.both p q) (us ++ vs)
  | left {set : List Terminal} {p q : Phrase} {us : List Token} : Takes p us → Takes (.ifAt set p q) us
  | right {set : List Terminal} {p q : Phrase} {us : List Token} : Takes q us → Takes (.ifAt set p q) us
  | exit {set : List Terminal} {p : Phrase} : Takes (.whileAt set p) []
  | round {set : List Terminal} {p : Phrase} {us vs : List Token} :
    Takes p us → Takes (.whileAt set p) vs → Takes (.whileAt set p) (us ++ vs)
  | ahead {set : List Terminal} {e : Expected} : Takes (.ahead set e) []
  | atEnd {e : Expected} : Takes (.atEnd e) []

namespace Phrase

/-! ## Words and derivation trees -/

/-- What a phrase takes are the leaves of trees that it can take. -/
theorem Takes.exists_trees {p : Phrase} {us : List Token} (h : p.Takes us) :
    ∃ ts : List Tree, ts.map Tree.constituent ∈ p.shape.matches' ∧ (∀ t ∈ ts, Derivation t) ∧
      ts.flatMap Tree.leaves = us := by
  induction h with
  | skip | ahead | atEnd => exact ⟨[], Language.nil_mem_one, by simp, rfl⟩
  | @accept set e t ht =>
    exact ⟨[.leaf t], map_constituent_mem_oneOf.mpr ⟨t, rfl, ht⟩, by simpa using Derivation.leaf t, by simp⟩
  | @node r us _ ih =>
    obtain ⟨cs, hrow, hbelow, rfl⟩ := ih
    rw [r.shape_body] at hrow
    refine ⟨[.node r.label cs], map_constituent_mem_char.mpr ⟨_, rfl, rfl⟩, ?_, by simp⟩
    simpa using Derivation.node hrow hbelow
  | both _ _ ihp ihq =>
    obtain ⟨ts, hs, hd, rfl⟩ := ihp
    obtain ⟨ts', hs', hd', rfl⟩ := ihq
    exact ⟨ts ++ ts', map_constituent_mem_mul.mpr ⟨ts, ts', rfl, hs, hs'⟩, List.forall_mem_append.mpr ⟨hd, hd'⟩,
      List.flatMap_append⟩
  | left _ ih =>
    obtain ⟨ts, hs, hd, rfl⟩ := ih
    exact ⟨ts, Or.inl hs, hd, rfl⟩
  | right _ ih =>
    obtain ⟨ts, hs, hd, rfl⟩ := ih
    exact ⟨ts, Or.inr hs, hd, rfl⟩
  | exit => exact ⟨[], Language.nil_mem_kstar _, by simp, rfl⟩
  | round _ _ ihp ih =>
    obtain ⟨ts, hs, hd, rfl⟩ := ihp
    obtain ⟨_, hs', hd', rfl⟩ := ih
    obtain ⟨rounds, rfl, hr⟩ := map_constituent_mem_star.mp hs'
    exact ⟨ts ++ rounds.flatten, map_constituent_mem_star.mpr ⟨ts :: rounds, rfl, List.forall_mem_cons.mpr ⟨hs, hr⟩⟩,
      List.forall_mem_append.mpr ⟨hd, hd'⟩, List.flatMap_append⟩

/-- The leaves of trees that a phrase can take are what it takes, if for each tree they are
    what the rules of its label take. -/
theorem takes_leaves (p : Phrase) : ∀ {ts : List Tree}, ts.map Tree.constituent ∈ p.shape.matches' →
    (∀ t ∈ ts, ∀ r : Rule, t.constituent = .node r.label → (Phrase.node r).Takes t.leaves) →
      p.Takes (ts.flatMap Tree.leaves) := by
  induction p with
  | skip | ahead | atEnd =>
    intro ts h _
    obtain rfl := List.map_eq_nil_iff.mp ((Language.mem_one _).mp h)
    constructor
  | accept set e =>
    intro ts h _
    obtain ⟨t, rfl, ht⟩ := map_constituent_mem_oneOf.mp h
    simpa using Takes.accept ht
  | node r =>
    intro ts h hts
    obtain ⟨t, rfl, ht⟩ := map_constituent_mem_char.mp h
    simpa using hts t List.mem_cons_self r ht
  | both p q ihp ihq =>
    intro ts h hts
    obtain ⟨us, vs, rfl, hu, hv⟩ := map_constituent_mem_mul.mp h
    obtain ⟨hus, hvs⟩ := List.forall_mem_append.mp hts
    rw [List.flatMap_append]
    exact .both (ihp hu hus) (ihq hv hvs)
  | ifAt set p q ihp ihq =>
    intro ts h hts
    rcases h with h | h
    · exact .left (ihp h hts)
    · exact .right (ihq h hts)
  | whileAt set p ih =>
    intro ts h hts
    obtain ⟨rounds, rfl, hw⟩ := map_constituent_mem_star.mp h
    clear h
    induction rounds with
    | nil => exact .exit
    | cons us rounds ihr =>
      obtain ⟨hu, hrounds⟩ := List.forall_mem_cons.mp hw
      obtain ⟨hus, hvs⟩ := List.forall_mem_append.mp hts
      rw [List.flatten_cons, List.flatMap_append]
      exact .round (ih hu hus) (ihr hrounds hvs)
  | refuse e => intro ts h; cases h

/-- A rule takes the leaves of the derivation trees of its label. -/
theorem takes_node_iff {r : Rule} {us : List Token} :
    (Phrase.node r).Takes us ↔ ∃ t, Derives r.label t ∧ t.leaves = us := by
  constructor
  · intro h
    obtain ⟨ts, hs, hd, rfl⟩ := h.exists_trees
    obtain ⟨t, rfl, ht⟩ := map_constituent_mem_char.mp hs
    exact ⟨t, ⟨ht, hd t List.mem_cons_self⟩, by simp⟩
  · intro hx
    obtain ⟨t, ⟨ht, hd⟩, rfl⟩ := hx
    induction hd generalizing r with
    | leaf t => cases ht
    | @node l cs row _ ih =>
      cases ht
      rw [← r.shape_body] at row
      rw [Tree.leaves_node]
      exact .node (r.body.takes_leaves row fun t htc r' ht => ih t htc ht)

theorem takes_of_run {call : Rule → List Token → Outcome}
    (hc : ∀ r us ts vs, call r us = .done ts vs → ∃ t, ts = [t] ∧ Derives r.label t) {p : Phrase} {us vs : List Token}
    {ts : List Tree} (h : p.run call us = .done ts vs) : p.Takes (ts.flatMap Tree.leaves) := by
  obtain ⟨hs, hd⟩ := run_sound hc p us ts vs h
  exact p.takes_leaves hs fun t ht r hr => takes_node_iff.mpr ⟨t, ⟨hr, hd t ht⟩, rfl⟩

/-! ## Words of a shape -/

theorem takes_accept_iff {set : List Terminal} {e : Expected} {us : List Token} :
    (accept set e).Takes us ↔ ∃ t : Token, us = [t] ∧ t.terminal ∈ set := by
  constructor
  · intro h
    cases h with
    | accept ht => exact ⟨_, rfl, ht⟩
  · intro hx
    obtain ⟨t, rfl, ht⟩ := hx
    exact .accept ht

theorem Takes.once {set : List Terminal} {p : Phrase} {us : List Token} (h : p.Takes us) : (whileAt set p).Takes us := by
  simpa using Takes.round h .exit

theorem Takes.append {set : List Terminal} {p : Phrase} {us vs : List Token} (h : (whileAt set p).Takes us)
    (hv : (whileAt set p).Takes vs) : (whileAt set p).Takes (us ++ vs) := by
  generalize hw : whileAt set p = w at h
  induction h with
  | exit =>
    cases hw
    exact hv
  | round hp _ _ ih =>
    cases hw
    rw [List.append_assoc]
    exact .round hp (ih rfl)
  | _ => cases hw

theorem Takes.last_round {set : List Terminal} {p : Phrase} {us : List Token} (h : (whileAt set p).Takes us) :
    us = [] ∨ ∃ vs ws, us = vs ++ ws ∧ p.Takes ws := by
  generalize hw : whileAt set p = w at h
  induction h with
  | exit => exact Or.inl rfl
  | @round _ _ us vs hp _ _ ih =>
    cases hw
    rcases ih rfl with rfl | ⟨vs, ws, rfl, hws⟩
    · exact Or.inr ⟨[], us, by simp, hp⟩
    · exact Or.inr ⟨us ++ vs, ws, (List.append_assoc _ _ _).symm, hws⟩
  | _ => cases hw

theorem Takes.ne_nil {p : Phrase} {us : List Token} (h : p.Takes us) (hp : p.takesSome = true) : us ≠ [] := by
  induction h with
  | accept => exact List.cons_ne_nil _ _
  | node _ ih => exact ih (Rule.takesSome_body hp)
  | both _ _ ihp ihq =>
    rw [Ne, List.append_eq_nil_iff, not_and_or]
    exact (Bool.or_eq_true_iff.mp hp).imp ihp ihq
  | left _ ih => exact ih (Bool.and_eq_true_iff.mp hp).1
  | right _ ih => exact ih (Bool.and_eq_true_iff.mp hp).2
  | _ => cases hp

theorem Takes.last {p : Phrase} : ∀ (ps : List Phrase) {us : List Token}, (row (ps ++ [p])).Takes us →
    ∃ vs ws, us = vs ++ ws ∧ p.Takes ws := by
  intro ps
  induction ps with
  | nil =>
    intro us h
    cases h with
    | both hp hskip =>
      cases hskip
      exact ⟨[], _, by simp, hp⟩
  | cons q ps ih =>
    intro us h
    cases h with
    | @both _ _ us vs _ hrow =>
      obtain ⟨vs', ws, rfl, hp⟩ := ih hrow
      exact ⟨us ++ vs', ws, (List.append_assoc _ _ _).symm, hp⟩

end Phrase

/-! ## Every rule takes something -/

/-- A rule takes something that has rules of a lower rank in it only. -/
def Rule.rank : Rule → Nat
  | letStatement | ifStatement | whileStatement | subroutineDec => 2
  | expression _ | doStatement | subroutineBody => 1
  | _ => 0

/-- The phrase takes something that has rules of a rank below `n` in it only. -/
def Phrase.productive (n : Nat) : Phrase → Bool
  | refuse _ => false
  | accept set _ => !set.isEmpty
  | node r => r.rank < n
  | both p q => p.productive n && q.productive n
  | ifAt _ p q => p.productive n || q.productive n
  | skip | whileAt .. | ahead .. | atEnd _ => true

theorem Rule.rank_lt (r : Rule) : r.rank < 3 := by cases r <;> simp [rank]

theorem Rule.productive_body (r : Rule) : r.body.productive r.rank = true := by
  cases r with
  | expression c => cases c <;> decide
  | _ => decide

theorem Phrase.exists_takes_of_rank {n : Nat} (hn : ∀ r : Rule, r.rank < n → ∃ us, (node r).Takes us) (p : Phrase) :
    p.productive n = true → ∃ us, p.Takes us := by
  induction p with
  | skip | ahead | atEnd => exact fun _ => ⟨[], by constructor⟩
  | whileAt => exact fun _ => ⟨[], .exit⟩
  | accept set e =>
    intro h
    cases set with
    | nil => cases h
    | cons t set => exact ⟨[t.token], .accept (by simp)⟩
  | node r => exact fun h => hn r (of_decide_eq_true h)
  | both p q ihp ihq =>
    intro h
    obtain ⟨hp, hq⟩ := Bool.and_eq_true_iff.mp h
    obtain ⟨us, hus⟩ := ihp hp
    obtain ⟨vs, hvs⟩ := ihq hq
    exact ⟨us ++ vs, .both hus hvs⟩
  | ifAt set p q ihp ihq =>
    intro h
    rcases Bool.or_eq_true_iff.mp h with hp | hq
    · exact (ihp hp).imp fun us => .left
    · exact (ihq hq).imp fun us => .right
  | refuse e => exact fun h => nomatch h

theorem Rule.exists_takes (r : Rule) : ∃ us, (Phrase.node r).Takes us := by
  suffices ∀ n (r : Rule), r.rank < n → ∃ us, (Phrase.node r).Takes us from this 3 r r.rank_lt
  intro n
  induction n with
  | zero => exact fun r h => absurd h (Nat.not_lt_zero _)
  | succ n ih =>
    intro r h
    obtain ⟨us, hus⟩ := r.body.exists_takes_of_rank (fun r' h' => ih r' (by omega)) r.productive_body
    exact ⟨us, .node hus⟩

theorem Phrase.exists_takes {p : Phrase} (h : p.productive 3 = true) : ∃ us, p.Takes us :=
  p.exists_takes_of_rank (fun r _ => r.exists_takes) h

/-- Whatever is still wanted behind a part of the phrase can be had. -/
def Phrase.closable : Phrase → Bool
  | both p q => p.closable && q.closable && q.productive 3
  | ifAt _ p q => p.closable && q.closable
  | whileAt _ p => p.closable
  | _ => true

theorem Rule.closable_body (r : Rule) : r.body.closable = true := by
  cases r with
  | expression c => cases c <;> decide
  | _ => decide

/-! ## What a rule takes starts with each of its first tokens -/

theorem Rule.takes_nil {r : Rule} (h : r.takesSome = false) : (Phrase.node r).Takes [] := by
  cases r with
  | parameterList | expressionList => exact .node (.left .skip)
  | statements => exact .node .exit
  | _ => cases h

theorem Phrase.takes_nil {p : Phrase} (h : p.takesSome = false) : p.Takes [] := by
  induction p with
  | skip | whileAt | ahead | atEnd => constructor
  | accept | refuse => cases h
  | node r => exact r.takes_nil h
  | both p q ihp ihq =>
    obtain ⟨hp, hq⟩ := Bool.or_eq_false_iff.mp h
    exact .both (ihp hp) (ihq hq)
  | ifAt set p q ihp ihq =>
    rcases Bool.and_eq_false_iff.mp h with hp | hq
    · exact .left (ihp hp)
    · exact .right (ihq hq)

theorem Rule.first_subset_body (r : Rule) : r.first ⊆ r.body.first := by
  cases r with
  | expression c => cases c <;> decide
  | _ => decide

theorem Phrase.exists_takes_first_of_depth {n : Nat}
    (hn : ∀ r : Rule, r.depth < n → ∀ t : Token, t.terminal ∈ r.first → ∃ us, (node r).Takes (t :: us)) (p : Phrase) :
    p.depth ≤ n → p.closable = true → ∀ t : Token, t.terminal ∈ p.first → ∃ us, p.Takes (t :: us) := by
  induction p with
  | skip | ahead | atEnd | refuse => exact fun _ _ t ht => nomatch ht
  | accept set e => exact fun _ _ t ht => ⟨[], .accept ht⟩
  | node r => exact fun hd _ t ht => hn r hd t ht
  | both p q ihp ihq =>
    intro hd hcl t ht
    simp only [closable, Bool.and_eq_true] at hcl
    obtain ⟨⟨hp, hq⟩, hprod⟩ := hcl
    simp only [depth] at hd
    rcases List.mem_append.mp ht with ht | ht
    · obtain ⟨us, hus⟩ := ihp (by split at hd <;> omega) hp t ht
      obtain ⟨vs, hvs⟩ := exists_takes hprod
      exact ⟨us ++ vs, .both hus hvs⟩
    · cases hs : p.takesSome with
      | true => simp [hs] at ht
      | false =>
        simp only [hs, Bool.false_eq_true, if_false] at ht hd
        obtain ⟨us, hus⟩ := ihq (by omega) hq t ht
        exact ⟨us, .both (takes_nil hs) hus⟩
  | ifAt set p q ihp ihq =>
    intro hd hcl t ht
    obtain ⟨hp, hq⟩ := Bool.and_eq_true_iff.mp hcl
    simp only [depth] at hd
    rcases List.mem_append.mp ht with ht | ht
    · exact (ihp (by omega) hp t ht).imp fun us => .left
    · exact (ihq (by omega) hq t ht).imp fun us => .right
  | whileAt set p ih =>
    intro hd hcl t ht
    exact (ih hd hcl t ht).imp fun us => .once

theorem Rule.exists_takes_first (r : Rule) : ∀ t : Token, t.terminal ∈ r.first →
    ∃ us, (Phrase.node r).Takes (t :: us) := by
  suffices ∀ n (r : Rule), r.depth < n → ∀ t : Token, t.terminal ∈ r.first → ∃ us, (Phrase.node r).Takes (t :: us) from
    this 3 r (Nat.lt_succ_of_le r.depth_le)
  intro n
  induction n with
  | zero => exact fun r h => absurd h (Nat.not_lt_zero _)
  | succ n ih =>
    intro r h t ht
    have hbody := r.body.exists_takes_first_of_depth ih (by have := r.depth_body; omega) r.closable_body t
      (r.first_subset_body ht)
    exact hbody.imp fun us => .node

theorem Phrase.exists_takes_first {p : Phrase} (h : p.closable = true) {t : Token} (ht : t.terminal ∈ p.first) :
    ∃ us, p.Takes (t :: us) :=
  p.exists_takes_first_of_depth (n := 4) (fun r _ => r.exists_takes_first) (by have := p.depth_le; omega) h t ht

end Grammar

end JackAnalyzer
