/-
  JackAnalyzer.Proofs.Grammar.Children — the children of a node, read from the left by a machine
  that steps from state to state by what the productions call them. Where the machine can be
  behind a phrase is computed from the phrase, and of a loop it is checked that a second round
  leads nowhere new. So what holds of every row of children that a rule builds is told by running
  the machine on the rule's body.
  - `Derivation.readRow_mem_ends`: where the machine is behind the children of a node.
  - `Rule.exists_call`: which rule built a node among the children, told by where the machine was
    in front of it.
-/

import JackAnalyzer.Proofs.Grammar.Derivation
import JackAnalyzer.Proofs.Tree.Addresses

namespace JackAnalyzer.Grammar

variable {σ : Type}

def readRow (step : σ → Constituent → σ) (s : σ) (ts : List Tree) : σ := ts.foldl (fun s t => step s t.constituent) s

section

variable (step : σ → Constituent → σ)

@[simp] theorem readRow_nil (s : σ) : readRow step s [] = s := rfl

@[simp] theorem readRow_cons (s : σ) (t : Tree) (ts : List Tree) :
    readRow step s (t :: ts) = readRow step (step s t.constituent) ts := rfl

theorem readRow_append (s : σ) (ts us : List Tree) : readRow step s (ts ++ us) = readRow step (readRow step s ts) us :=
  List.foldl_append

namespace Phrase

/-- Where the machine can be behind the phrase, if it is at one of the states in front of it.
    Rounds of a loop are counted up to one. -/
def ends : Phrase → List σ → List σ
  | skip, S | ahead .., S | atEnd _, S => S
  | refuse _, _ => []
  | accept set _, S => S.flatMap fun s => set.map fun x => step s (.token x)
  | node r, S => S.map fun s => step s (.node r.label)
  | both p q, S => q.ends (p.ends S)
  | ifAt _ p q, S => p.ends S ++ q.ends S
  | whileAt _ p, S => S ++ p.ends S

variable [DecidableEq σ]

/-- A second round of a loop leads nowhere that one or none does not lead. -/
def settled : Phrase → List σ → Bool
  | both p q, S => p.settled S && q.settled (p.ends step S)
  | ifAt _ p q, S => p.settled S && q.settled S
  | whileAt _ p, S =>
    let loop := S ++ p.ends step S
    p.settled loop && (p.ends step loop).all loop.contains
  | _, _ => true

/-- The rules that the phrase enters, each with the states that the machine can be at there. -/
def calls : Phrase → List σ → List (σ × Rule)
  | node r, S => S.map (·, r)
  | both p q, S => p.calls S ++ q.calls (p.ends step S)
  | ifAt _ p q, S => p.calls S ++ q.calls S
  | whileAt _ p, S => p.calls (S ++ p.ends step S)
  | _, _ => []

end Phrase

end

/-! ## Behind a row -/

section

variable {step : σ → Constituent → σ}

theorem readRow_flatten_mem {S : List σ} : ∀ {rounds : List (List Tree)},
    (∀ us ∈ rounds, ∀ s ∈ S, readRow step s us ∈ S) → ∀ {s}, s ∈ S → readRow step s rounds.flatten ∈ S := by
  intro rounds
  induction rounds with
  | nil => exact fun _ _ hs => hs
  | cons us rounds ih =>
    intro h s hs
    rw [List.flatten_cons, readRow_append]
    exact ih (fun vs hv => h vs (List.mem_cons_of_mem _ hv)) (h us List.mem_cons_self s hs)

theorem Phrase.ends_subset_of_settled [DecidableEq σ] {set : List Terminal} {p : Phrase} {S : List σ}
    (h : (whileAt set p).settled step S = true) :
    p.settled step (S ++ p.ends step S) = true ∧ p.ends step (S ++ p.ends step S) ⊆ S ++ p.ends step S := by
  obtain ⟨hp, hall⟩ := Bool.and_eq_true_iff.mp h
  exact ⟨hp, fun s hs => List.contains_iff_mem.mp (List.all_eq_true.mp hall s hs)⟩

/-- Behind a row that a phrase can take, the machine is where the phrase says. -/
theorem Phrase.readRow_mem_ends [DecidableEq σ] (p : Phrase) : ∀ {S : List σ} {s : σ} {ts : List Tree},
    p.settled step S = true → s ∈ S → ts.map Tree.constituent ∈ p.shape.matches' →
      readRow step s ts ∈ p.ends step S := by
  induction p with
  | skip | ahead | atEnd =>
    intro S s ts _ hs h
    obtain rfl := List.map_eq_nil_iff.mp ((Language.mem_one _).mp h)
    exact hs
  | accept set e =>
    intro S s ts _ hs h
    obtain ⟨t, rfl, ht⟩ := map_constituent_mem_oneOf.mp h
    exact List.mem_flatMap.mpr ⟨s, hs, List.mem_map.mpr ⟨t.terminal, ht, rfl⟩⟩
  | node r =>
    intro S s ts _ hs h
    obtain ⟨t, rfl, ht⟩ := map_constituent_mem_char.mp h
    exact List.mem_map.mpr ⟨s, hs, by rw [readRow_cons, ht, readRow_nil]⟩
  | both p q ihp ihq =>
    intro S s ts hset hs h
    obtain ⟨hp, hq⟩ := Bool.and_eq_true_iff.mp hset
    obtain ⟨us, vs, rfl, hu, hv⟩ := map_constituent_mem_mul.mp h
    rw [readRow_append]
    exact ihq hq (ihp hp hs hu) hv
  | ifAt set p q ihp ihq =>
    intro S s ts hset hs h
    obtain ⟨hp, hq⟩ := Bool.and_eq_true_iff.mp hset
    rcases h with h | h
    · exact List.mem_append_left _ (ihp hp hs h)
    · exact List.mem_append_right _ (ihq hq hs h)
  | whileAt set p ih =>
    intro S s ts hset hs h
    obtain ⟨hp, hloop⟩ := ends_subset_of_settled hset
    obtain ⟨rounds, rfl, hrounds⟩ := map_constituent_mem_star.mp h
    exact readRow_flatten_mem (S := S ++ p.ends step S) (fun us hu s hs => hloop (ih hp hs (hrounds us hu)))
      (List.mem_append_left _ hs)
  | refuse e =>
    intro S s ts _ _ h
    cases h

theorem Derivation.readRow_mem_ends [DecidableEq σ] {cs : List Tree} {r : Rule} (h : Derivation (.node r.label cs))
    {s : σ} (hset : r.body.settled step [s] = true) : readRow step s cs ∈ r.body.ends step [s] := by
  cases h with
  | node row _ =>
    refine r.body.readRow_mem_ends hset (List.mem_singleton_self s) ?_
    rw [r.shape_body]
    exact row

theorem Derivation.of_at? {t u : Tree} (h : Derivation t) {path : List Nat} (hu : t.at? path = some u) :
    Derivation u := by
  induction path generalizing t with
  | nil => cases hu; exact h
  | cons i path ih =>
    obtain ⟨c, hc, hcu⟩ := Tree.at?_cons_eq_some_iff.mp hu
    cases h with
    | leaf x => cases hc
    | node row below => exact ih (below c (List.mem_of_getElem? hc)) hcu

/-! ## In front of a node -/

/-- From the states of `S` it comes to those of `T`, and it leaves what it does not take. -/
def Leads (step : σ → Constituent → σ) (S T : List σ) (f : List Token → Outcome) : Prop :=
  ∀ s ∈ S, ∀ us ts vs, f us = .done ts vs → readRow step s ts ∈ T ∧ vs = us.drop (ts.flatMap Tree.leaves).length

/-- Each node that it builds is what a rule takes there, and the rule stands in `A` with the state
    in front of the node, from any state of `S`. -/
def Enters (step : σ → Constituent → σ) (S : List σ) (A : List (σ × Rule)) (f : List Token → Outcome) : Prop :=
  ∀ s ∈ S, ∀ us front l cs back vs, f us = .done (front ++ .node l cs :: back) vs →
    ∃ r ws, (readRow step s front, r) ∈ A ∧ r.call (us.drop (front.flatMap Tree.leaves).length) = .done [.node l cs] ws

theorem Enters.subset {S : List σ} {A B : List (σ × Rule)} {f : List Token → Outcome} (h : Enters step S A f)
    (hAB : A ⊆ B) : Enters step S B f := by
  intro s hs us front l cs back vs hf
  obtain ⟨r, ws, hr, hcall⟩ := h s hs us front l cs back vs hf
  exact ⟨r, ws, hAB hr, hcall⟩

theorem enters_of_leaves {S : List σ} {f : List Token → Outcome}
    (h : ∀ us ts vs, f us = .done ts vs → ∀ l cs, .node l cs ∉ ts) : Enters step S [] f :=
  fun _ _ us _ l cs _ vs hf => absurd (List.mem_append_right _ List.mem_cons_self) (h us _ vs hf l cs)

theorem append_cons_eq_append {ts us front back : List Tree} {t : Tree} (h : front ++ t :: back = ts ++ us) :
    (∃ more, ts = front ++ t :: more) ∨ ∃ more, front = ts ++ more ∧ us = more ++ t :: back := by
  rcases List.append_eq_append_iff.mp h with ⟨more, hts, hback⟩ | ⟨more, hfront, hus⟩
  · cases more with
    | nil => exact Or.inr ⟨[], by simpa using hts.symm, by simpa using hback.symm⟩
    | cons u more => cases hback; exact Or.inl ⟨more, hts⟩
  · exact Or.inr ⟨more, hfront, hus⟩

theorem Enters.andThen {S T : List σ} {A B : List (σ × Rule)} {f g : List Token → Outcome} (hf : Enters step S A f)
    (hlead : Leads step S T f) (hg : Enters step T B g) : Enters step S (A ++ B) fun us => (f us).andThen g := by
  intro s hs us front l cs back vs h
  obtain ⟨ts₁, ws, ts₂, h₁, h₂, hts⟩ := Outcome.andThen_eq_done.mp h
  rcases append_cons_eq_append hts with ⟨more, rfl⟩ | ⟨more, rfl, rfl⟩
  · obtain ⟨r, rest, hr, hcall⟩ := hf s hs us front l cs more ws h₁
    exact ⟨r, rest, List.mem_append_left _ hr, hcall⟩
  · obtain ⟨hT, rfl⟩ := hlead s hs us ts₁ ws h₁
    obtain ⟨r, rest, hr, hcall⟩ := hg _ hT _ more l cs back vs h₂
    refine ⟨r, rest, List.mem_append_right _ (readRow_append step s ts₁ more ▸ hr), ?_⟩
    rw [List.flatMap_append, List.length_append, ← List.drop_drop]
    exact hcall

theorem repeatAt_enters {S : List σ} {A : List (σ × Rule)} {set : List Terminal} {f : List Token → Outcome}
    (hf : Enters step S A f) (hlead : Leads step S S f) (n : Nat) : Enters step S A (repeatAt set f n) := by
  have hnone : Enters step S A fun us => .done [] us :=
    (enters_of_leaves fun us ts vs h l cs => by cases h; simp).subset (List.nil_subset A)
  induction n with
  | zero => exact hnone
  | succ n ih =>
    intro s hs us front l cs back vs h
    rw [repeatAt] at h
    split at h
    · exact (hf.andThen hlead ih).subset (by simp) s hs us front l cs back vs h
    · exact hnone s hs us front l cs back vs h

theorem Phrase.row_of_run {p : Phrase} {us vs : List Token} {ts : List Tree} (h : p.run Rule.call us = .done ts vs) :
    ts.map Tree.constituent ∈ p.shape.matches' :=
  (p.run_sound (fun _ _ _ _ => Rule.call_sound) us ts vs h).1

theorem Phrase.leads [DecidableEq σ] (p : Phrase) {S : List σ} (h : p.settled step S = true) :
    Leads step S (p.ends step S) (p.run Rule.call) := by
  intro s hs us ts vs hrun
  have hcov := p.run_leaves Rule.regular_call.covers us
  rw [hrun] at hcov
  refine ⟨p.readRow_mem_ends h hs (row_of_run hrun), ?_⟩
  rw [hcov.eq_append, List.drop_left]

theorem Phrase.enters [DecidableEq σ] (p : Phrase) : ∀ {S : List σ}, p.settled step S = true →
    Enters step S (p.calls step S) (p.run Rule.call) := by
  induction p with
  | skip | ahead | atEnd =>
    refine fun _ => enters_of_leaves fun us ts vs h l cs => ?_
    obtain rfl := List.map_eq_nil_iff.mp ((Language.mem_one _).mp (row_of_run h))
    exact List.not_mem_nil
  | accept set e =>
    refine fun _ => enters_of_leaves fun us ts vs h l cs => ?_
    obtain ⟨t, rfl, -⟩ := map_constituent_mem_oneOf.mp (row_of_run h)
    simp
  | refuse e => exact fun _ => enters_of_leaves fun us ts vs h => by cases h
  | node r =>
    intro S _ s hs us front l cs back vs h
    obtain ⟨t, ht, -⟩ := Rule.call_sound h
    obtain ⟨rfl, rfl⟩ : front = [] ∧ back = [] := by
      have hlength := congrArg List.length ht
      simp only [List.length_append, List.length_cons, List.length_nil] at hlength
      exact ⟨List.eq_nil_of_length_eq_zero (by omega), List.eq_nil_of_length_eq_zero (by omega)⟩
    exact ⟨r, vs, List.mem_map.mpr ⟨s, hs, rfl⟩, h⟩
  | both p q ihp ihq =>
    intro S hset
    obtain ⟨hp, hq⟩ := Bool.and_eq_true_iff.mp hset
    exact (ihp hp).andThen (p.leads hp) (ihq hq)
  | ifAt set p q ihp ihq =>
    intro S hset s hs us front l cs back vs h
    obtain ⟨hp, hq⟩ := Bool.and_eq_true_iff.mp hset
    simp only [run] at h
    split at h
    · exact (ihp hp).subset (List.subset_append_left _ _) s hs us front l cs back vs h
    · exact (ihq hq).subset (List.subset_append_right _ _) s hs us front l cs back vs h
  | whileAt set p ih =>
    intro S hset s hs us
    obtain ⟨hp, hloop⟩ := ends_subset_of_settled hset
    have hlead : Leads step (S ++ p.ends step S) (S ++ p.ends step S) (p.run Rule.call) := by
      intro s hs us ts vs h
      obtain ⟨hends, hrest⟩ := p.leads hp s hs us ts vs h
      exact ⟨hloop hends, hrest⟩
    exact repeatAt_enters (ih hp) hlead us.length s (List.mem_append_left _ hs) us

/-- A node among the children of a rule's node is what a rule takes at its place: one that the
    body enters where the machine was in front of the node. -/
theorem Rule.exists_call [DecidableEq σ] {r : Rule} {s : σ} (hset : r.body.settled step [s] = true) {us vs : List Token}
    {front back cs : List Tree} {l : Label} (h : r.run us = .done (front ++ .node l cs :: back) vs) :
    ∃ r' ws, (readRow step s front, r') ∈ r.body.calls step [s] ∧ l = r'.label ∧
      r'.run (us.drop (front.flatMap Tree.leaves).length) = .done cs ws := by
  rw [run_eq] at h
  obtain ⟨r', ws, hr', hcall⟩ := r.body.enters hset s (List.mem_singleton_self s) us front l cs back vs h
  obtain ⟨ds, hrun, heq⟩ := Outcome.wrap_eq_done.mp hcall
  cases heq
  exact ⟨r', ws, hr', rfl, hrun⟩

end

end JackAnalyzer.Grammar
