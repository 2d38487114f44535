/-
  JackAnalyzer.Proofs.Grammar.Renaming — a rule looks at the terminals of tokens only. Where a
  renaming of tokens keeps terminals, a rule takes the renamed tokens as it took the tokens,
  and builds the renamed trees.
  - `Rule.run_map`: a rule run on renamed tokens.
  - `Rule.parse_of_map_eq`: tokens that are renamed to the same are parsed alike.
-/

import JackAnalyzer.Proofs.Grammar.Exactness

namespace JackAnalyzer

namespace Tree

mutual

def map (f : Token → Token) : Tree → Tree
  | leaf t => leaf (f t)
  | node l cs => node l (mapAll f cs)

def mapAll (f : Token → Token) : List Tree → List Tree
  | [] => []
  | t :: ts => map f t :: mapAll f ts

end

theorem mapAll_eq_map (f : Token → Token) (ts : List Tree) : mapAll f ts = ts.map (map f) := by
  induction ts with
  | nil => rfl
  | cons t ts ih => simp [mapAll, ih]

@[simp] theorem map_leaf (f : Token → Token) (t : Token) : (leaf t).map f = leaf (f t) := by simp [map]

@[simp] theorem map_node (f : Token → Token) (l : Label) (cs : List Tree) :
    (node l cs).map f = node l (cs.map (map f)) := by
  simp [map, mapAll_eq_map]

mutual

theorem leaves_map (f : Token → Token) : ∀ t : Tree, (t.map f).leaves = t.leaves.map f
  | leaf t => by simp
  | node l cs => by
    rw [map, leaves, leaves]
    exact leavesAll_mapAll f cs

theorem leavesAll_mapAll (f : Token → Token) : ∀ ts : List Tree, leavesAll (mapAll f ts) = (leavesAll ts).map f
  | [] => rfl
  | t :: ts => by rw [mapAll, leavesAll, leavesAll, List.map_append, leaves_map f t, leavesAll_mapAll f ts]

end

end Tree

namespace Grammar

def Outcome.map (f : Token → Token) : Outcome → Outcome
  | .done ts us => .done (ts.map (Tree.map f)) (us.map f)
  | .stop ts us e => .stop (ts.map (Tree.map f)) (us.map f) e

section Renaming

variable {f : Token → Token} (hf : ∀ t, (f t).terminal = t.terminal)

theorem Outcome.map_wrap (l : Label) (o : Outcome) : (o.map f).wrap l = (o.wrap l).map f := by
  cases o <;> simp [wrap, map]

theorem Outcome.map_andThen {o : Outcome} {g : List Token → Outcome} (hg : ∀ vs, g (vs.map f) = (g vs).map f) :
    (o.map f).andThen g = (o.andThen g).map f := by
  cases o with
  | stop ts us e => rfl
  | done ts us =>
    simp only [map, andThen, hg]
    cases g us <;> simp

include hf

theorem isAt_map (set : List Terminal) (us : List Token) : isAt set (us.map f) = isAt set us := by
  cases us with
  | nil => rfl
  | cons t us => simp only [List.map_cons, isAt, hf]

theorem repeatAt_map {set : List Terminal} {step : List Token → Outcome}
    (hs : ∀ us, step (us.map f) = (step us).map f) :
    ∀ n us, repeatAt set step n (us.map f) = (repeatAt set step n us).map f := by
  intro n
  induction n with
  | zero => exact fun us => rfl
  | succ n ih =>
    intro us
    simp only [repeatAt, isAt_map hf]
    split
    · rw [hs, Outcome.map_andThen ih]
    · rfl

theorem Phrase.run_map {call : Rule → List Token → Outcome} (hc : ∀ r us, call r (us.map f) = (call r us).map f)
    (p : Phrase) : ∀ us, p.run call (us.map f) = (p.run call us).map f := by
  induction p with
  | skip => exact fun us => rfl
  | accept set e =>
    intro us
    cases us with
    | nil => rfl
    | cons t us =>
      simp only [run, List.map_cons, hf]
      split
      · simp [Outcome.map]
      · rfl
  | node r => exact hc r
  | both p q ihp ihq =>
    intro us
    simp only [run]
    rw [ihp, Outcome.map_andThen ihq]
  | ifAt set p q ihp ihq =>
    intro us
    simp only [run, isAt_map hf]
    split
    · exact ihp us
    · exact ihq us
  | whileAt set p ih =>
    intro us
    simp only [run, List.length_map]
    exact repeatAt_map hf ih us.length us
  | ahead set e =>
    intro us
    simp only [run, isAt_map hf]
    split <;> rfl
  | atEnd e =>
    intro us
    simp only [run, List.isEmpty_map]
    split <;> rfl
  | refuse e => exact fun us => rfl

theorem Rule.runWithin_map : ∀ n (r : Rule) us, r.runWithin n (us.map f) = (r.runWithin n us).map f := by
  intro n
  induction n with
  | zero => exact fun r us => rfl
  | succ n ih =>
    intro r us
    refine Phrase.run_map hf (fun r vs => ?_) r.body us
    rw [ih, Outcome.map_wrap]

/-- A rule takes renamed tokens as it takes the tokens. -/
theorem Rule.run_map (r : Rule) (us : List Token) : r.run (us.map f) = (r.run us).map f := by
  unfold run
  rw [List.length_map]
  exact runWithin_map hf _ r us

theorem Rule.parse_of_map_eq {r : Rule} {ts us : List Token} (h : us.map f = ts.map f) {tree : Tree}
    (ht : r.parse ts = .ok tree) : ∃ tree', r.parse us = .ok tree' ∧ tree'.map f = tree.map f := by
  obtain ⟨cs, rest, rfl, hrun⟩ := parse_eq_ok_iff.mp ht
  have hmap : (r.run us).map f = (r.run ts).map f := by rw [← run_map hf, ← run_map hf, h]
  rw [hrun] at hmap
  cases hrun' : r.run us with
  | stop ts' us' e =>
    rw [hrun'] at hmap
    cases hmap
  | done cs' rest' =>
    rw [hrun'] at hmap
    have hcs : cs'.map (Tree.map f) = cs.map (Tree.map f) := (Outcome.done.inj hmap).1
    exact ⟨.node r.label cs', parse_eq_ok_iff.mpr ⟨cs', rest', rfl, hrun'⟩, by rw [Tree.map_node, Tree.map_node, hcs]⟩

end Renaming

end Grammar

end JackAnalyzer
