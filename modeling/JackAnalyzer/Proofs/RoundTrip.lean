/-
  JackAnalyzer.Proofs.RoundTrip — trees written out as text. A derivation tree of a class with
  well formed tokens, written out with single spaces, compiles to itself, places aside; and
  every tree that compiles is such a tree.
  - `compile_round_trip`: both.
-/

import JackAnalyzer.Proofs.Grammar.Renaming
import JackAnalyzer.Proofs.Token.Printing

namespace JackAnalyzer

/-- The text of a tree: its tokens as they are written, single spaces between them. -/
def Tree.printed (tree : Tree) : String := String.ofList (Token.printed tree.leaves)

/-- The tree without the places of its tokens. -/
def Tree.unplaced (tree : Tree) : Tree := tree.map Token.unplaced

namespace SourceUnit

open Grammar

theorem compile_eq_ok_iff {source : String} {u : SourceUnit} :
    compile source = .ok u ↔ tokenize source = .ok u.tokens ∧ Rule.classDec.parse u.tokens = .ok u.tree := by
  obtain ⟨us, tree⟩ := u
  unfold compile ofTokens
  cases tokenize source with
  | error e => simp [bind, Except.bind]
  | ok ts =>
    simp only [bind, Except.bind, Except.ok.injEq]
    cases h : Rule.classDec.parse ts with
    | error e =>
      constructor
      · intro h
        cases h
      · intro hu
        obtain ⟨rfl, h'⟩ := hu
        rw [h] at h'
        cases h'
    | ok tree' =>
      constructor
      · intro h'
        cases h'
        exact ⟨rfl, h⟩
      · intro hu
        obtain ⟨rfl, h'⟩ := hu
        rw [h] at h'
        cases h'
        rfl

/-- A derivation tree with well formed tokens compiles from its text. -/
theorem compile_printed {tree : Tree} (hd : Derives .classDec tree) (hw : ∀ t ∈ tree.leaves, t.WellFormed) :
    ∃ u, compile tree.printed = .ok u ∧ u.tree.unplaced = tree.unplaced := by
  obtain ⟨us, hus, hmap⟩ := Token.tokensFrom_printed hw []
  obtain ⟨tree', hparse, htree⟩ := Rule.parse_of_map_eq (f := Token.unplaced) (fun _ => rfl) hmap
    (classDec_parse_iff.mpr ⟨hd, rfl⟩)
  refine ⟨⟨us, tree'⟩, compile_eq_ok_iff.mpr ⟨?_, hparse⟩, htree⟩
  rw [Tree.printed, Token.tokenize_ofList, hus]

theorem derives_of_compile {source : String} {u : SourceUnit} (h : compile source = .ok u) :
    Derives .classDec u.tree ∧ ∀ t ∈ u.tree.leaves, t.WellFormed := by
  obtain ⟨htokens, hparse⟩ := compile_eq_ok_iff.mp h
  obtain ⟨hd, hleaves⟩ := classDec_parse_iff.mp hparse
  rw [Token.tokenize_eq_tokensFrom] at htokens
  exact ⟨hd, hleaves ▸ Token.wellFormed_of_tokensFrom [] source.toList htokens⟩

/-- Compiling undoes writing out: a derivation tree of a class with well formed tokens compiles
    from its text to itself, places aside. What compiles from any text is such a tree, so it
    compiles again from its own. -/
theorem compile_round_trip :
    (∀ tree : Tree, Derives .classDec tree → (∀ t ∈ tree.leaves, t.WellFormed) →
      ∃ u, compile tree.printed = .ok u ∧ u.tree.unplaced = tree.unplaced) ∧
    ∀ (source : String) (u : SourceUnit), compile source = .ok u →
      Derives .classDec u.tree ∧ (∀ t ∈ u.tree.leaves, t.WellFormed) ∧
        ∃ u', compile u.tree.printed = .ok u' ∧ u'.tree.unplaced = u.tree.unplaced := by
  refine ⟨fun tree hd hw => compile_printed hd hw, fun source u h => ?_⟩
  obtain ⟨hd, hw⟩ := derives_of_compile h
  exact ⟨hd, hw, compile_printed hd hw⟩

/-- A class with a subroutine, written close together. -/
theorem compile_round_trip_subroutine :
    let source := "class A\x7bmethod int f(int x)\x7breturn -x+1;\x7d\x7d"
    ∃ u, compile source = .ok u ∧ Derives .classDec u.tree ∧ (∀ t ∈ u.tree.leaves, t.WellFormed) ∧
      ∃ u', compile u.tree.printed = .ok u' ∧ u'.tree.unplaced = u.tree.unplaced := by
  intro source
  have hok : (compile source).toOption.isSome = true := by decide +kernel
  cases hu : compile source with
  | error e =>
    rw [hu] at hok
    cases hok
  | ok u =>
    obtain ⟨hd, hw, -⟩ := compile_round_trip.2 source u hu
    exact ⟨u, rfl, hd, hw, compile_round_trip.1 u.tree hd hw⟩

end SourceUnit

end JackAnalyzer
