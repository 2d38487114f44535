/-
  JackAnalyzer.Proofs.Grammar.Places — every node of a tree is what the rule of its label takes at
  the node's own place, on tokens that begin there. The context of an expression goes by the node
  around it and by the token in front of it.
  - `Rule.run_at`: so it is for the nodes that any rule builds.
  - `classDec_nodes_alone`: so it is for a class.
-/

import JackAnalyzer.Proofs.Grammar.Children
import JackAnalyzer.Proofs.Grammar.Conservation
import JackAnalyzer.Proofs.Grammar.Exactness
import JackAnalyzer.Proofs.Grammar.Words
import JackAnalyzer.Proofs.Tree.Addresses

namespace JackAnalyzer

open Grammar

/-- The terminal of the last child, where that is a token. -/
def Tree.lastTerminal (ts : List Tree) : Option Terminal := (ts.getLast?.bind token?).map Token.terminal

/-- Where an expression stands in a node of a label, with a token directly in front of it there or
    with none. -/
def Context.within (parent : Label) (front : Option Terminal) : Context :=
  match parent, front with
  | .ifStatement, _ | .whileStatement, _ => .condition
  | .expressionList, _ => .argument
  | _, some (.symbol .lbracket) => .index
  | .term, _ => .parenthesized
  | _, _ => .statement

/-- The context of the part at an address, in a tree that stands in the context `own`. -/
def Tree.contextAt (own : Context) (t : Tree) : List Nat → Context
  | [] => own
  | i :: path =>
    match t, t.children[i]? with
    | .node l cs, some c => c.contextAt (.within l (lastTerminal (cs.take i))) path
    | _, _ => own

theorem Tree.contextAt_cons (own : Context) {l : Label} {cs : List Tree} {i : Nat} {c : Tree} (h : cs[i]? = some c)
    (path : List Nat) :
    (node l cs).contextAt own (i :: path) = c.contextAt (.within l (lastTerminal (cs.take i))) path := by
  simp [contextAt, children, h]

namespace Grammar

/-! ## The token in front -/

def lastStep : Option Terminal → Constituent → Option Terminal
  | _, .token x => some x
  | _, .node _ => none

theorem readRow_lastStep (ts : List Tree) : readRow lastStep none ts = Tree.lastTerminal ts := by
  rcases List.eq_nil_or_concat ts with rfl | ⟨front, t, rfl⟩
  · rfl
  · rw [List.concat_eq_append, readRow_append, Tree.lastTerminal, List.getLast?_concat]
    cases t <;> rfl

/-- The context in which a rule enters another is told by its own label and by the token in
    front. -/
theorem Rule.calls_body (r : Rule) : r.body.settled lastStep [none] = true ∧
    ∀ x ∈ r.body.calls lastStep [none], x.2 = Rule.ofLabel (.within r.label x.1) x.2.label := by
  cases r with
  | expression c => cases c <;> decide +kernel
  | _ => decide +kernel

/-! ## A node at its own place -/

/-- A node of what a rule builds is what the rule of the node's label takes from the tokens at the
    node's place. -/
theorem Rule.run_at : ∀ {path : List Nat} {r : Rule} (own : Context) {us vs : List Token} {cs ds : List Tree}
    {l : Label},
    r.run us = .done cs vs → r = Rule.ofLabel own r.label → (Tree.node r.label cs).at? path = some (.node l ds) →
      ∃ ws, (Rule.ofLabel ((Tree.node r.label cs).contextAt own path) l).run
        (us.drop ((Tree.node r.label cs).before path)) = .done ds ws := by
  intro path
  induction path with
  | nil =>
    intro r own us vs cs ds l hrun hown hat
    cases hat
    exact ⟨vs, hown ▸ hrun⟩
  | cons i path ih =>
    intro r own us vs cs ds l hrun hown hat
    obtain ⟨c, hc, hat⟩ := Tree.at?_cons_eq_some_iff.mp hat
    have hcs : cs = cs.take i ++ c :: cs.drop (i + 1) := Tree.children_eq_append hc
    cases c with
    | leaf t => cases path <;> cases hat
    | node l' es =>
      obtain ⟨hset, hcalls⟩ := r.calls_body
      obtain ⟨r', ws, hr', rfl, hrun'⟩ := exists_call hset (hcs ▸ hrun)
      have hown' := hcalls _ hr'
      rw [readRow_lastStep] at hown'
      obtain ⟨rest, hrest⟩ := ih _ hrun' hown' hat
      refine ⟨rest, ?_⟩
      rw [Tree.contextAt_cons own (show cs[i]? = some _ from hc), Tree.before_cons hc, ← List.drop_drop]
      exact hrest

theorem Rule.Yields.position {rule : Rule} {c : Cursor} {tree : Tree} {rest : List Token}
    (h : rule.Yields c tree rest) : (rule.apply c).2.position = c.position + tree.leaves.length := by
  obtain ⟨cs, rfl, hrun⟩ := yields_iff.mp h
  rw [apply_position, hrun, Outcome.taken, Tree.leavesAll_eq_flatMap, Tree.leaves_node]
  rfl

/-- Every node of a class is what the rule of its label answers on the tokens from the node's own
    place on, an expression in the context of that place, and the rule passes as many tokens as
    the node has leaves. -/
theorem classDec_nodes_alone (ts : List Token) (tree : Tree) (h : Rule.classDec.parse ts = .ok tree) (path : List Nat)
    (own : Context) (label : Label) (children : List Tree) (hnode : tree.at? path = some (.node label children)) :
    let node := Tree.node label children
    let answer := (Rule.ofLabel (tree.contextAt own path) label).apply (.ofTokens (ts.drop (tree.before path)))
    answer.1 = .ok node ∧ answer.2.position = node.leaves.length := by
  intro node answer
  obtain ⟨cs, rest, rfl, hrun⟩ := Rule.parse_eq_ok_iff.mp h
  obtain ⟨ws, hnode⟩ := Rule.run_at own hrun rfl hnode
  have hyields : (Rule.ofLabel ((Tree.node .classDec cs).contextAt own path) label).Yields
      (.ofTokens (ts.drop ((Tree.node .classDec cs).before path))) node ws :=
    Rule.yields_iff.mpr ⟨children, by rw [Rule.label_ofLabel], hnode⟩
  exact ⟨hyields.1, hyields.position.trans (Nat.zero_add _)⟩

/-- The expression between the brackets of a value that a method returns. -/
theorem classDec_nodes_alone_subscript :
    let ts := [Terminal.keyword .classKw, .identifier, .symbol .lbrace, .keyword .methodKw, .keyword .intKw,
      .identifier, .symbol .lparen, .symbol .rparen, .symbol .lbrace, .keyword .returnKw, .identifier,
      .symbol .lbracket, .identifier, .symbol .rbracket, .symbol .semicolon, .symbol .rbrace,
      .symbol .rbrace].map Terminal.token
    let path := [3, 6, 1, 0, 1, 0, 2]
    ∃ tree children, Rule.classDec.parse ts = .ok tree ∧ tree.at? path = some (.node .expression children) ∧
      tree.contextAt .statement path = .index ∧
        ((Rule.expression .index).apply (.ofTokens (ts.drop 12))).1 = .ok (.node .expression children) := by
  intro ts path
  obtain ⟨tree, children, h, hnode, hcontext, hbefore⟩ : ∃ tree children, Rule.classDec.parse ts = .ok tree ∧
      tree.at? path = some (.node .expression children) ∧ tree.contextAt .statement path = .index ∧
        tree.before path = 12 := ⟨_, _, rfl, rfl, rfl, rfl⟩
  have halone := (classDec_nodes_alone ts tree h path .statement .expression children hnode).1
  rw [hcontext, hbefore] at halone
  exact ⟨tree, children, h, hnode, hcontext, halone⟩

end Grammar

end JackAnalyzer
