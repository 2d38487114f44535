/-
  JackAnalyzer.Proofs.Grammar.Delimiters — brackets close within the node that they open in. Read
  from the left with a stack of those that are open, each closing bracket among the leaves of a
  tree closes the innermost open one, and that one is of its kind and a child of the same node.
  - `Derivation.nested_row`: the brackets among the children of one node.
  - `Derivation.nested_owned`: those of a whole tree, each with the node that it is a child of.
  - `delimiters_close_within_node`: both, of any tree that a rule answers.
-/

import JackAnalyzer.Proofs.Grammar.Children
import JackAnalyzer.Proofs.Grammar.Exactness
import JackAnalyzer.Proofs.Grammar.Words

namespace JackAnalyzer

/-! ## Nested words -/

inductive Delimiter (α : Type) where
  | opening (label : α)
  | closing (label : α)
  deriving DecidableEq, Repr

namespace Delimiter

variable {α β : Type}

def map (f : α → β) : Delimiter α → Delimiter β
  | opening a => opening (f a)
  | closing a => closing (f a)

theorem map_id (w : List (Delimiter α)) : w.map (map id) = w := by
  have h : (map id : Delimiter α → Delimiter α) = id := by funext d; cases d <;> rfl
  rw [h, List.map_id]

variable [DecidableEq α] [DecidableEq β]

/-- The labels of the open brackets behind one more bracket, the innermost first. A closing bracket
    closes the innermost open one and must have its label. -/
def take : Delimiter α → List α → Option (List α)
  | opening a, stack => some (a :: stack)
  | closing a, b :: stack => if a = b then some stack else none
  | closing _, [] => none

def takeAll (w : List (Delimiter α)) (stack : List α) : Option (List α) := w.foldlM (fun s d => d.take s) stack

/-- Each closing bracket closes what it must, and none is left open. -/
def Nested (w : List (Delimiter α)) : Prop := takeAll w [] = some []

instance (w : List (Delimiter α)) : Decidable (Nested w) := inferInstanceAs (Decidable (_ = _))

@[simp] theorem takeAll_nil (stack : List α) : takeAll [] stack = some stack := rfl

@[simp] theorem takeAll_cons (d : Delimiter α) (w : List (Delimiter α)) (stack : List α) :
    takeAll (d :: w) stack = (d.take stack).bind (takeAll w) := rfl

theorem takeAll_append (v w : List (Delimiter α)) (stack : List α) :
    takeAll (v ++ w) stack = (takeAll v stack).bind (takeAll w) := List.foldlM_append

/-- What is open further out does not count, and labels may lose what told them apart. -/
theorem take_map_append (f : α → β) {d : Delimiter α} {stack next : List α} (h : d.take stack = some next)
    (outer : List β) : (d.map f).take (stack.map f ++ outer) = some (next.map f ++ outer) := by
  cases d with
  | opening a => cases h; rfl
  | closing a =>
    cases stack with
    | nil => cases h
    | cons b stack =>
      simp only [take] at h
      split at h
      · rename_i hab
        cases h
        simp [map, take, hab]
      · cases h

theorem takeAll_map_append (f : α → β) {w : List (Delimiter α)} : ∀ {stack next : List α},
    takeAll w stack = some next → ∀ outer,
      takeAll (w.map (map f)) (stack.map f ++ outer) = some (next.map f ++ outer) := by
  induction w with
  | nil => intro stack next h outer; cases h; rfl
  | cons d w ih =>
    intro stack next h outer
    obtain ⟨mid, hd, hw⟩ := Option.bind_eq_some_iff.mp h
    rw [List.map_cons, takeAll_cons, take_map_append f hd, Option.bind_some, ih hw]

theorem Nested.takeAll_eq {w : List (Delimiter α)} (h : Nested w) (stack : List α) : takeAll w stack = some stack := by
  simpa [map_id] using takeAll_map_append id h stack

theorem Nested.map (f : α → β) {w : List (Delimiter α)} (h : Nested w) : Nested (w.map (Delimiter.map f)) := by
  simpa [Nested] using takeAll_map_append f h []

end Delimiter

open Delimiter

/-! ## The brackets of tokens -/

inductive Fence where
  | round
  | square
  | curly
  deriving DecidableEq, Repr

def Terminal.delimiter? : Terminal → Option (Delimiter Fence)
  | .symbol .lparen => some (.opening .round)
  | .symbol .rparen => some (.closing .round)
  | .symbol .lbracket => some (.opening .square)
  | .symbol .rbracket => some (.closing .square)
  | .symbol .lbrace => some (.opening .curly)
  | .symbol .rbrace => some (.closing .curly)
  | _ => none

def Token.delimiters (ts : List Token) : List (Delimiter Fence) := ts.filterMap fun t => t.terminal.delimiter?

/-- The brackets among leaves that have addresses, each with the address of the node around it. -/
def Token.ownedDelimiters (ts : List (List Nat × Token)) : List (Delimiter (List Nat × Fence)) :=
  ts.filterMap fun t => t.2.terminal.delimiter?.map (.map (Prod.mk t.1.dropLast))

def Tree.ownedDelimiters (t : Tree) : List (Delimiter (List Nat × Fence)) := Token.ownedDelimiters (t.addressed [])

theorem Token.map_snd_ownedDelimiters (ts : List (List Nat × Token)) :
    (ownedDelimiters ts).map (Delimiter.map Prod.snd) = delimiters (ts.map Prod.snd) := by
  rw [ownedDelimiters, delimiters, List.map_filterMap, List.filterMap_map]
  congr 1
  funext t
  cases h : t.2.terminal.delimiter? with
  | none => simp [h]
  | some d => cases d <;> simp [h, Delimiter.map]

namespace Grammar

/-! ## The children of a node -/

/-- Keeps the kinds of the brackets that are open among the children, as long as they are nested. -/
def delimiterStep (stack : Option (List Fence)) : Constituent → Option (List Fence)
  | .token x =>
    match x.delimiter? with
    | some d => stack.bind d.take
    | none => stack
  | .node _ => stack

theorem Rule.ends_delimiterStep (r : Rule) : r.body.settled delimiterStep [some []] = true ∧
    ∀ s ∈ r.body.ends delimiterStep [some []], s = some [] := by
  cases r with
  | expression c => cases c <;> decide +kernel
  | _ => decide +kernel

theorem readRow_delimiterStep (ts : List Tree) : ∀ stack, readRow delimiterStep stack ts =
    stack.bind (takeAll (Token.delimiters (ts.filterMap Tree.token?))) := by
  induction ts with
  | nil => intro stack; cases stack <;> rfl
  | cons t ts ih =>
    intro stack
    rw [readRow_cons, ih]
    cases t with
    | node l cs => rfl
    | leaf x =>
      simp only [List.filterMap_cons, Tree.token?, Token.delimiters, Tree.constituent, delimiterStep]
      cases x.terminal.delimiter? with
      | none => rfl
      | some d => exact Option.bind_assoc ..

theorem Derivation.nested_row {l : Label} {cs : List Tree} (h : Derivation (.node l cs)) :
    Nested (Token.delimiters (cs.filterMap Tree.token?)) := by
  obtain ⟨hset, hends⟩ := (Rule.ofLabel .statement l).ends_delimiterStep
  rw [← Rule.label_ofLabel .statement l] at h
  have hread := hends _ (h.readRow_mem_ends hset)
  rwa [readRow_delimiterStep] at hread

/-! ## All leaves -/

/-- Among children that are nested, those that are nodes do not change what is open. -/
theorem takeAll_ownedDelimiters {path : List Nat} {ts : List Tree}
    (hnodes : ∀ l cs, .node l cs ∈ ts → ∀ path, Nested (Token.ownedDelimiters ((Tree.node l cs).addressed path))) :
    ∀ {i : Nat} (stack : List Fence) {next}, takeAll (Token.delimiters (ts.filterMap Tree.token?)) stack = some next →
      takeAll (Token.ownedDelimiters (Tree.addressedFrom path i ts)) (stack.map (Prod.mk path)) =
        some (next.map (Prod.mk path)) := by
  induction ts with
  | nil => intro i stack next h; cases h; rfl
  | cons t ts ih =>
    intro i stack next h
    have hlater := @ih fun l cs hmem => hnodes l cs (List.mem_cons_of_mem _ hmem)
    rw [Tree.addressedFrom_cons, Token.ownedDelimiters, List.filterMap_append, takeAll_append]
    cases t with
    | node l cs =>
      have hnode : Nested (Token.ownedDelimiters _) := hnodes l cs List.mem_cons_self (path ++ [i])
      rw [← Token.ownedDelimiters, hnode.takeAll_eq]
      exact hlater _ h
    | leaf x =>
      simp only [List.filterMap_cons, Tree.token?, Token.delimiters] at h
      simp only [Tree.addressed, List.filterMap_cons, List.filterMap_nil]
      cases hx : x.terminal.delimiter? with
      | none =>
        rw [hx] at h
        exact hlater _ h
      | some d =>
        rw [hx] at h
        obtain ⟨mid, hd, hmid⟩ := Option.bind_eq_some_iff.mp h
        have hone := take_map_append (Prod.mk path) hd []
        rw [List.append_nil, List.append_nil] at hone
        simp only [List.dropLast_concat, Option.map_some, takeAll_cons, takeAll_nil, hone, Option.bind_some]
        exact hlater _ hmid

theorem Derivation.nested_owned {t : Tree} (h : Derivation t) : ∀ l cs, t = .node l cs →
    ∀ path, Nested (Token.ownedDelimiters (t.addressed path)) := by
  induction h with
  | leaf x => intro l cs ht; cases ht
  | @node l cs row below ih =>
    intro _ _ _ path
    rw [Tree.addressed]
    exact takeAll_ownedDelimiters (fun l ds hmem => ih _ hmem l ds rfl) [] (Derivation.node row below).nested_row

/-- Whatever a rule answers, at any place of a unit: among the children of each node the brackets
    are nested, and so they are among all leaves, where each closes one of its kind that is a child
    of the same node. -/
theorem delimiters_close_within_node (rule : Rule) (c : Cursor) (tree : Tree) (h : (rule.apply c).1 = .ok tree) :
    (∀ path node, tree.at? path = some node → Nested (Token.delimiters node.childTokens)) ∧
      Nested (Token.delimiters tree.leaves) ∧ Nested tree.ownedDelimiters := by
  have hyields : rule.Yields c tree _ := ⟨h, rfl⟩
  obtain ⟨hd, -⟩ := hyields.sound
  obtain ⟨cs, rfl⟩ := hd.exists_children
  have howned : Nested (Tree.node rule.label cs).ownedDelimiters := hd.2.nested_owned _ cs rfl []
  refine ⟨fun path node hat => ?_, ?_, howned⟩
  · cases node with
    | leaf x => rfl
    | node l ds => exact (hd.2.of_at? hat).nested_row
  · rw [← Tree.map_snd_addressed _ [], ← Token.map_snd_ownedDelimiters]
    exact howned.map Prod.snd

/-- A call whose argument is an element of an array at a place in parentheses. -/
theorem delimiters_close_within_node_call :
    let ts := [Terminal.keyword .doKw, .identifier, .symbol .lparen, .identifier, .symbol .lbracket, .symbol .lparen,
      .identifier, .symbol .rparen, .symbol .rbracket, .symbol .rparen, .symbol .semicolon].map Terminal.token
    ∃ tree, (Rule.doStatement.apply (.ofTokens ts)).1 = .ok tree ∧ Nested tree.ownedDelimiters ∧
      Token.delimiters tree.leaves =
        [.opening .round, .opening .square, .opening .round, .closing .round, .closing .square, .closing .round] := by
  intro ts
  obtain ⟨tree, h, hleaves⟩ : ∃ tree, (Rule.doStatement.apply (.ofTokens ts)).1 = .ok tree ∧ tree.leaves = ts :=
    ⟨_, rfl, rfl⟩
  exact ⟨tree, h, (delimiters_close_within_node _ _ tree h).2.2, hleaves ▸ by decide⟩

end Grammar

end JackAnalyzer
