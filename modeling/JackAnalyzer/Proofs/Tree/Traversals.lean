/-
  JackAnalyzer.Proofs.Tree.Traversals — what the traversals of a tree yield, told by addresses. The
  nodes of a tree in the order of their addresses stand each before those below it, and one below
  the other has its leaves among the other's, or else the leaves of the first come before those of
  the second.
  - `mem_addressedNodes_iff`, `pairwise_addressedNodes`: all nodes, each once and in order.
  - `leaves_within_or_apart`: how the leaves of two nodes lie to each other.
  - `traversals_faithful`: the traversals of every node.
-/

import JackAnalyzer.Proofs.Tree.Parts
import Mathlib.Algebra.BigOperators.Group.List.Basic
import Mathlib.Algebra.GroupWithZero.Nat

namespace JackAnalyzer.Tree

mutual

/-- The nodes, each before those below it and with its address. -/
def addressedNodes : Tree → List (List Nat × Tree)
  | leaf _ => []
  | node l cs => ([], node l cs) :: addressedNodesFrom 0 cs

def addressedNodesFrom (i : Nat) : List Tree → List (List Nat × Tree)
  | [] => []
  | t :: ts => (addressedNodes t).map (fun m => (i :: m.1, m.2)) ++ addressedNodesFrom (i + 1) ts

end

mutual

/-- Puts the leaves behind the tokens met so far. -/
def collectLeaves (met : List Token) : Tree → List Token
  | leaf t => met ++ [t]
  | node _ cs => collectLeavesAll met cs

def collectLeavesAll (met : List Token) : List Tree → List Token
  | [] => met
  | t :: ts => collectLeavesAll (collectLeaves met t) ts

end

mutual

def collectNodes (label : Label) (met : List Tree) : Tree → List Tree
  | leaf _ => met
  | node l cs => collectNodesIn label (if l = label then met ++ [node l cs] else met) cs

def collectNodesIn (label : Label) (met : List Tree) : List Tree → List Tree
  | [] => met
  | t :: ts => collectNodesIn label (collectNodes label met t) ts

end

variable {t u v : Tree} {p q : List Nat} {i : Nat}

/-! ## One row passed along -/

/-- What each child puts behind the row comes behind it in the order of the children. -/
theorem foldl_eq_append_flatMap {α : Type} {f : List α → Tree → List α} {g : Tree → List α} {cs : List Tree}
    (h : ∀ c ∈ cs, ∀ met, f met c = met ++ g c) (met : List α) : cs.foldl f met = met ++ cs.flatMap g := by
  induction cs generalizing met with
  | nil => simp
  | cons c cs ih =>
    rw [List.foldl_cons, h c List.mem_cons_self, ih fun d hd => h d (List.mem_cons_of_mem _ hd), List.flatMap_cons,
      List.append_assoc]

theorem collectLeavesAll_eq_foldl (cs : List Tree) : ∀ met, collectLeavesAll met cs = cs.foldl collectLeaves met := by
  induction cs with
  | nil => intro met; rw [collectLeavesAll, List.foldl_nil]
  | cons c cs ih => intro met; rw [collectLeavesAll, List.foldl_cons, ih]

theorem collectNodesIn_eq_foldl (label : Label) (cs : List Tree) :
    ∀ met, collectNodesIn label met cs = cs.foldl (collectNodes label) met := by
  induction cs with
  | nil => intro met; rw [collectNodesIn, List.foldl_nil]
  | cons c cs ih => intro met; rw [collectNodesIn, List.foldl_cons, ih]

theorem collectLeaves_eq (t : Tree) : ∀ met, t.collectLeaves met = met ++ t.leaves := by
  induction t using ind with
  | leaf x => intro met; simp [collectLeaves]
  | node l cs ih =>
    intro met
    rw [collectLeaves, collectLeavesAll_eq_foldl, foldl_eq_append_flatMap ih, leaves_node]

theorem collectNodes_eq (label : Label) (t : Tree) : ∀ met, t.collectNodes label met = met ++ t.findAll label := by
  induction t using ind with
  | leaf x => intro met; simp [collectNodes, findAll]
  | node l cs ih =>
    intro met
    rw [collectNodes, collectNodesIn_eq_foldl, foldl_eq_append_flatMap ih, findAll, findAllIn_eq_flatMap]
    split <;> simp

/-! ## Nodes by address -/

theorem mem_addressedNodesFrom_iff {ts : List Tree} : (p, u) ∈ addressedNodesFrom i ts ↔
    ∃ j c q, ts[j]? = some c ∧ p = (i + j) :: q ∧ (q, u) ∈ c.addressedNodes := by
  induction ts generalizing i with
  | nil => simp [addressedNodesFrom]
  | cons t ts ih =>
    rw [addressedNodesFrom, List.mem_append, List.mem_map, ih]
    constructor
    · rintro (⟨⟨q, w⟩, hm, heq⟩ | ⟨j, c, q, hc, rfl, hm⟩)
      · cases heq
        exact ⟨0, t, q, rfl, rfl, hm⟩
      · exact ⟨j + 1, c, q, hc, by rw [Nat.add_right_comm, Nat.add_assoc], hm⟩
    · rintro ⟨j, c, q, hc, rfl, hm⟩
      cases j with
      | zero =>
        cases hc
        exact Or.inl ⟨(q, u), hm, rfl⟩
      | succ j => exact Or.inr ⟨j, c, q, hc, by rw [Nat.add_right_comm, Nat.add_assoc], hm⟩

/-- Each node stands at its address, and at each address of a node it is found. -/
theorem mem_addressedNodes_iff : (p, u) ∈ t.addressedNodes ↔ t.at? p = some u ∧ u.label?.isSome = true := by
  induction t using ind generalizing p with
  | leaf x =>
    cases p with
    | nil =>
      refine iff_of_false (by simp [addressedNodes]) ?_
      rintro ⟨h, hu⟩
      cases h
      cases hu
    | cons i q => simp [addressedNodes, at?, children]
  | node l cs ih =>
    rw [addressedNodes, List.mem_cons]
    cases p with
    | nil =>
      have hnot : ([], u) ∉ addressedNodesFrom 0 cs := by
        intro hm
        obtain ⟨_, _, _, -, h, -⟩ := mem_addressedNodesFrom_iff.mp hm
        cases h
      simp only [hnot, or_false, Prod.mk.injEq, true_and, at?, Option.some.injEq]
      constructor
      · rintro rfl
        exact ⟨rfl, rfl⟩
      · rintro ⟨rfl, -⟩
        rfl
    | cons i q =>
      simp only [Prod.mk.injEq, List.cons_ne_nil, false_and, false_or, mem_addressedNodesFrom_iff, Nat.zero_add,
        List.cons.injEq, at?_cons_eq_some_iff]
      constructor
      · rintro ⟨j, c, q, hc, ⟨rfl, rfl⟩, hm⟩
        obtain ⟨hu, hlabel⟩ := (ih c (List.mem_of_getElem? hc)).mp hm
        exact ⟨⟨c, hc, hu⟩, hlabel⟩
      · rintro ⟨⟨c, hc, hu⟩, hlabel⟩
        exact ⟨i, c, q, hc, ⟨rfl, rfl⟩, (ih c (List.mem_of_getElem? hc)).mpr ⟨hu, hlabel⟩⟩

/-- The addresses are in order: a node comes before those below it, and these by the indices of the
    children that they are in. -/
theorem pairwise_addressedNodes (t : Tree) : t.addressedNodes.Pairwise fun m n => List.Lex (· < ·) m.1 n.1 := by
  induction t using ind with
  | leaf x => rw [addressedNodes]; exact .nil
  | node l cs ih =>
    have hfrom : ∀ i, (addressedNodesFrom i cs).Pairwise fun m n => List.Lex (· < ·) m.1 n.1 := by
      induction cs with
      | nil => intro i; rw [addressedNodesFrom]; exact .nil
      | cons c cs ihcs =>
        intro i
        have hfirst := ih c List.mem_cons_self
        have hlater := ihcs (fun d hd => ih d (List.mem_cons_of_mem _ hd)) (i + 1)
        rw [addressedNodesFrom]
        refine List.pairwise_append.mpr ⟨List.pairwise_map.mpr (hfirst.imp .cons), hlater, ?_⟩
        rintro ⟨p, u⟩ hp ⟨q, v⟩ hq
        obtain ⟨m, -, hm⟩ := List.mem_map.mp hp
        obtain ⟨j, d, q', -, rfl, -⟩ := mem_addressedNodesFrom_iff.mp hq
        cases hm
        exact .rel (by omega)
    rw [addressedNodes]
    refine List.pairwise_cons.mpr ⟨?_, hfrom 0⟩
    rintro ⟨p, u⟩ hp
    obtain ⟨j, c, q, -, rfl, -⟩ := mem_addressedNodesFrom_iff.mp hp
    exact .nil

theorem map_snd_addressedNodes (t : Tree) :
    t.addressedNodes.map Prod.snd = t.parts.filter fun u => u.label?.isSome := by
  induction t using ind with
  | leaf x => simp [addressedNodes, label?]
  | node l cs ih =>
    have hfrom : ∀ i, (addressedNodesFrom i cs).map Prod.snd = (cs.flatMap parts).filter fun u => u.label?.isSome := by
      induction cs with
      | nil => intro i; simp [addressedNodesFrom]
      | cons c cs ihcs =>
        intro i
        rw [addressedNodesFrom, List.map_append, List.map_map, ihcs fun d hd => ih d (List.mem_cons_of_mem _ hd),
          List.flatMap_cons, List.filter_append, ← ih c List.mem_cons_self]
        rfl
    rw [addressedNodes, List.map_cons, hfrom, parts_node, List.filter_cons_of_pos (by rfl)]

theorem findAll_eq_filter (t : Tree) (label : Label) :
    t.findAll label = (t.addressedNodes.map Prod.snd).filter fun u => u.label? == some label := by
  rw [findAll_eq_filter_parts, map_snd_addressedNodes, List.filter_filter]
  refine List.filter_congr fun u _ => ?_
  cases u.label? <;> simp

theorem sum_length_filter {us : List Tree} (h : ∀ u ∈ us, u.label?.isSome = true) :
    (Label.all.map fun label => (us.filter fun u => u.label? == some label).length).sum = us.length := by
  induction us with
  | nil => decide
  | cons u us ih =>
    obtain ⟨l, hl⟩ := Option.isSome_iff_exists.mp (h u List.mem_cons_self)
    have hone : (Label.all.map fun label => if some l == some label then 1 else 0).sum = 1 := by cases l <;> rfl
    have hstep : ∀ label : Label, ((u :: us).filter fun u => u.label? == some label).length =
        (if some l == some label then 1 else 0) + (us.filter fun u => u.label? == some label).length := by
      intro label
      rw [List.filter_cons, hl]
      split
      · rw [List.length_cons, Nat.add_comm]
      · rw [Nat.zero_add]
    simp only [hstep]
    rw [List.sum_map_add, hone, ih fun v hv => h v (List.mem_cons_of_mem _ hv), List.length_cons, Nat.add_comm]

/-! ## Leaves by address -/

theorem before_add_length_le (h : t.at? p = some u) : t.before p + u.leaves.length ≤ t.leaves.length := by
  obtain ⟨front, behind, hleaves, hlength⟩ := leaves_at h
  rw [hleaves, ← hlength]
  simp only [List.length_append]
  omega

theorem take_drop_leaves (h : t.at? p = some u) : (t.leaves.drop (t.before p)).take u.leaves.length = u.leaves := by
  obtain ⟨front, behind, hleaves, hlength⟩ := leaves_at h
  rw [hleaves, ← hlength, List.drop_left, List.take_left]

/-- The leaves of a part lie among those of a part that it is below, and behind those of a part
    that comes earlier otherwise. -/
theorem leaves_within_or_apart (h : List.Lex (· < ·) p q) (hu : t.at? p = some u) (hv : t.at? q = some v) :
    p <+: q ∧ t.before p ≤ t.before q ∧ t.before q + v.leaves.length ≤ t.before p + u.leaves.length ∨
      ¬ p <+: q ∧ t.before p + u.leaves.length ≤ t.before q := by
  induction h generalizing t with
  | nil =>
    cases hu
    have := before_add_length_le hv
    rw [before_nil]
    exact Or.inl ⟨List.nil_prefix, by omega, by omega⟩
  | cons _ ih =>
    obtain ⟨c, hc, hu⟩ := at?_cons_eq_some_iff.mp hu
    obtain ⟨d, hd, hv⟩ := at?_cons_eq_some_iff.mp hv
    obtain rfl := Option.some.inj (hc.symm.trans hd)
    rw [before_cons hc, before_cons hc, List.cons_prefix_cons]
    rcases ih hu hv with ⟨hfront, hstart, hstop⟩ | ⟨hfront, hapart⟩
    · exact Or.inl ⟨⟨rfl, hfront⟩, by omega, by omega⟩
    · exact Or.inr ⟨fun hcons => hfront hcons.2, by omega⟩
  | rel hlt =>
    obtain ⟨c, hc, hu⟩ := at?_cons_eq_some_iff.mp hu
    obtain ⟨d, hd, hv⟩ := at?_cons_eq_some_iff.mp hv
    have hinside := before_add_length_le hu
    have hchildren := length_leaves_take hc hlt
    rw [before_cons hc, before_cons hd, List.cons_prefix_cons]
    exact Or.inr ⟨fun hcons => by omega, by omega⟩

/-! ## The traversals together -/

/-- What the traversals of a tree yield. -/
structure Faithful (t : Tree) : Prop where
  /-- The leaves, child by child: the token itself, or the leaves of the child. -/
  leaves_children : t.leaves = t.children.flatMap fun
    | leaf x => [x]
    | node l cs => (node l cs).leaves
  /-- Both traversals may pass one row along. -/
  collected : (∀ met, t.collectLeaves met = met ++ t.leaves) ∧
    ∀ label met, t.collectNodes label met = met ++ t.findAll label
  /-- All nodes of the tree, the tree itself among them, by their addresses. -/
  nodes (p : List Nat) (u : Tree) : (p, u) ∈ t.addressedNodes ↔ t.at? p = some u ∧ u.label?.isSome = true
  /-- The nodes are in pre-order, so each stands there once. -/
  preorder : t.addressedNodes.Pairwise fun m n => List.Lex (· < ·) m.1 n.1
  /-- What is found are the nodes of the label in this order. -/
  found (label : Label) :
    t.findAll label = (t.addressedNodes.map Prod.snd).filter fun u => u.label? == some label
  /-- What is found under all labels are as many nodes as there are. -/
  count : (Label.all.map fun label => (t.findAll label).length).sum = t.addressedNodes.length
  /-- The leaves of a node are a segment of those of the tree. -/
  segment (p : List Nat) (u : Tree) : (p, u) ∈ t.addressedNodes →
    t.before p + u.leaves.length ≤ t.leaves.length ∧ (t.leaves.drop (t.before p)).take u.leaves.length = u.leaves
  /-- Of two nodes the second lies within the first or behind it. -/
  within_or_apart (p q : List Nat) (u v : Tree) : (p, u) ∈ t.addressedNodes → (q, v) ∈ t.addressedNodes →
    List.Lex (· < ·) p q →
      p <+: q ∧ t.before p ≤ t.before q ∧ t.before q + v.leaves.length ≤ t.before p + u.leaves.length ∨
        ¬ p <+: q ∧ t.before p + u.leaves.length ≤ t.before q
  /-- The span of a node runs from its first leaf to its last; without leaves it is the default. -/
  span (p : List Nat) (u : Tree) : (p, u) ∈ t.addressedNodes →
    (u.leaves = [] → u.span = ⟨0, 0⟩) ∧
      ∀ n, u.leaves.length = n + 1 → ∃ first last, u.leaves[0]? = some first ∧ u.leaves[n]? = some last ∧
        u.span = ⟨first.span.start, last.span.stop⟩

theorem span_of_length (h : u.leaves.length = i + 1) : ∃ first last, u.leaves[0]? = some first ∧
    u.leaves[i]? = some last ∧ u.span = ⟨first.span.start, last.span.stop⟩ := by
  have hne : u.leaves ≠ [] := List.ne_nil_of_length_eq_add_one h
  have hfirst := List.head?_eq_some_head hne
  have hlast := List.getLast?_eq_some_getLast hne
  refine ⟨_, _, List.head?_eq_getElem? ▸ hfirst, ?_, by rw [Tree.span, hfirst, hlast]⟩
  rw [← hlast, List.getLast?_eq_getElem?, h, Nat.add_sub_cancel]

/-- The traversals of every node are faithful. -/
theorem traversals_faithful (l : Label) (cs : List Tree) : Faithful (node l cs) := by
  refine { leaves_children := ?leaves, collected := ⟨collectLeaves_eq _, fun label => collectNodes_eq label _⟩,
           nodes := fun p u => mem_addressedNodes_iff, preorder := pairwise_addressedNodes _,
           found := findAll_eq_filter _, count := ?count, segment := fun p u h => ?segment,
           within_or_apart := fun p q u v hu hv h => ?apart, span := fun p u _ => ⟨fun h => ?none, fun n => span_of_length⟩ }
  case leaves =>
    rw [leaves_node]
    refine List.flatMap_congr fun c _ => ?_
    cases c <;> simp
  case count =>
    simp only [findAll_eq_filter]
    rw [sum_length_filter, List.length_map]
    intro u hu
    obtain ⟨⟨p, w⟩, hm, rfl⟩ := List.mem_map.mp hu
    exact (mem_addressedNodes_iff.mp hm).2
  case segment =>
    have hu := (mem_addressedNodes_iff.mp h).1
    exact ⟨before_add_length_le hu, take_drop_leaves hu⟩
  case apart => exact leaves_within_or_apart h (mem_addressedNodes_iff.mp hu).1 (mem_addressedNodes_iff.mp hv).1
  case none =>
    rw [Tree.span, h]
    rfl

end JackAnalyzer.Tree
