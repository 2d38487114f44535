/-
  JackAnalyzer.Proofs.Tree.Parts — all parts of a tree in one row: the tree itself, then its
  children with all that is below them, in order. The leaves and the nodes of a label are picked
  out of this row, and each part but the tree itself is a child of one part, so what is counted
  over the whole tree can be counted node by node.
  - `leaves_eq_filterMap_parts`, `findAll_eq_filter_parts`: what the traversals pick out.
  - `parts_perm`, `countP_children`: counting node by node.
-/

import JackAnalyzer.Proofs.Tree.Addresses
import Mathlib.Data.List.Basic

namespace JackAnalyzer.Tree

mutual

/-- The tree and all that is below it, a node before its children. -/
def parts : Tree → List Tree
  | leaf t => [leaf t]
  | node l cs => node l cs :: partsAll cs

def partsAll : List Tree → List Tree
  | [] => []
  | t :: ts => parts t ++ partsAll ts

end

theorem partsAll_eq_flatMap (ts : List Tree) : partsAll ts = ts.flatMap parts := by
  induction ts with
  | nil => rfl
  | cons t ts ih => simp [partsAll, ih]

@[simp] theorem parts_leaf (t : Token) : (leaf t).parts = [leaf t] := by rw [parts]

@[simp] theorem parts_node (l : Label) (cs : List Tree) : (node l cs).parts = node l cs :: cs.flatMap parts := by
  rw [parts, partsAll_eq_flatMap]

/-! ## What the traversals pick out -/

theorem leaves_eq_filterMap_parts (t : Tree) : t.leaves = t.parts.filterMap token? := by
  induction t using ind with
  | leaf x => simp [token?]
  | node l cs ih =>
    rw [leaves_node, parts_node, List.filterMap_cons_none rfl, List.filterMap_flatMap]
    exact List.flatMap_congr ih

theorem findAll_eq_filter_parts (label : Label) (t : Tree) :
    t.findAll label = t.parts.filter fun u => u.label? == some label := by
  induction t using ind with
  | leaf x => simp [findAll, label?]
  | node l cs ih =>
    have hbelow : findAllIn label cs = (cs.flatMap parts).filter fun u => u.label? == some label := by
      rw [findAllIn_eq_flatMap, List.filter_flatMap]
      exact List.flatMap_congr ih
    rw [findAll, parts_node, List.filter_cons, hbelow]
    by_cases hl : l = label <;> simp [label?, hl]

/-! ## Counting node by node -/

theorem parts_perm (t : Tree) : t.parts.Perm (t :: t.parts.flatMap children) := by
  induction t using ind with
  | leaf x => simp [children]
  | node l cs ih =>
    have hrow : (cs.flatMap parts).Perm (cs ++ (cs.flatMap parts).flatMap children) := by
      induction cs with
      | nil => exact .nil
      | cons c cs ihcs =>
        have hfirst := ih c List.mem_cons_self
        have hlater := ihcs fun d hd => ih d (List.mem_cons_of_mem _ hd)
        rw [List.flatMap_cons, List.flatMap_append, List.cons_append]
        refine (hfirst.append hlater).trans (.cons c ?_)
        simp only [List.append_eq, ← List.append_assoc]
        exact List.perm_append_comm.append_right _
    rw [parts_node, List.flatMap_cons]
    exact .cons _ hrow

/-- Where the children of each part have as many of one kind as of another, and one more if the
    part is of a third, all children together have as many more as there are such parts. -/
theorem countP_children {p q r : Tree → Bool} : ∀ {ts : List Tree},
    (∀ u ∈ ts, u.children.countP p = u.children.countP q + if r u then 1 else 0) →
      (ts.flatMap children).countP p = (ts.flatMap children).countP q + ts.countP r := by
  intro ts
  induction ts with
  | nil => intro _; rfl
  | cons u ts ih =>
    intro h
    have hu := h u List.mem_cons_self
    have hts := ih fun v hv => h v (List.mem_cons_of_mem _ hv)
    rw [List.flatMap_cons, List.countP_append, List.countP_append, List.countP_cons]
    omega

theorem countP_parts {p q r : Tree → Bool} (t : Tree)
    (h : ∀ u ∈ t.parts, u.children.countP p = u.children.countP q + if r u then 1 else 0) :
    t.parts.countP p + (if q t then 1 else 0) = t.parts.countP q + t.parts.countP r + if p t then 1 else 0 := by
  have hp := (parts_perm t).countP_eq p
  have hq := (parts_perm t).countP_eq q
  have hchildren := countP_children h
  rw [List.countP_cons] at hp hq
  omega

theorem countP_leaves (t : Tree) (p : Token → Bool) : t.leaves.countP p = t.parts.countP fun u => u.token?.any p := by
  rw [leaves_eq_filterMap_parts, List.countP_filterMap]
  refine List.countP_congr fun u _ => ?_
  cases u.token? <;> rfl

theorem length_findAll (t : Tree) (label : Label) :
    (t.findAll label).length = t.parts.countP fun u => u.label? == some label := by
  rw [findAll_eq_filter_parts, List.countP_eq_length_filter]

end JackAnalyzer.Tree
