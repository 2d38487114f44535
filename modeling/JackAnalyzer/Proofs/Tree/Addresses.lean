/-
  JackAnalyzer.Proofs.Tree.Addresses — where the parts of a tree stand. The address of a part is
  the way down to it from the root: at each node the index of the child to go on with. Equal
  trees may stand at several addresses of one tree, so it is its address that a part is told by.
  - `leaves_at`: the leaves of a part stand together among those of the tree, behind as many as
    `before` counts.
  - `exists_address`, `address_unique`: each leaf has one address.
-/

import JackAnalyzer.Tree

namespace JackAnalyzer.Tree

/-- What holds of each leaf, and of each node if it holds of the node's children, holds of every
    tree. -/
@[elab_as_elim]
theorem ind {motive : Tree → Prop} (leaf : ∀ t, motive (.leaf t))
    (node : ∀ l cs, (∀ c ∈ cs, motive c) → motive (.node l cs)) (tree : Tree) : motive tree :=
  @Tree.rec motive (fun cs => ∀ c ∈ cs, motive c) leaf node (fun _ h => absurd h List.not_mem_nil)
    (fun _ _ hc hcs => List.forall_mem_cons.mpr ⟨hc, hcs⟩) tree

def at? (t : Tree) : List Nat → Option Tree
  | [] => some t
  | i :: path => t.children[i]?.bind (·.at? path)

/-- How many leaves stand in front of the part at an address. -/
def before (t : Tree) : List Nat → Nat
  | [] => 0
  | i :: path => ((t.children.take i).flatMap leaves).length + (t.children[i]?.map (·.before path)).getD 0

mutual

/-- The leaves in the order of the source, each with its address, which goes on behind `path`. -/
def addressed (path : List Nat) : Tree → List (List Nat × Token)
  | leaf t => [(path, t)]
  | node _ cs => addressedFrom path 0 cs

def addressedFrom (path : List Nat) (i : Nat) : List Tree → List (List Nat × Token)
  | [] => []
  | t :: ts => addressed (path ++ [i]) t ++ addressedFrom path (i + 1) ts

end

/-! ## Going down -/

variable {t u c : Tree} {i : Nat} {path : List Nat}

@[simp] theorem before_nil (t : Tree) : t.before [] = 0 := rfl

theorem at?_cons_eq_some_iff : t.at? (i :: path) = some u ↔ ∃ c, t.children[i]? = some c ∧ c.at? path = some u :=
  Option.bind_eq_some_iff

theorem before_cons (h : t.children[i]? = some c) :
    t.before (i :: path) = ((t.children.take i).flatMap leaves).length + c.before path := by
  rw [before, h]
  rfl

theorem at?_append (t : Tree) (path more : List Nat) : t.at? (path ++ more) = (t.at? path).bind (·.at? more) := by
  induction path generalizing t with
  | nil => rfl
  | cons i path ih =>
    show t.children[i]?.bind (·.at? (path ++ more)) = (t.children[i]?.bind (·.at? path)).bind (·.at? more)
    rw [Option.bind_assoc]
    exact congrArg _ (funext ih)

theorem before_append (h : t.at? path = some u) (more : List Nat) :
    t.before (path ++ more) = t.before path + u.before more := by
  induction path generalizing t with
  | nil => cases h; simp
  | cons i path ih =>
    obtain ⟨c, hc, hu⟩ := at?_cons_eq_some_iff.mp h
    rw [List.cons_append, before_cons hc, before_cons hc, ih hu, Nat.add_assoc]

theorem exists_parent {l : Label} {cs : List Tree} {x : Token} (h : (node l cs).at? path = some (.leaf x)) :
    ∃ front i l' ds, path = front ++ [i] ∧ (node l cs).at? front = some (.node l' ds) ∧ ds[i]? = some (.leaf x) := by
  rcases List.eq_nil_or_concat path with rfl | ⟨front, i, rfl⟩
  · cases h
  · rw [List.concat_eq_append, at?_append] at h
    obtain ⟨v, hv, hi⟩ := Option.bind_eq_some_iff.mp h
    obtain ⟨c, hc, hcx⟩ := at?_cons_eq_some_iff.mp hi
    cases hcx
    cases v with
    | leaf y => cases hc
    | node l' ds => exact ⟨front, i, l', ds, List.concat_eq_append, hv, hc⟩

theorem at?_first {l : Label} {cs : List Tree} (h : t.at? path = some (.node l (c :: cs))) :
    t.at? (path ++ [0]) = some c ∧ t.before (path ++ [0]) = t.before path := by
  refine ⟨by rw [at?_append, h]; rfl, ?_⟩
  rw [before_append h, before_cons (c := c) rfl]
  rfl

theorem children_eq_append (h : t.children[i]? = some c) :
    t.children = t.children.take i ++ c :: t.children.drop (i + 1) := by
  obtain ⟨hi, rfl⟩ := List.getElem?_eq_some_iff.mp h
  rw [← List.drop_eq_getElem_cons hi, List.take_append_drop]

theorem leaves_of_child (h : t.children[i]? = some c) :
    t.leaves = (t.children.take i).flatMap leaves ++ (c.leaves ++ (t.children.drop (i + 1)).flatMap leaves) := by
  cases t with
  | leaf x => cases h
  | node l cs =>
    rw [leaves_node]
    conv => lhs; rw [show cs = _ from children_eq_append h]
    rw [List.flatMap_append, List.flatMap_cons]

theorem leaves_at (h : t.at? path = some u) :
    ∃ front behind, t.leaves = front ++ (u.leaves ++ behind) ∧ front.length = t.before path := by
  induction path generalizing t with
  | nil => cases h; exact ⟨[], [], by simp⟩
  | cons i path ih =>
    obtain ⟨c, hc, hu⟩ := at?_cons_eq_some_iff.mp h
    obtain ⟨front, behind, hleaves, hlength⟩ := ih hu
    refine ⟨(t.children.take i).flatMap leaves ++ front, behind ++ (t.children.drop (i + 1)).flatMap leaves, ?_, ?_⟩
    · rw [leaves_of_child hc, hleaves]
      simp
    · rw [before_cons hc, List.length_append, hlength]

theorem getElem?_leaves_at {x : Token} (h : t.at? path = some (.leaf x)) : t.leaves[t.before path]? = some x := by
  obtain ⟨front, behind, hleaves, hlength⟩ := leaves_at h
  rw [hleaves, ← hlength]
  simp

/-! ## The addresses of leaves -/

theorem length_leaves_take {cs : List Tree} {j : Nat} (hc : cs[i]? = some c) (h : i < j) :
    ((cs.take i).flatMap leaves).length + c.leaves.length ≤ ((cs.take j).flatMap leaves).length := by
  obtain ⟨rest, hrest⟩ : cs.take i ++ [c] <+: cs.take j := by
    obtain ⟨hi, rfl⟩ := List.getElem?_eq_some_iff.mp hc
    rw [List.take_append_getElem]
    exact List.take_prefix_take_left h
  rw [← hrest]
  simp only [List.flatMap_append, List.flatMap_singleton, List.length_append]
  omega

theorem before_lt {x : Token} (h : t.at? path = some (.leaf x)) : t.before path < t.leaves.length :=
  (List.getElem?_eq_some_iff.mp (getElem?_leaves_at h)).1

/-- No two leaves have as many leaves in front of them. -/
theorem address_unique {x y : Token} : ∀ {t : Tree} {p q : List Nat}, t.at? p = some (.leaf x) →
    t.at? q = some (.leaf y) → t.before p = t.before q → p = q := by
  intro t p
  induction p generalizing t with
  | nil =>
    intro q hp hq _
    cases hp
    cases q with
    | nil => rfl
    | cons j q => cases hq
  | cons i p ih =>
    intro q hp hq heq
    obtain ⟨c, hc, hpc⟩ := at?_cons_eq_some_iff.mp hp
    cases q with
    | nil => cases hq; cases hc
    | cons j q =>
      obtain ⟨d, hd, hqd⟩ := at?_cons_eq_some_iff.mp hq
      rw [before_cons hc, before_cons hd] at heq
      have hpl := before_lt hpc
      have hql := before_lt hqd
      rcases Nat.lt_trichotomy i j with hij | rfl | hij
      · have := length_leaves_take hc hij
        omega
      · rw [hc] at hd
        cases hd
        rw [ih hpc hqd (by omega)]
      · have := length_leaves_take hd hij
        omega

@[simp] theorem addressedFrom_cons (path : List Nat) (i : Nat) (t : Tree) (ts : List Tree) :
    addressedFrom path i (t :: ts) = addressed (path ++ [i]) t ++ addressedFrom path (i + 1) ts := by
  rw [addressedFrom]

theorem map_snd_addressed (t : Tree) : ∀ path, (t.addressed path).map Prod.snd = t.leaves := by
  induction t using ind with
  | leaf x => intro path; simp [addressed]
  | node l cs ih =>
    intro path
    have hall : ∀ i, (addressedFrom path i cs).map Prod.snd = cs.flatMap leaves := by
      induction cs with
      | nil => intro i; simp [addressedFrom]
      | cons c cs ihcs =>
        intro i
        rw [addressedFrom_cons, List.map_append, ih c List.mem_cons_self, List.flatMap_cons,
          ihcs fun d hd => ih d (List.mem_cons_of_mem _ hd)]
    rw [addressed, hall, leaves_node]

/-- The address that a leaf is listed with is where the leaf stands. -/
theorem at?_of_mem_addressed (t : Tree) : ∀ {path a : List Nat} {x : Token} {k : Nat},
    (t.addressed path)[k]? = some (a, x) → ∃ p, a = path ++ p ∧ t.at? p = some (.leaf x) ∧ t.before p = k := by
  induction t using ind with
  | leaf y =>
    intro path a x k h
    simp only [addressed, List.getElem?_singleton] at h
    split at h
    · cases h
      exact ⟨[], by simp, rfl, by simp [*]⟩
    · cases h
  | node l cs ih =>
    intro path a x k h
    -- The induction is on the children that are still to be listed.
    suffices ∀ ts front k, cs = front ++ ts → (addressedFrom path front.length ts)[k]? = some (a, x) →
        ∃ p, a = path ++ p ∧ (node l cs).at? p = some (.leaf x) ∧
          (node l cs).before p = (front.flatMap leaves).length + k by
      rw [addressed] at h
      obtain ⟨p, hp⟩ := this cs [] k rfl h
      exact ⟨p, by simpa using hp⟩
    intro ts
    induction ts with
    | nil => intro front k _ h; simp [addressedFrom] at h
    | cons c ts ihts =>
      intro front k hcs h
      have hc : (node l cs).children[front.length]? = some c := by simp [children, hcs]
      have htake : (node l cs).children.take front.length = front := by simp [children, hcs]
      have hlength : (addressed (path ++ [front.length]) c).length = c.leaves.length := by
        rw [← map_snd_addressed c, List.length_map]
      rw [addressedFrom_cons] at h
      by_cases hk : k < c.leaves.length
      · rw [List.getElem?_append_left (hlength ▸ hk)] at h
        obtain ⟨p, rfl, hat, hbefore⟩ := ih c (hcs ▸ List.mem_append_right _ List.mem_cons_self) h
        refine ⟨front.length :: p, by simp, at?_cons_eq_some_iff.mpr ⟨c, hc, hat⟩, ?_⟩
        rw [before_cons hc, htake, hbefore]
      · rw [List.getElem?_append_right (by omega), hlength] at h
        obtain ⟨p, hp, hat, hbefore⟩ := ihts (front ++ [c]) _ (by simp [hcs]) (by simpa using h)
        refine ⟨p, hp, hat, ?_⟩
        rw [hbefore]
        simp only [List.flatMap_append, List.flatMap_cons, List.flatMap_nil, List.length_append, List.append_nil]
        omega

theorem exists_address {x : Token} {k : Nat} (h : t.leaves[k]? = some x) :
    ∃ p, t.at? p = some (.leaf x) ∧ t.before p = k := by
  rw [← map_snd_addressed t [], List.getElem?_map] at h
  obtain ⟨⟨a, y⟩, hy, rfl⟩ := Option.map_eq_some_iff.mp h
  obtain ⟨p, -, hat, hbefore⟩ := at?_of_mem_addressed t hy
  exact ⟨p, hat, hbefore⟩

end JackAnalyzer.Tree
