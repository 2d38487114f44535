/-
  JackAnalyzer.Proofs.Grammar.Census — the constructs of a class are as many as the words that
  begin them. A word that begins a declaration or a statement stands in one place of one
  production, so it is the first child of a node of that production, and of no other. What a row
  of children holds of two kinds is read off the body of its rule by counting both, and summed
  over all nodes.
  - `Derives.opens`, `Derives.begins`: where the words stand.
  - `Derives.surplus`: how many more there are of one kind than of another.
  - `classDec_census`: both, of any class.
-/

import JackAnalyzer.Proofs.Grammar.Children
import JackAnalyzer.Proofs.Grammar.Statements
import JackAnalyzer.Proofs.Grammar.Words
import JackAnalyzer.Proofs.Tree.Parts

namespace JackAnalyzer

open Grammar

/-- The words that begin the nodes of a label, where only such nodes have them. -/
def Label.openers : Label → List Terminal
  | classVarDec => variableKinds
  | subroutineDec => subroutineKinds
  | varDec => [.keyword .varKw]
  | letStatement => [.keyword .letKw]
  | ifStatement => [.keyword .ifKw]
  | whileStatement => [.keyword .whileKw]
  | doStatement => [.keyword .doKw]
  | returnStatement => [.keyword .returnKw]
  | _ => []

namespace Grammar

/-- What is told of the tokens and the tree of a class. -/
structure Census (ts : List Token) (tree : Tree) : Prop where
  /-- Each word that begins a construct is the first child of one node, and the node is of that
      construct. -/
  opens : ∀ label i t, ts[i]? = some t → t.terminal ∈ label.openers →
    ∃! path, ∃ cs, tree.at? path = some (.node label (.leaf t :: cs)) ∧ tree.before path = i
  /-- Each node of a construct has such a word as its first child. -/
  begins : ∀ label path cs, label.openers ≠ [] → tree.at? path = some (.node label cs) →
    ∃ t rest, cs = .leaf t :: rest ∧ t.terminal ∈ label.openers ∧ ts[tree.before path]? = some t
  /-- There are as many nodes of a construct as words that begin it. -/
  constructs : ∀ label, label.openers ≠ [] →
    (tree.findAll label).length = ts.countP (·.terminal ∈ label.openers)
  /-- There is an else for each `if` with two blocks. -/
  elses : ts.countP (·.terminal = .keyword .elseKw) =
    (tree.findAll .ifStatement).countP (·.childLabels.count .statements = 2)
  parameterLists : (tree.findAll .parameterList).length = (tree.findAll .subroutineDec).length
  bodies : (tree.findAll .subroutineBody).length = (tree.findAll .subroutineDec).length
  /-- Beside the class, each opening brace is in front of statements. -/
  braces : ts.countP (·.terminal = .symbol .lbrace) = 1 + (tree.findAll .statements).length

/-! ## The first child -/

def openers : List Terminal := Label.all.flatMap Label.openers

theorem mem_openers {l : Label} {t : Terminal} (h : t ∈ l.openers) : t ∈ openers :=
  List.mem_flatMap.mpr ⟨l, l.mem_all, h⟩

theorem openers_disjoint {l l' : Label} {t : Terminal} (h : t ∈ l.openers) (h' : t ∈ l'.openers) : l = l' := by
  have hone : ∀ l ∈ Label.all, ∀ l' ∈ Label.all, ∀ t ∈ l.openers, t ∈ l'.openers → l = l' := by decide
  exact hone l l.mem_all l' l'.mem_all t h h'

/-- A rule takes one of its words at first, if it has any, and none later. -/
theorem Rule.body_openers (l : Label) :
    (∃ e q, (Rule.ofLabel .statement l).body = .both (.accept l.openers e) q ∧ ∀ t ∈ q.terminals, t ∉ openers) ∨
      l.openers = [] ∧ ∀ t ∈ (Rule.ofLabel .statement l).body.terminals, t ∉ openers := by
  cases l with
  | classVarDec | subroutineDec | varDec | letStatement | ifStatement | whileStatement | doStatement
  | returnStatement =>
    exact Or.inl ⟨_, _, rfl, by decide⟩
  | _ => exact Or.inr ⟨rfl, by decide⟩

/-- Where the label of a node has words, one of them is the first child; no other child is a
    word. -/
theorem Derivation.opening {l : Label} {cs : List Tree} (h : Derivation (.node l cs)) :
    (∃ t rest, cs = .leaf t :: rest ∧ t.terminal ∈ l.openers ∧ ∀ u : Token, .leaf u ∈ rest → u.terminal ∉ openers) ∨
      l.openers = [] ∧ ∀ u : Token, .leaf u ∈ cs → u.terminal ∉ openers := by
  have row : cs.map Tree.constituent ∈ (Rule.ofLabel .statement l).body.shape.matches' := by
    rw [Rule.shape_body, Rule.label_ofLabel]
    cases h with
    | node row _ => exact row
  rcases Rule.body_openers l with ⟨e, q, hbody, hq⟩ | ⟨hnone, hbody⟩
  · rw [hbody] at row
    obtain ⟨us, rest, rfl, hus, hrest⟩ := map_constituent_mem_mul.mp row
    obtain ⟨t, rfl, ht⟩ := map_constituent_mem_oneOf.mp hus
    exact Or.inl ⟨t, rest, rfl, ht, fun u hu => hq _ (Phrase.terminal_mem_terminals q hrest hu)⟩
  · exact Or.inr ⟨hnone, fun u hu => hbody _ (Phrase.terminal_mem_terminals _ row hu)⟩

theorem Derivation.opener_first {l label : Label} {cs : List Tree} (h : Derivation (.node l cs)) {i : Nat} {t : Token}
    (hi : cs[i]? = some (.leaf t)) (ht : t.terminal ∈ label.openers) :
    i = 0 ∧ l = label ∧ ∃ rest, cs = .leaf t :: rest := by
  rcases h.opening with ⟨u, rest, rfl, hu, hrest⟩ | ⟨-, hnone⟩
  · cases i with
    | zero =>
      cases hi
      exact ⟨rfl, openers_disjoint hu ht, rest, rfl⟩
    | succ i => exact absurd (mem_openers ht) (hrest t (List.mem_of_getElem? hi))
  · exact absurd (mem_openers ht) (hnone t (List.mem_of_getElem? hi))

/-- A word stands as the first child of one node, which its label is the label of. -/
theorem Derives.opens {l label : Label} {tree : Tree} (h : Derives l tree) {i : Nat} {t : Token}
    (ht : tree.leaves[i]? = some t) (hopener : t.terminal ∈ label.openers) :
    ∃! path, ∃ cs, tree.at? path = some (.node label (.leaf t :: cs)) ∧ tree.before path = i := by
  obtain ⟨path, hat, rfl⟩ := Tree.exists_address ht
  obtain ⟨cs, rfl⟩ := h.exists_children
  obtain ⟨front, j, l', ds, rfl, hfront, hj⟩ := Tree.exists_parent hat
  obtain ⟨rfl, rfl, rest, rfl⟩ := (h.2.of_at? hfront).opener_first hj hopener
  refine ⟨front, ⟨rest, hfront, (Tree.at?_first hfront).2.symm⟩, ?_⟩
  rintro other ⟨rest', hother, hsame⟩
  -- Both first children have as many leaves in front, so they are one leaf.
  obtain ⟨hat', hbefore'⟩ := Tree.at?_first hother
  exact List.append_cancel_right (Tree.address_unique hat' hat (hbefore'.trans hsame))

theorem Derives.begins {l label : Label} {tree : Tree} (h : Derives l tree) (hlabel : label.openers ≠ [])
    {path : List Nat} {cs : List Tree} (hat : tree.at? path = some (.node label cs)) :
    ∃ t rest, cs = .leaf t :: rest ∧ t.terminal ∈ label.openers ∧ tree.leaves[tree.before path]? = some t := by
  rcases (h.2.of_at? hat).opening with ⟨t, rest, rfl, ht, -⟩ | ⟨hnil, -⟩
  · obtain ⟨hfirst, hbefore⟩ := Tree.at?_first hat
    exact ⟨t, rest, rfl, ht, hbefore ▸ Tree.getElem?_leaves_at hfirst⟩
  · exact absurd hnil hlabel

/-! ## Two kinds of children -/

def tally (p q : Constituent → Bool) (s : Nat × Nat) (x : Constituent) : Nat × Nat :=
  (s.1 + (p x).toNat, s.2 + (q x).toNat)

def Constituent.isIn (set : List Terminal) : Constituent → Bool
  | .token t => set.contains t
  | .node _ => false

def Constituent.isNode (r : Label → Bool) : Constituent → Bool
  | .token _ => false
  | .node l => r l

theorem readRow_tally (p q : Constituent → Bool) (ts : List Tree) : ∀ s, readRow (tally p q) s ts =
    (s.1 + ts.countP (p ∘ Tree.constituent), s.2 + ts.countP (q ∘ Tree.constituent)) := by
  induction ts with
  | nil => intro s; rfl
  | cons t ts ih =>
    intro s
    have hone (p : Constituent → Bool) : (t :: ts).countP (p ∘ Tree.constituent) =
        (p t.constituent).toNat + ts.countP (p ∘ Tree.constituent) := by
      rw [List.countP_cons, Nat.add_comm]
      cases hp : p t.constituent <;> simp [hp]
    rw [readRow_cons, ih, hone p, hone q]
    simp only [tally, Nat.add_assoc]

/-- How often two kinds occur among the children of a node is told by the body of its rule. -/
theorem Derivation.tally_mem {l : Label} {cs : List Tree} (h : Derivation (.node l cs)) {p q : Constituent → Bool}
    (hset : (Rule.ofLabel .statement l).body.settled (tally p q) [(0, 0)] = true) :
    (cs.countP (p ∘ Tree.constituent), cs.countP (q ∘ Tree.constituent)) ∈
      (Rule.ofLabel .statement l).body.ends (tally p q) [(0, 0)] := by
  rw [← Rule.label_ofLabel .statement l] at h
  simpa only [readRow_tally, Nat.zero_add] using h.readRow_mem_ends hset

theorem Derivation.of_mem_parts {t : Tree} (h : Derivation t) : ∀ u ∈ t.parts, Derivation u := by
  induction h with
  | leaf x => intro u hu; simp only [Tree.parts_leaf, List.mem_singleton] at hu; exact hu ▸ .leaf x
  | node row below ih =>
    intro u hu
    rw [Tree.parts_node, List.mem_cons, List.mem_flatMap] at hu
    rcases hu with rfl | ⟨c, hc, hu⟩
    · exact .node row below
    · exact ih c hc u hu

/-- Each rule takes as many constituents of one kind as of another, and one more if its label is of a
    third kind. -/
def Balanced (p q : Constituent → Bool) (r : Label → Bool) : Prop :=
  ∀ l, (Rule.ofLabel .statement l).body.settled (tally p q) [(0, 0)] = true ∧
    ∀ s ∈ (Rule.ofLabel .statement l).body.ends (tally p q) [(0, 0)], s.1 = s.2 + if r l then 1 else 0

/-- So it is for the whole tree, which is itself a child of no node. -/
theorem Derives.surplus {l : Label} {t : Tree} (h : Derives l t) {p q : Constituent → Bool} {r : Label → Bool}
    (hrows : Balanced p q r) :
    t.parts.countP (p ∘ Tree.constituent) + (if q (.node l) then 1 else 0) =
      t.parts.countP (q ∘ Tree.constituent) + t.parts.countP (Constituent.isNode r ∘ Tree.constituent) +
        if p (.node l) then 1 else 0 := by
  rw [← h.1]
  refine Tree.countP_parts (p := p ∘ Tree.constituent) (q := q ∘ Tree.constituent)
    (r := Constituent.isNode r ∘ Tree.constituent) t fun u hu => ?_
  cases u with
  | leaf x => rfl
  | node l ds =>
    obtain ⟨hset, hends⟩ := hrows l
    exact hends _ ((h.2.of_mem_parts _ hu).tally_mem hset)

theorem Derives.surplus_alone {l : Label} {t : Tree} (h : Derives l t) {p : Constituent → Bool} {r : Label → Bool}
    (hrows : Balanced p (fun _ => false) r) :
    t.parts.countP (p ∘ Tree.constituent) =
      t.parts.countP (Constituent.isNode r ∘ Tree.constituent) + if p (.node l) then 1 else 0 := by
  simpa [Function.comp_def] using h.surplus hrows

/-! ## The census of a class -/

theorem countP_isIn (t : Tree) (set : List Terminal) :
    t.parts.countP (Constituent.isIn set ∘ Tree.constituent) = t.leaves.countP (·.terminal ∈ set) := by
  rw [Tree.countP_leaves]
  refine List.countP_congr fun u _ => ?_
  cases u <;> simp [Constituent.isIn, Tree.constituent, Tree.token?]

theorem countP_isNode (t : Tree) (label : Label) :
    t.parts.countP (Constituent.isNode (· == label) ∘ Tree.constituent) = (t.findAll label).length := by
  rw [Tree.length_findAll]
  refine List.countP_congr fun u _ => ?_
  cases u <;> simp [Constituent.isNode, Tree.constituent, Tree.label?]

theorem balanced_openers {label : Label} (h : label.openers ≠ []) :
    Balanced (Constituent.isIn label.openers) (fun _ => false) (· == label) := by
  cases label with
  | classVarDec | subroutineDec | varDec | letStatement | ifStatement | whileStatement | doStatement
  | returnStatement =>
    intro l
    cases l <;> decide +kernel
  | _ => exact absurd rfl h

theorem balanced_subroutine {label : Label} (h : label = .parameterList ∨ label = .subroutineBody) :
    Balanced (Constituent.isNode (· == label)) (fun _ => false) (· == .subroutineDec) := by
  rcases h with rfl | rfl <;> intro l <;> cases l <;> decide +kernel

theorem balanced_braces :
    Balanced (Constituent.isIn [.symbol .lbrace]) (Constituent.isNode (· == .statements)) (· == .classDec) := by
  intro l
  cases l <;> decide +kernel

theorem balanced_class : Balanced (Constituent.isNode (· == .classDec)) (fun _ => false) (fun _ => false) := by
  intro l
  cases l <;> decide +kernel

theorem length_findAll_classDec {t : Tree} (h : Derives .classDec t) : (t.findAll .classDec).length = 1 := by
  have hnone : t.parts.countP (Constituent.isNode (fun _ => false) ∘ Tree.constituent) = 0 :=
    List.countP_eq_zero.mpr fun u _ => by cases u <;> exact Bool.false_ne_true
  have hcount := h.surplus_alone balanced_class
  rw [countP_isNode, hnone] at hcount
  exact hcount

/-- An else stands between the two blocks of an `if`, and nowhere else. -/
theorem Derivation.count_else {l : Label} {cs : List Tree} (h : Derivation (.node l cs)) :
    cs.countP (Constituent.isIn [.keyword .elseKw] ∘ Tree.constituent) =
      if l = .ifStatement ∧ (Tree.node l cs).childLabels.count .statements = 2 then 1 else 0 := by
  have hrule : ∀ l, (Rule.ofLabel .statement l).body.settled
      (tally (Constituent.isIn [.keyword .elseKw]) (Constituent.isNode (· == .statements))) [(0, 0)] = true ∧
      ∀ s ∈ (Rule.ofLabel .statement l).body.ends
        (tally (Constituent.isIn [.keyword .elseKw]) (Constituent.isNode (· == .statements))) [(0, 0)],
        s.1 = if l = .ifStatement ∧ s.2 = 2 then 1 else 0 := by
    intro l
    cases l <;> decide +kernel
  have hblocks : (Tree.node l cs).childLabels.count .statements =
      cs.countP (Constituent.isNode (· == .statements) ∘ Tree.constituent) := by
    rw [Tree.childLabels, List.count, List.countP_filterMap]
    refine List.countP_congr fun u _ => ?_
    cases u <;> simp [Constituent.isNode, Tree.constituent, Tree.label?]
  rw [hblocks]
  exact (hrule l).2 _ (h.tally_mem (hrule l).1)

theorem Derives.elses {l : Label} {t : Tree} (h : Derives l t) : t.leaves.countP (·.terminal = .keyword .elseKw) =
    (t.findAll .ifStatement).countP (·.childLabels.count .statements = 2) := by
  have hcount := Tree.countP_parts (p := Constituent.isIn [.keyword .elseKw] ∘ Tree.constituent) (q := fun _ => false)
    (r := fun u => decide (u.childLabels.count .statements = 2) && u.label? == some .ifStatement) t fun u hu => by
      cases u with
      | leaf x => rfl
      | node l ds => simpa [Tree.label?, Tree.children, and_comm] using (h.2.of_mem_parts _ hu).count_else
  rw [countP_isIn] at hcount
  rw [Tree.findAll_eq_filter_parts, List.countP_filter]
  simpa [h.1, Constituent.isIn] using hcount

/-- In every class, the constructs are as many as the words that begin them, and stand where these
    stand. -/
theorem classDec_census (ts : List Token) (tree : Tree) (h : Rule.classDec.parse ts = .ok tree) : Census ts tree := by
  obtain ⟨hd, rfl⟩ := classDec_parse_iff.mp h
  constructor
  case opens => exact fun _ _ _ ht hopener => hd.opens ht hopener
  case begins => exact fun _ _ _ hlabel hat => hd.begins hlabel hat
  case constructs =>
    intro label hlabel
    have hcount := hd.surplus_alone (balanced_openers hlabel)
    rw [countP_isIn, countP_isNode] at hcount
    exact hcount.symm
  case elses => exact hd.elses
  case parameterLists =>
    have hcount := hd.surplus_alone (balanced_subroutine (.inl rfl))
    rwa [countP_isNode, countP_isNode] at hcount
  case bodies =>
    have hcount := hd.surplus_alone (balanced_subroutine (.inr rfl))
    rwa [countP_isNode, countP_isNode] at hcount
  case braces =>
    have hcount := hd.surplus balanced_braces
    rw [countP_isIn, countP_isNode, countP_isNode, length_findAll_classDec hd] at hcount
    simpa [Constituent.isIn, Constituent.isNode, Nat.add_comm] using hcount

/-- A field, and a method with a variable, an `if` with an else part and a return. -/
theorem classDec_census_method :
    let ts := [Terminal.keyword .classKw, .identifier, .symbol .lbrace, .keyword .fieldKw, .keyword .intKw, .identifier,
      .symbol .semicolon, .keyword .methodKw, .keyword .intKw, .identifier, .symbol .lparen, .symbol .rparen,
      .symbol .lbrace, .keyword .varKw, .keyword .intKw, .identifier, .symbol .semicolon, .keyword .ifKw,
      .symbol .lparen, .identifier, .symbol .rparen, .symbol .lbrace, .symbol .rbrace, .keyword .elseKw,
      .symbol .lbrace, .symbol .rbrace, .keyword .returnKw, .identifier, .symbol .semicolon, .symbol .rbrace,
      .symbol .rbrace].map Terminal.token
    ∃ tree, Rule.classDec.parse ts = .ok tree ∧ Census ts tree ∧ (tree.findAll .statements).length = 3 := by
  intro ts
  obtain ⟨tree, h⟩ : ∃ tree, Rule.classDec.parse ts = .ok tree := ⟨_, rfl⟩
  have hcensus := classDec_census ts tree h
  have hbraces : ts.countP (·.terminal = .symbol .lbrace) = 4 := by decide
  exact ⟨tree, h, hcensus, by have := hcensus.braces; omega⟩

end Grammar

end JackAnalyzer
