/-
  JackAnalyzer.Proofs.Render.Outline — what a rendering shows: the names of nodes, their
  nesting and the order of their children, and of every token the name of its class and its
  text. Places are not shown, nor what a token's kind carries besides its class.
  - `outline_ne_listing`: a tree never looks like a token listing.
-/

import JackAnalyzer.Tree

namespace JackAnalyzer

inductive Outline where
  /-- A token: the name of its class and its text. -/
  | leaf (kind text : String)
  | node (name : String) (children : List Outline)

def Token.outline (t : Token) : Outline := .leaf t.kind.label t.text

namespace Tree

mutual

def outline : Tree → Outline
  | leaf t => t.outline
  | node l cs => .node l.text (outlineAll cs)

def outlineAll : List Tree → List Outline
  | [] => []
  | t :: ts => outline t :: outlineAll ts

end

theorem outlineAll_eq_map (ts : List Tree) : outlineAll ts = ts.map outline := by
  induction ts with
  | nil => rfl
  | cons t ts ih => simp [outlineAll, ih]

@[simp] theorem outline_leaf (t : Token) : (leaf t).outline = t.outline := by simp [outline]

@[simp] theorem outline_node (l : Label) (cs : List Tree) : (node l cs).outline = .node l.text (cs.map outline) := by
  simp [outline, outlineAll_eq_map]

end Tree

def Outline.listing (ts : List Token) : Outline := .node "tokens" (ts.map Token.outline)

theorem Tree.outline_ne_listing (tree : Tree) (ts : List Token) : tree.outline ≠ .listing ts := by
  cases tree with
  | leaf t => simp [Token.outline, Outline.listing]
  | node l cs => cases l <;> simp [Label.text, Outline.listing]

/-! ## Names -/

def Token.Kind.labels : List String := ["keyword", "symbol", "integerConstant", "stringConstant", "identifier"]

theorem Token.Kind.label_mem_labels (k : Token.Kind) : k.label ∈ labels := by
  cases k <;> simp [label, labels]

theorem Label.text_notMem_labels (l : Label) : l.text ∉ Token.Kind.labels := by cases l <;> decide

theorem Label.text_injective {l m : Label} (h : l.text = m.text) : l = m :=
  Option.some.inj ((ofText?_text l).symm.trans (h ▸ ofText?_text m))

/-! ## Trees that show the same -/

/-- A likeness of trees that tokens have which show the same, and that goes on from rows of
    trees to the nodes of one label around them. -/
structure Tree.Likeness (alike : Tree → Tree → Prop) (alikeAll : List Tree → List Tree → Prop) : Prop where
  leaf (t u : Token) : t.outline = u.outline → alike (.leaf t) (.leaf u)
  node (l : Label) (ts us : List Tree) : alikeAll ts us → alike (.node l ts) (.node l us)
  nil : alikeAll [] []
  cons (t u : Tree) (ts us : List Tree) : alike t u → alikeAll ts us → alikeAll (t :: ts) (u :: us)

namespace Tree.Likeness

variable {alike : Tree → Tree → Prop} {alikeAll : List Tree → List Tree → Prop}

mutual

/-- Trees that show the same have one form, and tokens that show the same at each place. -/
theorem of_outline_eq (hl : Likeness alike alikeAll) (t u : Tree) (h : t.outline = u.outline) : alike t u := by
  match t, u with
  | .leaf t, .leaf u =>
    rw [outline_leaf, outline_leaf] at h
    exact hl.leaf t u h
  | .leaf t, .node l us => simp [Token.outline] at h
  | .node l ts, .leaf u => simp [Token.outline] at h
  | .node l ts, .node m us =>
    rw [outline_node, outline_node] at h
    obtain ⟨hname, hchildren⟩ := Outline.node.inj h
    obtain rfl := Label.text_injective hname
    exact hl.node l ts us (hl.of_outlines_eq ts us hchildren)

theorem of_outlines_eq (hl : Likeness alike alikeAll) (ts us : List Tree) (h : ts.map outline = us.map outline) :
    alikeAll ts us := by
  match ts, us with
  | [], [] => exact hl.nil
  | [], u :: us => cases h
  | t :: ts, [] => cases h
  | t :: ts, u :: us =>
    rw [List.map_cons, List.map_cons] at h
    obtain ⟨hhead, htail⟩ := List.cons.inj h
    exact hl.cons t u ts us (hl.of_outline_eq t u hhead) (hl.of_outlines_eq ts us htail)

end

end Tree.Likeness

end JackAnalyzer
