/-
  JackAnalyzer.Proofs.NodeSpans — the spans of the nodes of a source unit. What stands in the
  source at the span of a node is a text with the node's leaves as its tokens, and the spans of
  the node's parts lie in it in order.
  - `leaves_isInfix_of_mem_findAll`: the leaves of a node stand together in those of the tree.
  - `compile_cuts_out`: the text at the span of a node.
-/

import JackAnalyzer.Proofs.RoundTrip
import JackAnalyzer.Proofs.Token.Cutting

namespace JackAnalyzer

namespace Token

/-- No token is without text, and each begins behind the end of those before it. -/
def Ordered (ts : List Token) : Prop :=
  (∀ t ∈ ts, t.span.start < t.span.stop) ∧ ts.Pairwise fun t u => t.span.stop ≤ u.span.start

theorem Ordered.of_isInfix {ts us : List Token} (h : Ordered ts) (hus : us <:+: ts) : Ordered us :=
  ⟨fun u hu => h.1 u (hus.subset hu), h.2.sublist hus.sublist⟩

theorem ordered_of_tokenize {source : String} {ts : List Token} (h : SourceUnit.tokenize source = .ok ts) :
    Ordered ts := by
  rw [tokenize_eq_tokensFrom] at h
  have hcov := covered_of_tokensFrom [] source.toList h
  refine ⟨fun t ht => ?_, hcov.pairwise⟩
  obtain ⟨pre, _, -, hne, hspan, -, -⟩ := hcov.exists_append t ht
  have hpos := byteLength_pos hne
  rw [hspan, Text.byteLength_append]
  dsimp only
  omega

end Token

namespace Tree

open Token

/-! ## Leaves that stand together -/

/-- The leaves of a node of the tree stand together among those of the tree. -/
theorem leaves_isInfix_of_mem_findAll {label : Label} {t u : Tree} (h : u ∈ t.findAll label) :
    u.leaves <:+: t.leaves := by
  refine findAll.induct label (fun t => ∀ u ∈ t.findAll label, u.leaves <:+: t.leaves)
    (fun ts => ∀ u ∈ findAllIn label ts, u.leaves <:+: leavesAll ts) ?leaf ?found ?other ?nil ?cons t u h
  case leaf =>
    intro t u h
    simp [findAll] at h
  case found =>
    intro cs ih u h
    simp only [findAll, if_true, List.mem_cons] at h
    rcases h with rfl | h
    · exact List.infix_rfl
    · exact ih u h
  case other =>
    intro l cs hl ih u h
    simp only [findAll, hl, if_false] at h
    exact ih u h
  case nil =>
    intro u h
    simp [findAllIn] at h
  case cons =>
    intro t ts iht ihts u h
    simp only [findAllIn, List.mem_append] at h
    rw [leavesAll]
    rcases h with h | h
    · exact List.infix_append_of_infix_left (iht u h)
    · exact (ihts u h).trans (List.suffix_append _ _).isInfix

theorem leaves_isInfix_of_mem_children {node child : Tree} (h : child ∈ node.children) :
    child.leaves <:+: node.leaves := by
  cases node with
  | leaf t => cases h
  | node l cs =>
    obtain ⟨before, behind, rfl⟩ := List.append_of_mem h
    refine ⟨before.flatMap leaves, behind.flatMap leaves, ?_⟩
    rw [leaves_node, List.flatMap_append, List.flatMap_cons, List.append_assoc]

/-! ## Spans in order -/

theorem exists_first_last {t : Tree} (h : t.leaves ≠ []) : ∃ first last, t.leaves.head? = some first ∧
    t.leaves.getLast? = some last ∧ first ∈ t.leaves ∧ last ∈ t.leaves ∧
      t.span = ⟨first.span.start, last.span.stop⟩ := by
  have hfirst := List.head?_eq_some_head h
  have hlast := List.getLast?_eq_some_getLast h
  exact ⟨_, _, hfirst, hlast, List.head_mem h, List.getLast_mem h, by rw [span, hfirst, hlast]⟩

theorem within_span {t : Tree} (h : Ordered t.leaves) {u : Token} (hu : u ∈ t.leaves) :
    t.span.start ≤ u.span.start ∧ u.span.stop ≤ t.span.stop := by
  obtain ⟨first, last, hfirst, hlast, -, -, hspan⟩ := exists_first_last (List.ne_nil_of_mem hu)
  rw [hspan]
  constructor
  · obtain ⟨rest, hrest⟩ := List.head?_eq_some_iff.mp hfirst
    rw [hrest] at hu h
    rcases List.mem_cons.mp hu with rfl | hu
    · exact le_rfl
    · have hle := (List.pairwise_cons.mp h.2).1 u hu
      have := h.1 first List.mem_cons_self
      dsimp only
      omega
  · obtain ⟨rest, hrest⟩ := List.getLast?_eq_some_iff.mp hlast
    rw [hrest] at hu h
    rcases List.mem_append.mp hu with hu | hu
    · have hle := (List.pairwise_append.mp h.2).2.2 u hu last List.mem_cons_self
      have := h.1 last (List.mem_append_right _ List.mem_cons_self)
      dsimp only
      omega
    · rw [List.mem_singleton.mp hu]

theorem span_nonempty {t : Tree} (h : Ordered t.leaves) (hne : t.leaves ≠ []) : t.span.start < t.span.stop := by
  obtain ⟨first, _, -, -, hfirst, -, -⟩ := exists_first_last hne
  obtain ⟨hstart, hstop⟩ := within_span h hfirst
  have := h.1 first hfirst
  omega

theorem child_within_span {node child : Tree} (h : Ordered node.leaves) (hchild : child ∈ node.children)
    (hne : child.leaves ≠ []) : node.span.start ≤ child.span.start ∧ child.span.start < child.span.stop ∧
      child.span.stop ≤ node.span.stop := by
  obtain ⟨first, last, -, -, hfirst, hlast, hspan⟩ := exists_first_last hne
  have hpart := leaves_isInfix_of_mem_children hchild
  have hstart := (within_span h (hpart.subset hfirst)).1
  have hstop := (within_span h (hpart.subset hlast)).2
  have hnonempty := span_nonempty (h.of_isInfix hpart) hne
  rw [hspan] at hnonempty ⊢
  exact ⟨hstart, hnonempty, hstop⟩

theorem children_pairwise {node : Tree} (h : Ordered node.leaves) :
    node.children.Pairwise fun c d => c.leaves ≠ [] → d.leaves ≠ [] → c.span.stop ≤ d.span.start := by
  cases node with
  | leaf t => exact .nil
  | node l cs =>
    rw [leaves_node] at h
    refine (List.pairwise_flatMap.mp h.2).2.imp fun hcd hc hd => ?_
    obtain ⟨_, last, -, -, -, hlast, hspan⟩ := exists_first_last hc
    obtain ⟨first, _, -, -, hfirst, -, hspan'⟩ := exists_first_last hd
    rw [hspan, hspan']
    exact hcd last hlast first hfirst

end Tree

namespace SourceUnit

open Grammar Token

/-- What stands in the source at the span of a node is a text of its own. -/
structure CutsOut (source : String) (node : Tree) : Prop where
  /-- The span is not empty, lies within the source and cuts no character. -/
  span : node.span.start < node.span.stop ∧ node.span.stop ≤ source.utf8ByteSize ∧
    (String.Pos.Raw.mk node.span.start).IsValid source ∧ (String.Pos.Raw.mk node.span.stop).IsValid source
  /-- The children with leaves have spans within it. -/
  children : ∀ c ∈ node.children, c.leaves ≠ [] →
    node.span.start ≤ c.span.start ∧ c.span.start < c.span.stop ∧ c.span.stop ≤ node.span.stop
  /-- Of two of these, the earlier one ends before the later one begins. -/
  ordered : node.children.Pairwise fun c d => c.leaves ≠ [] → d.leaves ≠ [] → c.span.stop ≤ d.span.start
  /-- The text has the leaves of the node as its tokens, where they stand in the source. -/
  tokens : ∃ part ts, part.toByteArray = bytesAt source node.span ∧ tokenize part = .ok ts ∧
    ∀ first ∈ node.leaves.head?, ts.map (Token.behind node.span.start (first.line - 1)) = node.leaves

/-- In a source that compiles, each node that has leaves cuts a text out of the source that has
    these leaves as its tokens, as many bytes and lines further on. The spans of its children with
    leaves lie within its own in order. -/
theorem compile_cuts_out (source : String) (u : SourceUnit) (h : compile source = .ok u) (label : Label) (node : Tree)
    (hnode : node ∈ u.tree.findAll label) (hne : node.leaves ≠ []) : CutsOut source node := by
  obtain ⟨htokens, hparse⟩ := compile_eq_ok_iff.mp h
  obtain ⟨-, hleaves⟩ := classDec_parse_iff.mp hparse
  have hpart := Tree.leaves_isInfix_of_mem_findAll hnode
  rw [hleaves] at hpart
  have hordered := (ordered_of_tokenize htokens).of_isInfix hpart
  obtain ⟨first, last, hfirst, hlast, -, -, hspan⟩ := Tree.exists_first_last hne
  obtain ⟨before, behind, hall⟩ := hpart
  rw [tokenize_eq_tokensFrom, ← hall] at htokens
  obtain ⟨pre, part, post, ts, hsource, hstart, hstop, hline, hread, hmap⟩ :=
    tokensFrom_between htokens hfirst hlast
  rw [hstart, hstop] at hspan
  refine { span := ⟨Tree.span_nonempty hordered hne, ?_⟩, children := fun c hc => Tree.child_within_span hordered hc,
           ordered := Tree.children_pairwise hordered, tokens := ⟨String.ofList part, ts, ?_, ?_, ?_⟩ }
  · rw [hspan, utf8ByteSize_eq_byteLength]
    refine ⟨?_, isValid_byteLength (by rw [hsource, List.append_assoc]), isValid_byteLength hsource⟩
    rw [hsource, Text.byteLength_append _ post]
    exact Nat.le_add_right ..
  · rw [hspan]
    exact (bytesAt_eq post hsource).symm
  · rw [tokenize_ofList, hread]
  · intro t ht
    rw [hfirst] at ht
    cases ht
    rw [hspan, hline, Nat.add_sub_cancel]
    exact hmap

/-- The last statement of a body, on a line of its own behind characters of more than one byte. -/
theorem compile_cuts_out_return :
    let source := "class A\x7bmethod int f()\x7bdo g(\"\u00fc\");/*\n\u00e9*/ return\n-x/*y*/+1 ;\x7d\x7d"
    ∃ u node, compile source = .ok u ∧ node ∈ u.tree.findAll .returnStatement ∧ node.span = ⟨42, 60⟩ ∧
      node.leaves ≠ [] ∧ CutsOut source node := by
  intro source
  have hfound : ((compile source).toOption.map fun u =>
      (u.tree.findAll .returnStatement).map fun n => (n.span, n.leaves.length)) = some [(⟨42, 60⟩, 6)] := by
    decide +kernel
  cases hu : compile source with
  | error e =>
    rw [hu] at hfound
    cases hfound
  | ok u =>
    rw [hu] at hfound
    obtain ⟨node, hnodes, hnode⟩ := List.map_eq_singleton_iff.mp (Option.some.inj hfound)
    obtain ⟨hspan, hlength⟩ := Prod.mk.inj hnode
    have hmem : node ∈ u.tree.findAll .returnStatement := by simp [hnodes]
    have hne : node.leaves ≠ [] := by
      rintro hnil
      rw [hnil] at hlength
      cases hlength
    exact ⟨u, node, rfl, hmem, hspan, hne, compile_cuts_out source u hu .returnStatement node hmem hne⟩

end SourceUnit

end JackAnalyzer
