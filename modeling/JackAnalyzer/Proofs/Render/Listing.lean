/-
  JackAnalyzer.Proofs.Render.Listing — the tokens of a rendered tree are its token listing. The
  lines that are the tags of nodes alone are told from those of tokens by their blanks, which no
  tag of a node has; and no token holds a line feed, so each is on one line. Of the objects of a
  JSON text, those of tokens are told by the name and the form of their one member.
  - `linesOf_text`: a text of lines is cut into these lines.
  - `Xml.filter_lines`, `Json.objects_ofTree`: what remains of a tree.
  - `SourceUnit.renderings_list_tokens`: both, of any source that compiles.
-/

import JackAnalyzer.Proofs.Render.JsonReading
import JackAnalyzer.Proofs.Render.XmlReading
import JackAnalyzer.Proofs.RoundTrip
import JackAnalyzer.Proofs.Tree.Addresses

namespace JackAnalyzer

theorem Token.newline_notMem_text {t : Token} (h : t.WellFormed) : '\n' ∉ t.text.toList := by
  have hkeyword : ∀ k ∈ Keyword.all, '\n' ∉ k.text.toList := by decide +kernel
  have hsymbol : ∀ s ∈ Symbol.all, '\n' ∉ s.text.toList := by decide +kernel
  obtain ⟨kind, text, span, line⟩ := t
  intro hmem
  cases kind with
  | keyword k => cases h; exact hkeyword k (Keyword.mem_all k) hmem
  | symbol s => cases h; exact hsymbol s (Symbol.mem_all s) hmem
  | integerConstant n => exact absurd (h.2.1 _ hmem) (by decide)
  | stringConstant => exact h.2 hmem
  | identifier => exact absurd (h.2.1 _ hmem).1 (by decide)

namespace Render.Xml

/-! ## Lines -/

def linesOf (s : String) : List (List Char) := (Text.lines s.toList).map (·.takeWhile (· ≠ '\n'))

def dropBlanks (l : List Char) : List Char := l.dropWhile Text.isBlank

/-- Blanks and the opening or the closing tag of a node are all of the line. -/
def isNodeLine (l : List Char) : Bool :=
  Label.all.any fun label => dropBlanks l = openTag label.text || dropBlanks l = closeTag label.text

theorem lines_line {l : List Char} (h : '\n' ∉ l) (cs : List Char) :
    Text.lines (l ++ '\n' :: cs) = (l ++ ['\n']) :: Text.lines cs := by
  induction l with
  | nil => simp [Text.lines]
  | cons c l ih =>
    rw [List.mem_cons, not_or] at h
    simp [Text.lines, Ne.symm h.1, ih h.2]

/-- A text of lines is cut into these lines. -/
theorem linesOf_text {ls : List (List Char)} (h : ∀ l ∈ ls, '\n' ∉ l) : linesOf (text ls) = ls := by
  rw [linesOf, toList_text]
  induction ls with
  | nil => rfl
  | cons l ls ih =>
    obtain ⟨hl, hls⟩ := List.forall_mem_cons.mp h
    have hall : ∀ c ∈ l, decide (c ≠ '\n') = true := fun c hc => decide_eq_true fun he => hl (he ▸ hc)
    rw [textOf_cons, lines_line hl, List.map_cons, ih hls, List.takeWhile_append_of_pos hall]
    simp

theorem newline_notMem_escape {cs : List Char} (h : '\n' ∉ cs) : '\n' ∉ escape cs := by
  intro hmem
  obtain ⟨c, hc, hnewline⟩ := List.mem_flatMap.mp hmem
  have hcases : c = '\n' := by
    unfold escapeChar at hnewline
    split at hnewline <;> simp_all [eq_comm]
  exact h (hcases ▸ hc)

theorem newline_notMem_tokenLine {t : Token} (h : '\n' ∉ t.text.toList) : '\n' ∉ tokenLine t := by
  have hlabel : '\n' ∉ t.kind.label.toList := by cases t.kind <;> simp [Token.Kind.label]
  simp [tokenLine, openTag, closeTag, hlabel, newline_notMem_escape h]

theorem newline_notMem_lines (t : Tree) : (∀ x ∈ t.leaves, '\n' ∉ x.text.toList) →
    ∀ depth, ∀ l ∈ lines depth t, '\n' ∉ l := by
  induction t using Tree.ind with
  | leaf x =>
    intro h depth l hl
    rw [lines, List.mem_singleton] at hl
    simpa [hl, indent] using newline_notMem_tokenLine (h x (by simp))
  | node label cs ih =>
    intro h depth l hl
    have hlabel : '\n' ∉ label.text.toList := by cases label <;> decide
    simp only [lines, linesAll_eq_flatMap, List.cons_append, List.mem_cons, List.mem_append, List.mem_flatMap,
      List.not_mem_nil, or_false] at hl
    rcases hl with rfl | ⟨c, hc, hl⟩ | rfl
    · simp [indent, openTag, hlabel]
    · refine ih c hc (fun x hx => h x ?_) _ l hl
      rw [Tree.leaves_node]
      exact List.mem_flatMap.mpr ⟨c, hc, hx⟩
    · simp [indent, closeTag, hlabel]

/-! ## The lines of tokens -/

theorem dropBlanks_indent {l : List Char} (h : l.head? = some '<') (depth : Nat) :
    dropBlanks (indent depth ++ l) = l := by
  have hall : ∀ c ∈ indent depth, Text.isBlank c = true := by
    intro c hc
    obtain rfl := List.eq_of_mem_replicate hc
    decide
  obtain ⟨cs, rfl⟩ := List.head?_eq_some_iff.mp h
  rw [dropBlanks, List.dropWhile_append_of_pos hall]
  rfl

theorem dropBlanks_tokenLine (depth : Nat) (t : Token) : dropBlanks (indent depth ++ tokenLine t) = tokenLine t :=
  dropBlanks_indent rfl depth

theorem isNodeLine_tag (depth : Nat) (label : Label) :
    isNodeLine (indent depth ++ openTag label.text) = true ∧
      isNodeLine (indent depth ++ closeTag label.text) = true := by
  refine ⟨List.any_eq_true.mpr ⟨label, label.mem_all, ?_⟩, List.any_eq_true.mpr ⟨label, label.mem_all, ?_⟩⟩
  · rw [dropBlanks_indent (l := openTag label.text) rfl]
    simp
  · rw [dropBlanks_indent (l := closeTag label.text) rfl]
    simp

/-- The line of a token has blanks within it, and the tags of nodes have none. -/
theorem isNodeLine_tokenLine (depth : Nat) (t : Token) : isNodeLine (indent depth ++ tokenLine t) = false := by
  have hblank : ' ' ∈ dropBlanks (indent depth ++ tokenLine t) := by
    rw [dropBlanks_tokenLine]
    simp [tokenLine]
  refine List.any_eq_false.mpr fun label _ h => ?_
  rw [Bool.or_eq_true, decide_eq_true_eq, decide_eq_true_eq] at h
  have hlabel : ' ' ∉ openTag label.text ∧ ' ' ∉ closeTag label.text := by cases label <;> decide
  rcases h with h | h
  · exact hlabel.1 (h ▸ hblank)
  · exact hlabel.2 (h ▸ hblank)

/-- Without the tags of nodes and the blanks in front, what remains of a tree is its tokens. -/
theorem filter_lines (t : Tree) : ∀ depth,
    ((lines depth t).filter (!isNodeLine ·)).map dropBlanks = t.leaves.map tokenLine := by
  induction t using Tree.ind with
  | leaf x =>
    intro depth
    simp [lines, isNodeLine_tokenLine, dropBlanks_tokenLine]
  | node label cs ih =>
    intro depth
    obtain ⟨hopen, hclose⟩ := isNodeLine_tag depth label
    have hbelow : ((cs.flatMap (lines (depth + 1))).filter (!isNodeLine ·)).map dropBlanks =
        (cs.flatMap Tree.leaves).map tokenLine := by
      rw [List.filter_flatMap, List.map_flatMap, List.map_flatMap]
      exact List.flatMap_congr fun c hc => ih c hc _
    rw [lines, linesAll_eq_flatMap, List.cons_append, List.filter_cons_of_neg (by simp [hopen]), List.filter_append,
      List.filter_cons_of_neg (by simp [hclose]), List.filter_nil, List.append_nil, hbelow, Tree.leaves_node]

end Render.Xml

namespace Render.Json

/-! ## The objects of tokens -/

mutual

/-- The objects of a value in the order of the document, an object before those within it. -/
def Datum.objects : Datum → List Datum
  | .array items => objectsAll items
  | .object members => .object members :: objectsOf members
  | _ => []

def Datum.objectsAll : List Datum → List Datum
  | [] => []
  | d :: ds => d.objects ++ objectsAll ds

def Datum.objectsOf : List (String × Datum) → List Datum
  | [] => []
  | (_, d) :: members => d.objects ++ objectsOf members

end

def Datum.isToken : Datum → Bool
  | .object [(name, .string _)] => Token.Kind.labels.contains name
  | _ => false

theorem objectsAll_eq_flatMap (ds : List Datum) : Datum.objectsAll ds = ds.flatMap Datum.objects := by
  induction ds with
  | nil => rfl
  | cons d ds ih => simp [Datum.objectsAll, ih]

theorem datumAll_eq_map (vs : List Value) : Value.datumAll vs = vs.map Value.datum := by
  induction vs with
  | nil => rfl
  | cons v vs ih => simp [Value.datumAll, ih]

theorem datum_ofToken (t : Token) : (ofToken t).datum = .object [(t.kind.label, .string t.text)] := by
  rw [ofToken, Value.datum, Value.datum]

theorem objects_ofTree (t : Tree) :
    (ofTree t).datum.objects.filter Datum.isToken = t.leaves.map fun x => (ofToken x).datum := by
  induction t using Tree.ind with
  | leaf x =>
    have htoken : Datum.isToken (.object [(x.kind.label, .string x.text)]) = true :=
      List.contains_iff_mem.mpr x.kind.label_mem_labels
    simp [ofTree, datum_ofToken, Datum.objects, Datum.objectsOf, htoken]
  | node label cs ih =>
    have hnode : Datum.isToken (.object [(label.text, .array (Value.datumAll (ofTrees cs)))]) = false := rfl
    rw [ofTree, Value.datum, Value.datum, Datum.objects, List.filter_cons_of_neg (by simp [hnode])]
    simp only [Datum.objectsOf, Datum.objects, List.append_nil, objectsAll_eq_flatMap, datumAll_eq_map, ofTrees_eq_map,
      List.flatMap_map, List.filter_flatMap, Tree.leaves_node, List.map_flatMap]
    exact List.flatMap_congr ih

end Render.Json

namespace SourceUnit

open Render

/-- Of any source that compiles: the lines of its tree that are no tags of nodes, without the
    blanks in front, are those within the XML listing of its tokens; and the objects of tokens in
    its tree are the items of the JSON listing. -/
theorem renderings_list_tokens (source : String) (u : SourceUnit) (h : compile source = .ok u) :
    Xml.linesOf (Xml.tokens u.tokens) = Xml.openTag "tokens" ::
      ((Xml.linesOf (Xml.tree u.tree)).filter (!Xml.isNodeLine ·)).map Xml.dropBlanks ++ [Xml.closeTag "tokens"] ∧
    ∃ d, Json.value? (Json.tree u.tree).toList = some (d, ['\n']) ∧
      Json.value? (Json.tokens u.tokens).toList =
        some (.object [("tokens", .array (d.objects.filter Json.Datum.isToken))], ['\n']) := by
  obtain ⟨hd, hw⟩ := derives_of_compile h
  obtain ⟨-, hparse⟩ := compile_eq_ok_iff.mp h
  have hleaves : u.tree.leaves = u.tokens := (Grammar.classDec_parse_iff.mp hparse).2
  have hnewline : ∀ x ∈ u.tree.leaves, '\n' ∉ x.text.toList := fun x hx => Token.newline_notMem_text (hw x hx)
  constructor
  · have hlisting : ∀ l ∈ Xml.openTag "tokens" :: u.tokens.map Xml.tokenLine ++ [Xml.closeTag "tokens"], '\n' ∉ l := by
      intro l hl
      simp only [List.cons_append, List.mem_cons, List.mem_append, List.mem_map, List.not_mem_nil, or_false] at hl
      rcases hl with rfl | ⟨x, hx, rfl⟩ | rfl
      · decide
      · exact Xml.newline_notMem_tokenLine (hnewline x (hleaves ▸ hx))
      · decide
    rw [Xml.tokens, Xml.linesOf_text hlisting, Xml.tree, Xml.linesOf_text (Xml.newline_notMem_lines _ hnewline 0),
      Xml.filter_lines, hleaves]
  · refine ⟨_, Json.value?_document _, ?_⟩
    rw [Json.objects_ofTree, hleaves, Json.tokens, Json.value?_document, Json.Value.datum, Json.Value.datum,
      Json.datumAll_eq_map, List.map_map]
    rfl

/-- A text that looks as the tag of a node does. -/
theorem renderings_list_tokens_tag :
    let source := "class A\x7bmethod int f()\x7breturn \"<term>\";\x7d\x7d"
    ∃ u, compile source = .ok u ∧
      Xml.linesOf (Xml.tokens u.tokens) = Xml.openTag "tokens" ::
        ((Xml.linesOf (Xml.tree u.tree)).filter (!Xml.isNodeLine ·)).map Xml.dropBlanks ++ [Xml.closeTag "tokens"] := by
  intro source
  have hok : (compile source).toOption.isSome = true := by decide +kernel
  cases hu : compile source with
  | error e =>
    rw [hu] at hok
    cases hok
  | ok u => exact ⟨u, rfl, (renderings_list_tokens source u hu).1⟩

end SourceUnit

end JackAnalyzer
