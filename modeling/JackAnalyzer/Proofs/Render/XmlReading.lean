/-
  JackAnalyzer.Proofs.Render.XmlReading — nested tags read back. A reader takes the tags of a
  text one by one and keeps the elements that are open, the innermost first. An opening tag
  opens an element; a closing one, which must have its name, makes it a child of the element
  around it. What an element is, its name tells: one that is named as a class of tokens is a
  token, and what stands behind its opening tag is its text; any other is a node.
  - `read_tree`, `read_tokens`: reading undoes rendering.
  - `rendering_decodable`: both, and that a rendering shows an outline of one form only.
-/

import JackAnalyzer.Proofs.Render.Outline
import JackAnalyzer.Render.Xml

namespace JackAnalyzer.Render.Xml

/-! ## The reader -/

def unescape : List Char → List Char
  | '&' :: 'l' :: 't' :: ';' :: cs => '<' :: unescape cs
  | '&' :: 'g' :: 't' :: ';' :: cs => '>' :: unescape cs
  | '&' :: 'a' :: 'm' :: 'p' :: ';' :: cs => '&' :: unescape cs
  | '&' :: 'q' :: 'u' :: 'o' :: 't' :: ';' :: cs => '"' :: unescape cs
  | c :: cs => c :: unescape cs
  | [] => []

/-- The tags of a text in order, each with what stands between it and the next. -/
def tags : List Char → List (List Char × List Char)
  | [] => []
  | c :: cs =>
    if c = '<' then (cs.takeWhile (· ≠ '>'), (cs.dropWhile (· ≠ '>')).tail.takeWhile (· ≠ '<')) :: tags cs
    else tags cs

/-- An element: its name, what stands behind its opening tag, and its children so far, the
    latest first. -/
structure Element where
  name : List Char
  text : List Char
  children : List Outline

namespace Element

def hold (e : Element) (o : Outline) : Element := { e with children := o :: e.children }

/-- What a closed element shows. The text of a token stands between two blanks. -/
def outline (e : Element) : Outline :=
  if String.ofList e.name ∈ Token.Kind.labels then
    .leaf (String.ofList e.name) (String.ofList (unescape e.text.tail.dropLast))
  else .node (String.ofList e.name) e.children.reverse

end Element

/-- Takes a tag, with the elements that are open in front of it. -/
def step : List Element → List Char × List Char → Option (List Element)
  | e :: f :: es, ('/' :: name, _) => if e.name = name then some (f.hold e.outline :: es) else none
  | _, ('/' :: _, _) => none
  | es, (name, text) => some (⟨name, text, []⟩ :: es)

def readFrom (es : List Element) (cs : List Char) : Option (List Element) := (tags cs).foldlM step es

/-- Around the one element of a text stands one without a name, which holds it. -/
def read (text : String) : Option Outline :=
  match readFrom [⟨[], [], []⟩] text.toList with
  | some [⟨_, _, [o]⟩] => some o
  | _ => none

/-! ## Escapes -/

theorem unescape_escapeChar (c : Char) (cs : List Char) : unescape (escapeChar c ++ cs) = c :: unescape cs := by
  unfold escapeChar
  split
  · rfl
  · rfl
  · rfl
  · rfl
  · rename_i hamp _
    rw [List.singleton_append, unescape] <;> intros <;> simp_all

theorem unescape_escape (cs : List Char) : unescape (escape cs) = cs := by
  induction cs with
  | nil => rfl
  | cons c cs ih => rw [escape, List.flatMap_cons, unescape_escapeChar]; exact congrArg _ ih

/-! ## Tags -/

/-- A name that a tag can have: neither bracket stands in it, and a closing tag is told by its
    slash. -/
def IsTagName (name : String) : Prop := '<' ∉ name.toList ∧ '>' ∉ name.toList ∧ name.toList.head? ≠ some '/'

theorem isTagName_kind (k : Token.Kind) : IsTagName k.label := by
  cases k <;> simp [IsTagName, Token.Kind.label]

theorem isTagName_label (l : Label) : IsTagName l.text := by
  cases l <;> simp [IsTagName, Label.text]

theorem tags_append {xs : List Char} (h : '<' ∉ xs) (cs : List Char) : tags (xs ++ cs) = tags cs := by
  induction xs with
  | nil => rfl
  | cons x xs ih =>
    rw [List.mem_cons, not_or] at h
    obtain ⟨hx, hxs⟩ := h
    rw [List.cons_append, tags, if_neg (Ne.symm hx), ih hxs]

theorem tags_tag {name : List Char} (hopen : '<' ∉ name) (hclose : '>' ∉ name) (cs : List Char) :
    tags ('<' :: name ++ '>' :: cs) = (name, cs.takeWhile (· ≠ '<')) :: tags cs := by
  have hall : ∀ c ∈ name, decide (c ≠ '>') = true := fun c hc => decide_eq_true fun h => hclose (h ▸ hc)
  have hskip : tags (name ++ '>' :: cs) = tags cs := by
    rw [tags_append hopen, tags, if_neg (by decide)]
  rw [List.cons_append, tags, if_pos rfl, hskip, List.takeWhile_append_of_pos hall, List.dropWhile_append_of_pos hall]
  simp

section Reading

variable {name : String} (hn : IsTagName name) (es : List Element) (cs : List Char)

theorem readFrom_append {xs : List Char} (h : '<' ∉ xs) : readFrom es (xs ++ cs) = readFrom es cs := by
  rw [readFrom, tags_append h, readFrom]

theorem readFrom_newline : readFrom es ('\n' :: cs) = readFrom es cs := by
  rw [readFrom, tags, if_neg (by decide), readFrom]

theorem notMem_indent (depth : Nat) : '<' ∉ indent depth := by simp [indent]

include hn

theorem readFrom_openTag :
    readFrom es (openTag name ++ cs) = readFrom (⟨name.toList, cs.takeWhile (· ≠ '<'), []⟩ :: es) cs := by
  obtain ⟨hopen, hclose, hslash⟩ := hn
  have hstep : ∀ text, step es (name.toList, text) = some (⟨name.toList, text, []⟩ :: es) := by
    intro text
    unfold step
    split <;> simp_all
  have htag : openTag name ++ cs = '<' :: name.toList ++ '>' :: cs := by simp [openTag]
  rw [htag, readFrom, tags_tag hopen hclose, List.foldlM_cons, hstep]
  rfl

theorem readFrom_closeTag (e f : Element) (he : e.name = name.toList) :
    readFrom (e :: f :: es) (closeTag name ++ cs) = readFrom (f.hold e.outline :: es) cs := by
  have hopen : '<' ∉ '/' :: name.toList := by simpa using hn.1
  have hclose : '>' ∉ '/' :: name.toList := by simpa using hn.2.1
  have htag : closeTag name ++ cs = '<' :: ('/' :: name.toList) ++ '>' :: cs := by simp [closeTag]
  rw [htag, readFrom, tags_tag hopen hclose, List.foldlM_cons]
  simp only [step, he, if_true]
  rfl

end Reading

/-! ## Reading undoes rendering -/

def textOf (ls : List (List Char)) : List Char := ls.flatMap (· ++ ['\n'])

theorem textOf_cons (l : List Char) (ls : List (List Char)) : textOf (l :: ls) = l ++ '\n' :: textOf ls := by
  simp [textOf]

theorem textOf_append (ls ms : List (List Char)) : textOf (ls ++ ms) = textOf ls ++ textOf ms := List.flatMap_append

theorem readFrom_tokenLine (t : Token) (f : Element) (es : List Element) (cs : List Char) :
    readFrom (f :: es) (tokenLine t ++ '\n' :: cs) = readFrom (f.hold t.outline :: es) cs := by
  have hname := isTagName_kind t.kind
  have hbody : '<' ∉ ' ' :: escape t.text.toList ++ [' '] := by
    have hescape : '<' ∉ escape t.text.toList := fun h => (not_special_of_mem_escape h).1 rfl
    simpa using hescape
  -- what stands between the two tags is the text that the element has
  have htext : ((' ' :: escape t.text.toList ++ [' ']) ++ (closeTag t.kind.label ++ '\n' :: cs)).takeWhile (· ≠ '<')
      = ' ' :: escape t.text.toList ++ [' '] := by
    have hall : ∀ c ∈ ' ' :: escape t.text.toList ++ [' '], decide (c ≠ '<') = true :=
      fun c hc => decide_eq_true fun h => hbody (h ▸ hc)
    rw [List.takeWhile_append_of_pos hall]
    simp [closeTag]
  have hline : tokenLine t ++ '\n' :: cs = openTag t.kind.label ++
      ((' ' :: escape t.text.toList ++ [' ']) ++ (closeTag t.kind.label ++ '\n' :: cs)) := by
    simp [tokenLine]
  have houtline : Element.outline ⟨t.kind.label.toList, ' ' :: escape t.text.toList ++ [' '], []⟩ = t.outline := by
    simp [Element.outline, Token.outline, t.kind.label_mem_labels, unescape_escape]
  rw [hline, readFrom_openTag hname, htext, readFrom_append _ _ hbody, readFrom_closeTag hname _ _ _ _ rfl, houtline]
  exact readFrom_newline _ cs

mutual

/-- The lines of a tree add it to the element around it. -/
theorem readFrom_lines (depth : Nat) (f : Element) (es : List Element) (cs : List Char) (tree : Tree) :
    readFrom (f :: es) (textOf (lines depth tree) ++ cs) = readFrom (f.hold tree.outline :: es) cs := by
  match tree with
  | .leaf t =>
    rw [lines, textOf_cons, List.append_assoc, List.append_assoc, readFrom_append _ _ (notMem_indent depth)]
    simpa [textOf] using readFrom_tokenLine t f es cs
  | .node l children =>
    have hname := isTagName_label l
    have hlines : textOf (lines depth (.node l children)) ++ cs = indent depth ++ (openTag l.text ++ '\n' ::
        (textOf (linesAll (depth + 1) children) ++ (indent depth ++ (closeTag l.text ++ '\n' :: cs)))) := by
      simp [lines, textOf]
    rw [hlines, readFrom_append _ _ (notMem_indent depth), readFrom_openTag hname, readFrom_newline, readFrom_linesAll,
      readFrom_append _ _ (notMem_indent depth), readFrom_closeTag hname _ _ _ _ rfl, readFrom_newline]
    simp [Element.outline, l.text_notMem_labels]

theorem readFrom_linesAll (depth : Nat) (f : Element) (es : List Element) (cs : List Char) (trees : List Tree) :
    readFrom (f :: es) (textOf (linesAll depth trees) ++ cs) =
      readFrom ({ f with children := (trees.map Tree.outline).reverse ++ f.children } :: es) cs := by
  match trees with
  | [] => simp [linesAll, textOf]
  | t :: ts =>
    rw [linesAll, textOf_append, List.append_assoc, readFrom_lines, readFrom_linesAll]
    simp [Element.hold]

end

theorem linesAll_leaves (ts : List Token) : linesAll 0 (ts.map .leaf) = ts.map tokenLine := by
  induction ts with
  | nil => rfl
  | cons t ts ih => simp [linesAll, lines, indent, ih]

theorem toList_text (ls : List (List Char)) : (text ls).toList = textOf ls := String.toList_ofList

theorem read_tree (t : Tree) : read (tree t) = some t.outline := by
  have h := readFrom_lines 0 ⟨[], [], []⟩ [] [] t
  rw [List.append_nil] at h
  rw [read, tree, toList_text, h]
  rfl

theorem read_tokens (ts : List Token) : read (tokens ts) = some (.listing ts) := by
  have hname : IsTagName "tokens" := by simp [IsTagName]
  have hlines : textOf (openTag "tokens" :: ts.map tokenLine ++ [closeTag "tokens"]) =
      openTag "tokens" ++ '\n' :: (textOf (ts.map tokenLine) ++ (closeTag "tokens" ++ ['\n'])) := by
    simp [textOf]
  have hnode : "tokens" ∉ Token.Kind.labels := by decide
  rw [read, tokens, toList_text, hlines, readFrom_openTag hname, readFrom_newline, ← linesAll_leaves, readFrom_linesAll,
    readFrom_closeTag hname _ _ _ _ rfl, readFrom_newline]
  simp [Element.outline, Element.hold, hnode, readFrom, tags, Outline.listing, Function.comp_def]

theorem tree_ne_tokens (t : Tree) (ts : List Token) : tree t ≠ tokens ts := by
  intro h
  have hread := congrArg read h
  rw [read_tree, read_tokens] at hread
  exact t.outline_ne_listing ts (Option.some.inj hread)

/-! ## What a rendering shows -/

theorem tokenLine_congr {t u : Token} (h : t.outline = u.outline) : tokenLine t = tokenLine u := by
  obtain ⟨hkind, htext⟩ := Outline.leaf.inj h
  rw [tokenLine, tokenLine, hkind, htext]

/-- Trees that show the same have the same lines. -/
theorem likeness_lines : Tree.Likeness (fun t u => ∀ depth, lines depth t = lines depth u)
    (fun ts us => ∀ depth, linesAll depth ts = linesAll depth us) where
  leaf t u h depth := by rw [lines, lines, tokenLine_congr h]
  node l ts us hall depth := by rw [lines, lines, hall]
  nil depth := rfl
  cons t u ts us hone hall depth := by rw [linesAll, linesAll, hone, hall]

/-- A rendering can be read back, a tree's and a token listing's alike: the names, the nesting
    and the order of its nodes, and the class and the text of each token. So two trees have one
    rendering exactly where they show the same, and so do two listings. -/
theorem rendering_decodable :
    (∀ t : Tree, read (tree t) = some t.outline) ∧ (∀ ts : List Token, read (tokens ts) = some (.listing ts)) ∧
      (∀ t u : Tree, tree t = tree u ↔ t.outline = u.outline) ∧
      ∀ ts us : List Token, tokens ts = tokens us ↔ ts.map Token.outline = us.map Token.outline := by
  refine ⟨read_tree, read_tokens, fun t u => ⟨fun h => ?_, fun h => ?_⟩, fun ts us => ⟨fun h => ?_, fun h => ?_⟩⟩
  · have hread := congrArg read h
    rw [read_tree, read_tree] at hread
    exact Option.some.inj hread
  · rw [tree, tree, likeness_lines.of_outline_eq t u h 0]
  · have hread := congrArg read h
    rw [read_tokens, read_tokens] at hread
    exact (Outline.node.inj (Option.some.inj hread)).2
  · have hlines := likeness_lines.of_outlines_eq (ts.map .leaf) (us.map .leaf) (by simpa [Function.comp_def] using h) 0
    rw [linesAll_leaves, linesAll_leaves] at hlines
    rw [tokens, tokens, hlines]

end JackAnalyzer.Render.Xml
