/-
  JackAnalyzer.Proofs.Render.JsonReading — JSON read back. The reader takes any text of the
  format: blanks between any two parts, all seven forms of value, numbers in every notation,
  and in strings every escape, pairs of surrogates among them. It is bounded by the length of
  the text, since each level and each item takes a character at least.

  A rendering is one value and a line feed. Its objects have one member each: one that holds an
  array is a node, and one that holds a string is a token.
  - `read_tree`, `read_tokens`: reading undoes rendering.
  - `document_decodable`: both, and that a rendering shows an outline of one form only.
-/

import Mathlib.Data.List.DropRight
import JackAnalyzer.Proofs.Render.Outline
import JackAnalyzer.Render.Json

namespace JackAnalyzer.Render.Json

open Text (hexDigit hexNumber? hexValue? hexValue?_hexDigit)

/-! ## The reader -/

inductive Datum where
  | null
  | boolean (b : Bool)
  /-- A number, as it is written. -/
  | number (text : String)
  | string (s : String)
  | array (items : List Datum)
  | object (members : List (String × Datum))

/-- A reader answers what it read and what follows. -/
abbrev Reader (α : Type) := List Char → Option (α × List Char)

def isBlank (c : Char) : Bool := c = ' ' || c = '\t' || c = '\n' || c = '\r'

def skipBlank (cs : List Char) : List Char := cs.dropWhile isBlank

/-- The character that one character behind a backslash stands for. -/
def short? : Char → Option Char
  | '"' => some '"'
  | '\\' => some '\\'
  | '/' => some '/'
  | 'b' => some '\x08'
  | 'f' => some '\x0c'
  | 'n' => some '\n'
  | 'r' => some '\r'
  | 't' => some '\t'
  | _ => none

def isHighSurrogate (n : Nat) : Bool := 0xD800 ≤ n && n < 0xDC00

def isLowSurrogate (n : Nat) : Bool := 0xDC00 ≤ n && n < 0xE000

def push (c : Char) (r : Option (List Char × List Char)) : Option (List Char × List Char) :=
  r.map fun (s, rest) => (c :: s, rest)

/-- The characters of a string up to its closing quote, behind the first half of a pair of
    surrogates if there is one. -/
def characters? (high : Option Nat) : Reader (List Char)
  | [] => none
  | '"' :: cs => if high.isNone then some ([], cs) else none
  | '\\' :: 'u' :: a :: b :: c :: d :: cs =>
    match hexNumber? [a, b, c, d], high with
    | none, _ => none
    | some n, none =>
      if isHighSurrogate n then characters? (some n) cs
      else if isLowSurrogate n then none
      else push (Char.ofNat n) (characters? none cs)
    | some n, some h =>
      if isLowSurrogate n then push (Char.ofNat (0x10000 + 0x400 * (h - 0xD800) + (n - 0xDC00))) (characters? none cs)
      else none
  | '\\' :: c :: cs =>
    match short? c with
    | some x => if high.isNone then push x (characters? none cs) else none
    | none => none
  | c :: cs => if high.isSome || c = '\\' || c.toNat < 32 then none else push c (characters? none cs)

def string? : Reader String := fun cs => (characters? none cs).map fun (s, rest) => (String.ofList s, rest)

def digits? (cs : List Char) : Option (List Char × List Char) :=
  let ds := cs.takeWhile Char.isDigit
  if ds.isEmpty then none else some (ds, cs.dropWhile Char.isDigit)

/-- The digits in front of the point: no zero in front of others. -/
def whole? : Reader (List Char)
  | '0' :: cs => some (['0'], cs)
  | cs => digits? cs

def fraction? : Reader (List Char)
  | '.' :: cs => (digits? cs).map fun (ds, rest) => ('.' :: ds, rest)
  | cs => some ([], cs)

def sign : List Char → List Char × List Char
  | '+' :: cs => (['+'], cs)
  | '-' :: cs => (['-'], cs)
  | cs => ([], cs)

def exponent? : Reader (List Char)
  | c :: cs =>
    if c = 'e' || c = 'E' then
      let (s, cs) := sign cs
      (digits? cs).map fun (ds, rest) => (c :: s ++ ds, rest)
    else some ([], c :: cs)
  | [] => some ([], [])

def number? (cs : List Char) : Option (String × List Char) := do
  let (minus, cs) := if cs.head? = some '-' then (['-'], cs.tail) else ([], cs)
  let (whole, cs) ← whole? cs
  let (fraction, cs) ← fraction? cs
  let (exponent, cs) ← exponent? cs
  return (String.ofList (minus ++ whole ++ fraction ++ exponent), cs)

def scalar? : Reader Datum
  | 't' :: 'r' :: 'u' :: 'e' :: cs => some (.boolean true, cs)
  | 'f' :: 'a' :: 'l' :: 's' :: 'e' :: cs => some (.boolean false, cs)
  | 'n' :: 'u' :: 'l' :: 'l' :: cs => some (.null, cs)
  | cs => (number? cs).map fun (text, rest) => (.number text, rest)

mutual

/-- A value, with `n` levels and items at most. -/
def valueWithin : Nat → Reader Datum
  | 0, _ => none
  | n + 1, cs =>
    match skipBlank cs with
    | '"' :: cs => (string? cs).map fun (s, rest) => (.string s, rest)
    | '[' :: cs =>
      match skipBlank cs with
      | ']' :: rest => some (.array [], rest)
      | cs => (itemsWithin n cs).map fun (items, rest) => (.array items, rest)
    | '\x7b' :: cs =>
      match skipBlank cs with
      | '\x7d' :: rest => some (.object [], rest)
      | cs => (membersWithin n cs).map fun (members, rest) => (.object members, rest)
    | cs => scalar? cs

def itemsWithin : Nat → Reader (List Datum)
  | 0, _ => none
  | n + 1, cs => do
    let (item, cs) ← valueWithin n cs
    match skipBlank cs with
    | ',' :: cs => (itemsWithin n cs).map fun (items, rest) => (item :: items, rest)
    | ']' :: rest => some ([item], rest)
    | _ => none

def membersWithin : Nat → Reader (List (String × Datum))
  | 0, _ => none
  | n + 1, cs =>
    match skipBlank cs with
    | '"' :: cs => do
      let (name, cs) ← string? cs
      match skipBlank cs with
      | ':' :: cs => do
        let (value, cs) ← valueWithin n cs
        match skipBlank cs with
        | ',' :: cs => (membersWithin n cs).map fun (members, rest) => ((name, value) :: members, rest)
        | '\x7d' :: rest => some ([(name, value)], rest)
        | _ => none
      | _ => none
    | _ => none

end

def value? (cs : List Char) : Option (Datum × List Char) := valueWithin cs.length cs

/-! ## From values to outlines -/

mutual

def outline? : Datum → Option Outline
  | .object [(kind, .string s)] => some (.leaf kind s)
  | .object [(name, .array items)] => (outlineAll? items).map (.node name)
  | _ => none

def outlineAll? : List Datum → Option (List Outline)
  | [] => some []
  | d :: ds => do return (← outline? d) :: (← outlineAll? ds)

end

/-- What the value shows that a text begins with. -/
def read (text : String) : Option Outline := (value? text.toList).bind fun r => outline? r.1

/-! ## Strings -/

theorem hexNumber?_control (n : Nat) (h : n < 32) : hexNumber? ['0', '0', hexDigit (n / 16), hexDigit (n % 16)] = some n := by
  have hhigh := hexValue?_hexDigit (n / 16) (by omega)
  have hlow := hexValue?_hexDigit (n % 16) (Nat.mod_lt n (by decide))
  have hzero : hexValue? '0' = some 0 := by decide
  simp only [hexNumber?, List.foldlM_cons, List.foldlM_nil, hzero, hhigh, hlow, Option.map_some, Option.bind_eq_bind,
    Option.bind_some, pure]
  exact congrArg some (by omega)

theorem characters?_unit (a b c d : Char) (cs : List Char) :
    characters? none ('\\' :: 'u' :: a :: b :: c :: d :: cs) =
      match hexNumber? [a, b, c, d] with
      | none => none
      | some n =>
        if isHighSurrogate n then characters? (some n) cs
        else if isLowSurrogate n then none
        else push (Char.ofNat n) (characters? none cs) := by
  rw [characters?.eq_def]
  cases h : hexNumber? [a, b, c, d] <;> simp only [h]

/-- What is written for a character is read as the character, whatever follows. -/
theorem characters?_escapeChar (c : Char) (cs : List Char) :
    characters? none (escapeChar c ++ cs) = push c (characters? none cs) := by
  unfold escapeChar
  split
  · rfl
  · rfl
  · rfl
  · rfl
  · rfl
  · rfl
  · rfl
  · rename_i hquote hslash _ _ _ _ _
    split
    · rename_i hcontrol
      have hhigh : isHighSurrogate c.toNat = false := by simp [isHighSurrogate]; omega
      have hlow : isLowSurrogate c.toNat = false := by simp [isLowSurrogate]; omega
      simp only [List.cons_append, List.nil_append, characters?_unit, hexNumber?_control c.toNat hcontrol, hhigh, hlow,
        Char.ofNat_toNat, Bool.false_eq_true, if_false]
    · rename_i hcontrol
      have hplain : (Option.isSome (none : Option Nat) || decide (c = '\\') || decide (c.toNat < 32)) = false := by
        simpa using ⟨hslash, by omega⟩
      rw [List.singleton_append, characters?, hplain]
      · rfl
      all_goals simp_all

theorem characters?_escaped (s cs : List Char) :
    characters? none (s.flatMap escapeChar ++ '"' :: cs) = some (s, cs) := by
  induction s with
  | nil => rfl
  | cons c s ih =>
    rw [List.flatMap_cons, List.append_assoc, characters?_escapeChar, ih]
    rfl

theorem string?_quoted (s : String) (cs : List Char) :
    string? (s.toList.flatMap escapeChar ++ '"' :: cs) = some (s, cs) := by
  rw [string?, characters?_escaped]
  simp

/-! ## Reading undoes laying out -/

mutual

def Value.datum : Value → Datum
  | .text s => .string s
  | .array items => .array (Value.datumAll items)
  | .member name v => .object [(name, v.datum)]

def Value.datumAll : List Value → List Datum
  | [] => []
  | v :: vs => v.datum :: Value.datumAll vs

end

theorem skipBlank_append {xs : List Char} (h : xs.all isBlank = true) (cs : List Char) :
    skipBlank (xs ++ cs) = skipBlank cs :=
  List.dropWhile_append_of_pos (List.all_eq_true.mp h)

theorem skipBlank_cons {c : Char} (h : isBlank c = false) (cs : List Char) : skipBlank (c :: cs) = c :: cs := by
  simp [skipBlank, h]

theorem all_isBlank_indent (depth : Nat) : (indent depth).all isBlank = true := by simp [indent, isBlank]

theorem skipBlank_line (depth : Nat) (cs : List Char) : skipBlank ('\n' :: (indent depth ++ cs)) = skipBlank cs := by
  have h : (['\n'] ++ indent depth).all isBlank = true := by
    rw [List.all_append, all_isBlank_indent]
    rfl
  simpa using skipBlank_append h cs

theorem skipBlank_pretty (depth : Nat) (v : Value) (cs : List Char) :
    skipBlank (pretty depth v ++ cs) = pretty depth v ++ cs ∧ (pretty depth v ++ cs).head? ≠ some ']' := by
  cases v with
  | text s => exact ⟨skipBlank_cons (by decide) _, by simp [pretty, quoted]⟩
  | array items => cases items <;> exact ⟨skipBlank_cons (by decide) _, by simp [pretty]⟩
  | member name v => exact ⟨skipBlank_cons (by decide) _, by simp [pretty]⟩

theorem valueWithin_skipBlank (n : Nat) (cs : List Char) : valueWithin n (skipBlank cs) = valueWithin n cs := by
  cases n with
  | zero => rfl
  | succ n => simp only [valueWithin, skipBlank, List.dropWhile_idempotent]

theorem valueWithin_line (n depth : Nat) (cs : List Char) :
    valueWithin n ('\n' :: (indent depth ++ cs)) = valueWithin n cs := by
  rw [← valueWithin_skipBlank, skipBlank_line, valueWithin_skipBlank]

theorem valueWithin_quoted (n : Nat) (s : String) (cs : List Char) :
    valueWithin (n + 1) (quoted s ++ cs) = some (.string s, cs) := by
  have hquote : ∀ cs, valueWithin (n + 1) ('"' :: cs) = (string? cs).map fun (s, rest) => (.string s, rest) :=
    fun cs => rfl
  have htext : quoted s ++ cs = '"' :: (s.toList.flatMap escapeChar ++ '"' :: cs) := by simp [quoted]
  rw [htext, hquote, string?_quoted]
  rfl

theorem valueWithin_array (n : Nat) (cs : List Char) (h : (skipBlank cs).head? ≠ some ']') :
    valueWithin (n + 1) ('[' :: cs) = (itemsWithin n (skipBlank cs)).map fun (items, rest) => (.array items, rest) := by
  have hbracket : valueWithin (n + 1) ('[' :: cs) =
      match skipBlank cs with
      | ']' :: rest => some (.array [], rest)
      | cs => (itemsWithin n cs).map fun (items, rest) => (.array items, rest) := rfl
  rw [hbracket]
  split
  · rename_i hclose
    rw [hclose] at h
    exact absurd rfl h
  · rfl

theorem valueWithin_object (n : Nat) (cs rest : List Char) (h : skipBlank cs = '"' :: rest) :
    valueWithin (n + 1) ('\x7b' :: cs) =
      (membersWithin n ('"' :: rest)).map fun (members, rest) => (.object members, rest) := by
  have hbrace : valueWithin (n + 1) ('\x7b' :: cs) =
      match skipBlank cs with
      | '\x7d' :: rest => some (.object [], rest)
      | cs => (membersWithin n cs).map fun (members, rest) => (.object members, rest) := rfl
  rw [hbrace, h]
  rfl

theorem membersWithin_single (above n : Nat) (cs after : List Char) (name : String) (v : Datum)
    (hv : valueWithin n (' ' :: cs) = some (v, '\n' :: (indent above ++ '\x7d' :: after))) :
    membersWithin (n + 1) ('"' :: (name.toList.flatMap escapeChar ++ '"' :: ':' :: ' ' :: cs)) =
      some ([(name, v)], after) := by
  have hquote : ∀ cs, membersWithin (n + 1) ('"' :: cs) = (string? cs).bind fun (name, cs) =>
      match skipBlank cs with
      | ':' :: cs => (valueWithin n cs).bind fun (value, cs) =>
        match skipBlank cs with
        | ',' :: cs => (membersWithin n cs).map fun (members, rest) => ((name, value) :: members, rest)
        | '\x7d' :: rest => some ([(name, value)], rest)
        | _ => none
      | _ => none := fun cs => rfl
  rw [hquote, string?_quoted, Option.bind_some]
  show (valueWithin n (' ' :: cs)).bind _ = _
  rw [hv, Option.bind_some]
  dsimp only
  rw [skipBlank_line]
  rfl

theorem itemsWithin_last (above n : Nat) (cs after : List Char) (item : Datum)
    (h : valueWithin n cs = some (item, '\n' :: (indent above ++ ']' :: after))) :
    itemsWithin (n + 1) cs = some ([item], after) := by
  rw [itemsWithin, h, Option.bind_eq_bind, Option.bind_some]
  dsimp only
  rw [skipBlank_line]
  rfl

theorem itemsWithin_comma (n : Nat) (cs behind : List Char) (item : Datum)
    (h : valueWithin n cs = some (item, ',' :: behind)) :
    itemsWithin (n + 1) cs = (itemsWithin n behind).map fun (items, rest) => (item :: items, rest) := by
  rw [itemsWithin, h]
  rfl

mutual

/-- A value that is laid out is read back, whatever follows. -/
theorem valueWithin_pretty (depth n : Nat) (cs : List Char) (v : Value) (hn : (pretty depth v).length ≤ n) :
    valueWithin n (pretty depth v ++ cs) = some (v.datum, cs) := by
  match v with
  | .text s =>
    obtain ⟨n, rfl⟩ : ∃ m, n = m + 1 := Nat.exists_eq_add_of_le' (by simp [pretty, quoted] at hn; omega)
    rw [pretty, valueWithin_quoted, Value.datum]
  | .array [] =>
    obtain ⟨n, rfl⟩ : ∃ m, n = m + 1 := Nat.exists_eq_add_of_le' (by simp [pretty] at hn; omega)
    rfl
  | .array (v :: vs) =>
    simp only [pretty, List.length_append, List.length_cons, List.length_nil] at hn
    obtain ⟨n, rfl⟩ : ∃ m, n = m + 2 := Nat.exists_eq_add_of_le' (by omega)
    have htext : pretty depth (.array (v :: vs)) ++ cs = '[' :: '\n' :: (indent (depth + 1) ++ (pretty (depth + 1) v ++
        (prettyRest (depth + 1) vs ++ '\n' :: (indent depth ++ ']' :: cs)))) := by
      simp [pretty]
    have hfirst := valueWithin_pretty (depth + 1) n (prettyRest (depth + 1) vs ++ '\n' :: (indent depth ++ ']' :: cs)) v
      (by omega)
    obtain ⟨hskip, hhead⟩ := skipBlank_pretty (depth + 1) v
      (prettyRest (depth + 1) vs ++ '\n' :: (indent depth ++ ']' :: cs))
    rw [htext, valueWithin_array _ _ (by rwa [skipBlank_line, hskip]), skipBlank_line, hskip,
      itemsWithin_prettyRest (depth + 1) depth n cs _ _ vs (by omega) hfirst]
    rfl
  | .member name v =>
    simp only [pretty, List.length_append, List.length_cons, List.length_nil] at hn
    obtain ⟨n, rfl⟩ : ∃ m, n = m + 2 := Nat.exists_eq_add_of_le' (by omega)
    have htext : pretty depth (.member name v) ++ cs = '\x7b' :: '\n' :: (indent (depth + 1) ++
        '"' :: (name.toList.flatMap escapeChar ++ '"' :: ':' :: ' ' ::
          (pretty (depth + 1) v ++ '\n' :: (indent depth ++ '\x7d' :: cs)))) := by
      simp [pretty, quoted]
    have hvalue := valueWithin_pretty (depth + 1) n ('\n' :: (indent depth ++ '\x7d' :: cs)) v (by omega)
    have hskip : ∀ cs, valueWithin n (' ' :: cs) = valueWithin n cs := fun cs => by
      rw [← valueWithin_skipBlank, ← valueWithin_skipBlank n cs]
      rfl
    rw [htext, valueWithin_object _ _ _ (by rw [skipBlank_line, skipBlank_cons (by decide)]),
      membersWithin_single depth n _ cs name v.datum (by rw [hskip, hvalue])]
    rfl

theorem itemsWithin_prettyRest (depth above n : Nat) (cs front : List Char) (item : Datum) (vs : List Value)
    (hn : (prettyRest depth vs).length ≤ n)
    (hfront : valueWithin n front = some (item, prettyRest depth vs ++ '\n' :: (indent above ++ ']' :: cs))) :
    itemsWithin (n + 1) front = some (item :: Value.datumAll vs, cs) := by
  match vs with
  | [] => exact itemsWithin_last above n front cs item hfront
  | v :: vs =>
    simp only [prettyRest, List.length_append, List.length_cons, List.length_nil] at hn
    obtain ⟨n, rfl⟩ : ∃ m, n = m + 1 := Nat.exists_eq_add_of_le' (by omega)
    have htext : prettyRest depth (v :: vs) ++ '\n' :: (indent above ++ ']' :: cs) = ',' :: '\n' :: (indent depth ++
        (pretty depth v ++ (prettyRest depth vs ++ '\n' :: (indent above ++ ']' :: cs)))) := by
      simp [prettyRest]
    have hnext := valueWithin_pretty depth n (prettyRest depth vs ++ '\n' :: (indent above ++ ']' :: cs)) v (by omega)
    rw [← valueWithin_line n depth] at hnext
    rw [itemsWithin_comma _ _ _ _ (htext ▸ hfront), itemsWithin_prettyRest depth above n cs _ _ vs (by omega) hnext]
    rfl

end

/-! ## Renderings -/

theorem value?_document (v : Value) : value? (document v).toList = some (v.datum, ['\n']) := by
  rw [value?, document, String.toList_ofList]
  exact valueWithin_pretty 0 _ ['\n'] v (by simp)

/-- The reader takes more than what is laid out: no blanks, an exponent, a pair of surrogates. -/
example : (value? "[-1.5e+3,true,\"\\ud83d\\ude00\\/\"]".toList).map (·.2) = some [] := by
  decide +kernel

mutual

theorem outline?_ofTree (t : Tree) : outline? (ofTree t).datum = some t.outline := by
  match t with
  | .leaf t => rw [Tree.outline_leaf]; rfl
  | .node l cs =>
    rw [Tree.outline, ofTree, Value.datum, Value.datum, outline?, outlineAll?_ofTrees]
    rfl

theorem outlineAll?_ofTrees (ts : List Tree) :
    outlineAll? (Value.datumAll (ofTrees ts)) = some (Tree.outlineAll ts) := by
  match ts with
  | [] => rfl
  | t :: ts =>
    rw [ofTrees, Value.datumAll, outlineAll?, outline?_ofTree, outlineAll?_ofTrees]
    rfl

end

theorem ofTrees_leaves (ts : List Token) : ofTrees (ts.map .leaf) = ts.map ofToken := by
  rw [ofTrees_eq_map, List.map_map]
  rfl

theorem outline?_tokens (ts : List Token) :
    outline? (Value.member "tokens" (.array (ts.map ofToken))).datum = some (.listing ts) := by
  rw [← ofTrees_leaves, Value.datum, Value.datum, outline?, outlineAll?_ofTrees, Tree.outlineAll_eq_map, List.map_map]
  simp [Outline.listing, Function.comp_def]

theorem read_tree (t : Tree) : read (tree t) = some t.outline := by
  rw [read, tree, value?_document, Option.bind_some, outline?_ofTree]

theorem read_tokens (ts : List Token) : read (tokens ts) = some (.listing ts) := by
  rw [read, tokens, value?_document, Option.bind_some, outline?_tokens]

theorem tree_ne_tokens (t : Tree) (ts : List Token) : tree t ≠ tokens ts := by
  intro h
  have hread := congrArg read h
  rw [read_tree, read_tokens] at hread
  exact t.outline_ne_listing ts (Option.some.inj hread)

/-! ## What a rendering shows -/

theorem ofToken_congr {t u : Token} (h : t.outline = u.outline) : ofToken t = ofToken u := by
  obtain ⟨hkind, htext⟩ := Outline.leaf.inj h
  rw [ofToken, ofToken, hkind, htext]

/-- Trees that show the same are the same values. -/
theorem likeness_values : Tree.Likeness (fun t u => ofTree t = ofTree u) (fun ts us => ofTrees ts = ofTrees us) where
  leaf t u h := by rw [ofTree, ofTree, ofToken_congr h]
  node l ts us hall := by rw [ofTree, ofTree, hall]
  nil := rfl
  cons t u ts us hone hall := by rw [ofTrees, ofTrees, hone, hall]

/-- A rendering is one value and a line feed, and can be read back, a tree's and a token
    listing's alike: the names, the nesting and the order of its nodes, and the class and the
    text of each token. So two trees have one rendering exactly where they show the same, and
    so do two listings. -/
theorem document_decodable :
    (∀ t : Tree, (∃ d, value? (tree t).toList = some (d, ['\n'])) ∧ read (tree t) = some t.outline) ∧
      (∀ ts : List Token, (∃ d, value? (tokens ts).toList = some (d, ['\n'])) ∧ read (tokens ts) = some (.listing ts)) ∧
      (∀ t u : Tree, tree t = tree u ↔ t.outline = u.outline) ∧
      ∀ ts us : List Token, tokens ts = tokens us ↔ ts.map Token.outline = us.map Token.outline := by
  refine ⟨fun t => ⟨⟨_, value?_document _⟩, read_tree t⟩, fun ts => ⟨⟨_, value?_document _⟩, read_tokens ts⟩,
    fun t u => ⟨fun h => ?_, fun h => ?_⟩, fun ts us => ⟨fun h => ?_, fun h => ?_⟩⟩
  · have hread := congrArg read h
    rw [read_tree, read_tree] at hread
    exact Option.some.inj hread
  · rw [tree, tree, likeness_values.of_outline_eq t u h]
  · have hread := congrArg read h
    rw [read_tokens, read_tokens] at hread
    exact (Outline.node.inj (Option.some.inj hread)).2
  · have hrow := likeness_values.of_outlines_eq (ts.map .leaf) (us.map .leaf) (by simpa [Function.comp_def] using h)
    rw [ofTrees_leaves, ofTrees_leaves] at hrow
    rw [tokens, tokens, hrow]

end JackAnalyzer.Render.Json
