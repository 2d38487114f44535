/-
  JackAnalyzer.Toml.Document — TOML 1.0 documents read into their members. Nothing is told
  about a text that is no document. Keys may have at most 79 parts, and arrays and tables in
  braces may be nested at most 79 deep: deeper ones are refused, as readers may.
-/

import JackAnalyzer.Toml.Number
import JackAnalyzer.Toml.Quoted
import JackAnalyzer.Toml.Value

namespace JackAnalyzer.Toml

abbrev Reader (α : Type) := List Char → Option (α × List Char)

/-- The most parts of a key, and the deepest nesting of values. -/
def depthLimit : Nat := 79

/-! ## Blanks -/

/-- What follows a comment, or the text itself if there is none. -/
def skipComment : List Char → List Char
  | '#' :: cs => cs.dropWhile isPlain
  | cs => cs

/-- What follows the blanks, line ends and comments between the items of an array. -/
def skipFiller (inComment : Bool) : List Char → List Char
  | '\n' :: cs => skipFiller false cs
  | '\r' :: '\n' :: cs => skipFiller false cs
  | c :: cs =>
    if inComment then (if isPlain c then skipFiller true cs else c :: cs)
    else if isSpace c then skipFiller false cs
    else if c = '#' then skipFiller true cs
    else c :: cs
  | [] => []

def endOfLine? (cs : List Char) : Option (List Char) :=
  match skipComment (skipSpace cs) with
  | [] => some []
  | cs => newline? cs

/-! ## Keys -/

def isBareKeyChar (c : Char) : Bool := c.isAlphanum || c = '-' || c = '_'

/-- One part of a key: bare, or quoted on one line. -/
def keyPart? : Reader String
  | '"' :: cs => (Quoted.basic false false cs).map fun (s, rest) => (String.ofList s, rest)
  | '\'' :: cs => (Quoted.literal false cs).map fun (s, rest) => (String.ofList s, rest)
  | cs =>
    let part := cs.takeWhile isBareKeyChar
    if part.isEmpty then none else some (String.ofList part, cs.dropWhile isBareKeyChar)

/-- A key of `n` parts at most: the front and the last part. -/
def key? : Nat → Reader (List String × String)
  | 0, _ => none
  | n + 1, cs => do
    let (part, cs) ← keyPart? (skipSpace cs)
    match skipSpace cs with
    | '.' :: cs => do
      let ((path, last), rest) ← key? n cs
      return ((part :: path, last), rest)
    | cs => return (([], part), cs)

def keyAndSign? (cs : List Char) : Option ((List String × String) × List Char) := do
  let (key, cs) ← key? depthLimit cs
  let cs ← char? '=' cs
  return (key, skipSpace cs)

/-! ## Values -/

def arrayItems? (value? : Reader Value) : Nat → Reader (List Value)
  | 0, _ => none
  | n + 1, cs =>
    match skipFiller false cs with
    | ']' :: rest => some ([], rest)
    | cs => do
      let (v, cs) ← value? cs
      match skipFiller false cs with
      | ',' :: cs => do
        let (vs, rest) ← arrayItems? value? n cs
        return (v :: vs, rest)
      | ']' :: rest => return ([v], rest)
      | _ => none

/-- The members of a table in braces, behind those read before, `n` more at most. -/
def braceMembers? (value? : Reader Value) : Nat → Members → Reader Members
  | 0, _, _ => none
  | n + 1, ms, cs => do
    let ((path, key), cs) ← keyAndSign? cs
    let (v, cs) ← value? cs
    let ms ← Members.assign path key v .braces ms
    match skipSpace cs with
    | ',' :: cs => braceMembers? value? n ms cs
    | '\x7d' :: rest => return (ms, rest)
    | _ => none

def braces? (value? : Reader Value) (cs : List Char) : Option (Members × List Char) :=
  match skipSpace cs with
  | '\x7d' :: rest => some ([], rest)
  | cs => braceMembers? value? cs.length [] cs

def scalarValue? (cs : List Char) : Option (Value × List Char) :=
  match cs with
  | 't' :: 'r' :: 'u' :: 'e' :: rest => some (.boolean true, rest)
  | 'f' :: 'a' :: 'l' :: 's' :: 'e' :: rest => some (.boolean false, rest)
  | _ =>
    match quoted? cs with
    | some (s, rest) => some (.string (String.ofList s), rest)
    | none =>
      match dateTime? cs with
      | some rest => some (.dateTime, rest)
      | none =>
        match float? cs with
        | some rest => some (.float, rest)
        | none => (integer? cs).map fun (n, rest) => (.integer n, rest)

/-- A value with at most `depth` arrays and tables around its innermost one. -/
def value? : Nat → Reader Value
  | 0, cs =>
    match cs with
    | '[' :: _ => none
    | '\x7b' :: _ => none
    | cs => scalarValue? cs
  | depth + 1, cs =>
    match cs with
    | '[' :: cs => (arrayItems? (value? depth) cs.length cs).map fun (vs, rest) => (.array vs, rest)
    | '\x7b' :: cs => (braces? (value? depth) cs).map fun (ms, rest) => (.table .braces ms, rest)
    | cs => scalarValue? cs

/-! ## Documents -/

/-- A document as far as it was read: its members, and the header that assignments go under. -/
structure Progress where
  members : Members
  header : List String

def header? (p : Progress) (cs : List Char) : Option (Progress × List Char) :=
  match cs with
  | '[' :: cs => do
    let ((path, key), cs) ← key? depthLimit cs
    let cs ← char? ']' cs
    let cs ← char? ']' cs
    let rest ← endOfLine? cs
    return (⟨← p.members.openItem path key, path ++ [key]⟩, rest)
  | cs => do
    let ((path, key), cs) ← key? depthLimit cs
    let cs ← char? ']' cs
    let rest ← endOfLine? cs
    return (⟨← p.members.openTable path key, path ++ [key]⟩, rest)

def assignment? (p : Progress) (cs : List Char) : Option (Progress × List Char) := do
  let ((path, key), cs) ← keyAndSign? cs
  let (v, cs) ← value? depthLimit cs
  let rest ← endOfLine? cs
  return (⟨← p.members.assignUnder p.header path key v, p.header⟩, rest)

/-- What stands on `n` lines at most; a value may take several lines as one. -/
def lines? : Nat → Progress → List Char → Option Members
  | 0, _, _ => none
  | n + 1, p, cs =>
    match skipSpace cs with
    | [] => some p.members
    | '[' :: cs => do
      let (p, rest) ← header? p cs
      lines? n p rest
    | cs =>
      match endOfLine? cs with
      | some rest => lines? n p rest
      | none => do
        let (p, rest) ← assignment? p cs
        lines? n p rest

def document? (source : String) : Option Members :=
  let cs := source.toList
  let cs := if cs.head? = some '\ufeff' then cs.tail else cs
  lines? (cs.length + 1) ⟨[], []⟩ cs

end JackAnalyzer.Toml
