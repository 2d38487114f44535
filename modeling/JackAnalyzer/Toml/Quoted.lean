/-
  JackAnalyzer.Toml.Quoted — the four kinds of quoted text in TOML: basic and literal, on
  one line or, between three quotes, on several. A reader gets the text behind the opening
  quotes and answers what was quoted and what follows the closing ones.
-/

import JackAnalyzer.Text.Hex

namespace JackAnalyzer.Toml

/-- A character that comments and literal text may hold: a tab, or no control. -/
def isPlain (c : Char) : Bool := c = '\t' || (32 ≤ c.toNat && c.toNat ≠ 127)

def isSpace (c : Char) : Bool := c = ' ' || c = '\t'

def skipSpace (cs : List Char) : List Char := cs.dropWhile isSpace

/-- What follows a line end, alone or with a carriage return before it. -/
def newline? : List Char → Option (List Char)
  | '\n' :: cs => some cs
  | '\r' :: '\n' :: cs => some cs
  | _ => none

/-- The character of a code point in hexadecimal; a surrogate is none. -/
def scalar? (digits : List Char) : Option Char := do
  let n ← Text.hexNumber? digits
  if n.isValidChar then return Char.ofNat n else none

namespace Quoted

def push (c : Char) (r : Option (List Char × List Char)) : Option (List Char × List Char) := r.map fun (s, rest) => (c :: s, rest)

/-- Basic text. Over several lines, one or two quotes belong to the text, also in front of
    the closing three, a line end is one line feed, and a backslash at the end of a line
    `trims` all blanks and line ends that follow. -/
def basic (lines : Bool) (trims : Bool) : List Char → Option (List Char × List Char)
  | [] => none
  | '\\' :: 'b' :: cs => push '\x08' (basic lines false cs)
  | '\\' :: 't' :: cs => push '\t' (basic lines false cs)
  | '\\' :: 'n' :: cs => push '\n' (basic lines false cs)
  | '\\' :: 'f' :: cs => push '\x0c' (basic lines false cs)
  | '\\' :: 'r' :: cs => push '\r' (basic lines false cs)
  | '\\' :: '"' :: cs => push '"' (basic lines false cs)
  | '\\' :: '\\' :: cs => push '\\' (basic lines false cs)
  | '\\' :: 'u' :: a :: b :: c :: d :: cs =>
    match scalar? [a, b, c, d] with
    | some x => push x (basic lines false cs)
    | none => none
  | '\\' :: 'U' :: a :: b :: c :: d :: e :: f :: g :: h :: cs =>
    match scalar? [a, b, c, d, e, f, g, h] with
    | some x => push x (basic lines false cs)
    | none => none
  | '\\' :: cs => if lines && (newline? (skipSpace cs)).isSome then basic lines true cs else none
  | '"' :: cs =>
    if lines then
      match cs with
      | '"' :: '"' :: '"' :: '"' :: rest => some (['"', '"'], rest)
      | '"' :: '"' :: '"' :: rest => some (['"'], rest)
      | '"' :: '"' :: rest => some ([], rest)
      | _ => push '"' (basic lines false cs)
    else some ([], cs)
  | '\r' :: '\n' :: cs =>
    if !lines then none else if trims then basic lines true cs else push '\n' (basic lines false cs)
  | '\n' :: cs =>
    if !lines then none else if trims then basic lines true cs else push '\n' (basic lines false cs)
  | c :: cs => if trims && isSpace c then basic lines true cs else if isPlain c then push c (basic lines false cs) else none

/-- Literal text: no escapes; otherwise as basic text. -/
def literal (lines : Bool) : List Char → Option (List Char × List Char)
  | [] => none
  | '\'' :: cs =>
    if lines then
      match cs with
      | '\'' :: '\'' :: '\'' :: '\'' :: rest => some (['\'', '\''], rest)
      | '\'' :: '\'' :: '\'' :: rest => some (['\''], rest)
      | '\'' :: '\'' :: rest => some ([], rest)
      | _ => push '\'' (literal lines cs)
    else some ([], cs)
  | '\r' :: '\n' :: cs => if lines then push '\n' (literal lines cs) else none
  | '\n' :: cs => if lines then push '\n' (literal lines cs) else none
  | c :: cs => if isPlain c then push c (literal lines cs) else none

end Quoted

/-- Quoted text of any kind. A line end right behind three opening quotes is not part of it. -/
def quoted? : List Char → Option (List Char × List Char)
  | '"' :: '"' :: '"' :: cs => Quoted.basic true false ((newline? cs).getD cs)
  | '"' :: cs => Quoted.basic false false cs
  | '\'' :: '\'' :: '\'' :: cs => Quoted.literal true ((newline? cs).getD cs)
  | '\'' :: cs => Quoted.literal false cs
  | _ => none

end JackAnalyzer.Toml
