/-
  JackAnalyzer.Token.Scan — the tokens of a source unit, read line by line.

  A line ends after its line feed. Within a line, in code: two slashes end the line's
  scan, a slash and a star open a comment, a quote opens a string constant, a blank or a
  symbol ends the word before it, and any other character belongs to a word. A string
  constant ends at the next quote of its own line. A comment ends at the next star and
  slash after its two opening characters, on this line or a later one: an open comment is
  all that one line hands to the next.

  Faults win in the order of the text: the word that a character ends is classified before
  the character itself is looked at further.
-/

import JackAnalyzer.Text.Blank
import JackAnalyzer.Text.Lines
import JackAnalyzer.Text.Utf8
import JackAnalyzer.Token.Classify

namespace JackAnalyzer

namespace Token

open Text

/-- Where a comment was opened: its two opening characters. -/
structure Opening where
  span : Span
  line : Nat
  deriving DecidableEq, Repr

/-- What a stretch of text yields: its tokens, and the comment still open behind it. -/
abbrev Scan := Except LexicalFault (List Token × Option Opening)

namespace Scan

/-- Tokens in front of a scan; a fault in front wins. -/
def after (before : Except LexicalFault (List Token)) (scan : Scan) : Scan := do
  let ts ← before
  let (us, opening) ← scan
  return (ts ++ us, opening)

end Scan

/-- The token of a word that ends at offset `pos`, latest character first; none for no
    characters. -/
def ofWord (line pos : Nat) (word : List Char) : Except LexicalFault (List Token) :=
  if word.isEmpty then .ok []
  else (ofLexeme (String.ofList word.reverse) ⟨pos - byteLength word, pos⟩ line).map ([·])

/-- The fault of a string constant that its line does not close. -/
def openStringFault (line start : Nat) (text : List Char) : LexicalFault :=
  let lexeme := '"' :: (text.dropWhile fun c => c = '\r' || c = '\n').reverse
  ⟨⟨start, start + byteLength lexeme⟩, line, String.ofList lexeme, .openString⟩

mutual

/-- A line from offset `pos` on, in code, behind the open `word` (latest character first). -/
def scanCode (line pos : Nat) (word : List Char) : List Char → Scan
  | [] => (ofWord line pos word).map (·, none)
  | '/' :: '/' :: _ => (ofWord line pos word).map (·, none)
  | '/' :: '*' :: rest =>
    .after (ofWord line pos word) (scanComment line (pos + 2) ⟨⟨pos, pos + 2⟩, line⟩ rest)
  | '"' :: rest => .after (ofWord line pos word) (scanString line (pos + 1) pos [] rest)
  | c :: rest =>
    if isBlank c then .after (ofWord line pos word) (scanCode line (pos + c.utf8Size) [] rest)
    else
      match Symbol.ofChar? c with
      | some s =>
        .after (ofWord line pos word)
          (.after (.ok [⟨.symbol s, s.text, ⟨pos, pos + c.utf8Size⟩, line⟩]) (scanCode line (pos + c.utf8Size) [] rest))
      | none => scanCode line (pos + c.utf8Size) (c :: word) rest

def scanComment (line pos : Nat) (opening : Opening) : List Char → Scan
  | [] => .ok ([], some opening)
  | '*' :: '/' :: rest => scanCode line (pos + 2) [] rest
  | c :: rest => scanComment line (pos + c.utf8Size) opening rest

/-- A line from offset `pos` on, in a string constant that was opened at offset `start`,
    behind its `text` (latest character first). -/
def scanString (line pos start : Nat) (text : List Char) : List Char → Scan
  | [] => .error (openStringFault line start text)
  | '"' :: rest =>
    .after (.ok [⟨.stringConstant, String.ofList text.reverse, ⟨start, pos + 1⟩, line⟩]) (scanCode line (pos + 1) [] rest)
  | c :: rest => scanString line (pos + c.utf8Size) start (c :: text) rest

end

def scanLine (line pos : Nat) : Option Opening → List Char → Scan
  | none => scanCode line pos []
  | some opening => scanComment line pos opening

/-- The lines from number `line` and offset `pos` on. -/
def scanLines (line pos : Nat) (opening : Option Opening) : List (List Char) → Scan
  | [] => .ok ([], opening)
  | l :: ls => do
    let (ts, opening) ← scanLine line pos opening l
    let (us, opening) ← scanLines (line + 1) (pos + byteLength l) opening ls
    return (ts ++ us, opening)

/-- The tokens of a whole text; a comment still open at its end is a fault. -/
def scanChars (cs : List Char) : Except LexicalFault (List Token) := do
  let (ts, opening) ← scanLines 1 0 none (lines cs)
  match opening with
  | none => return ts
  | some o => throw ⟨o.span, o.line, "/*", .openComment⟩

def scan (source : String) : Except LexicalFault (List Token) := scanChars source.toList

end Token

end JackAnalyzer
