/-
  JackAnalyzer.Command.Log — what a run tells on the error stream: log lines, each shown
  from some number of verbose flags on, and lines that are always shown. A log line spells
  out the characters that could steer a terminal; other lines show them as they are.
-/

import JackAnalyzer.Command.Arguments
import JackAnalyzer.Grammar.Session

namespace JackAnalyzer.Command

inductive Level where
  | info | debug | trace
  deriving DecidableEq, Repr

namespace Level

/-- The name, five columns wide. -/
def name : Level → String
  | info => " INFO"
  | debug => "DEBUG"
  | trace => "TRACE"

/-- The number of verbose flags from which lines of the level are shown. -/
def threshold : Level → Nat
  | info => 1
  | debug => 2
  | trace => 3

end Level

inductive Notice where
  | log (level : Level) (message : String)
  | line (text : String)
  deriving DecidableEq, Repr

namespace Notice

def failure (message : String) : Notice := line ("[ERROR] " ++ message)

def ofEntry (e : Grammar.Entry) : Notice :=
  log .trace ("enter rule=\"" ++ e.label.text ++ "\" line=" ++ toString e.line)

/-- A character of a log line. One that could steer a terminal is spelled out. -/
def spell (c : Char) : List Char :=
  match c with
  | '\x07' => ['\\', 'x', '0', '7']
  | '\x08' => ['\\', 'x', '0', '8']
  | '\x0c' => ['\\', 'x', '0', 'c']
  | '\x1b' => ['\\', 'x', '1', 'b']
  | '\x7f' => ['\\', 'x', '7', 'f']
  | c =>
    if 0x80 ≤ c.toNat && c.toNat ≤ 0x9f then ['\\', 'u', '\x7b'] ++ Nat.toDigits 16 c.toNat ++ ['\x7d'] else [c]

/-- The text shown; a quiet run shows no log lines. -/
def shown (i : Invocation) : Notice → String
  | log level message =>
    if !i.quiet && level.threshold ≤ i.verbose then
      level.name ++ " " ++ String.ofList (message.toList.flatMap spell) ++ "\n"
    else ""
  | line text => text ++ "\n"

end Notice

def errorStream (i : Invocation) (ns : List Notice) : String := String.join (ns.map (Notice.shown i))

end JackAnalyzer.Command
