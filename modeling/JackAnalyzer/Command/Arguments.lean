/-
  JackAnalyzer.Command.Arguments — the command line read into an invocation.

  The words in front of the subcommand are flags; behind it, flags, options with a value and
  one path. Short flags may be joined; an option's value is attached, with or without a sign
  of equality, or is the next word. The next word is no value if it starts with a dash, unless
  it is a dash alone. Two dashes end all options. Nothing but the verbose flag may be given
  twice, and no path or value may be empty.
-/

import JackAnalyzer.Render.Format

namespace JackAnalyzer.Command

/-- What is asked for, with the options of each subcommand. -/
inductive Task where
  | analyze (path : String) (format : Option Format) (dir config : Option String) (tokens : Bool)
  | check (path : String)
  | tokens (path : String) (format : Format)
  | tree (path : String) (format : Format)
  deriving DecidableEq, Repr

structure Invocation where
  task : Task
  /-- How often the verbose flag counts. -/
  verbose : Nat
  quiet : Bool
  deriving DecidableEq, Repr

inductive Stop where
  | usage
  | help
  | version
  deriving DecidableEq, Repr

/-! ## Options -/

inductive Flag where
  | verbose | quiet | help | version | format | outDir | tokens | config
  deriving DecidableEq, Repr

namespace Flag

def short : Flag → Char
  | verbose => 'v'
  | quiet => 'q'
  | help => 'h'
  | version => 'V'
  | format => 'f'
  | outDir => 'o'
  | tokens => 't'
  | config => 'c'

def long : Flag → String
  | verbose => "verbose"
  | quiet => "quiet"
  | help => "help"
  | version => "version"
  | format => "format"
  | outDir => "out-dir"
  | tokens => "tokens"
  | config => "config"

def takesValue : Flag → Bool
  | format | outDir | config => true
  | _ => false

end Flag

inductive Verb where
  | analyze | check | tokens | tree
  deriving DecidableEq, Repr

namespace Verb

def name : Verb → String
  | analyze => "analyze"
  | check => "check"
  | tokens => "tokens"
  | tree => "tree"

def ofName? (s : String) : Option Verb := [analyze, check, tokens, tree].find? (·.name == s)

/-- The options that may stand behind the subcommand. -/
def flags : Verb → List Flag
  | analyze => [.format, .outDir, .tokens, .config, .verbose, .quiet, .help]
  | check => [.verbose, .quiet, .help]
  | tokens => [.format, .verbose, .quiet, .help]
  | tree => [.format, .verbose, .quiet, .help]

end Verb

/-- The options that may stand in front of the subcommand. -/
def leadingFlags : List Flag := [.verbose, .quiet, .help, .version]

/-- What the words read so far give. -/
structure Given where
  verbose : Nat
  quiet : Bool
  tokens : Bool
  format : Option Format
  dir : Option String
  config : Option String
  path : Option String

namespace Given

def nothing : Given := ⟨0, false, false, none, none, none, none⟩

/-- A value that is not there yet and not empty. -/
def once (old : Option String) (value : String) : Except Stop (Option String) :=
  if old.isSome || value.isEmpty then .error .usage else .ok (some value)

def flag (g : Given) : Flag → Except Stop Given
  | .verbose => .ok { g with verbose := g.verbose + 1 }
  | .quiet => if g.quiet then .error .usage else .ok { g with quiet := true }
  | .tokens => if g.tokens then .error .usage else .ok { g with tokens := true }
  | .help => .error .help
  | .version => .error .version
  | _ => .error .usage

def option (g : Given) (o : Flag) (value : String) : Except Stop Given :=
  match o with
  | .format =>
    match g.format, Format.ofName? value with
    | none, some f => .ok { g with format := some f }
    | _, _ => .error .usage
  | .outDir => do return { g with dir := ← once g.dir value }
  | .config => do return { g with config := ← once g.config value }
  | _ => .error .usage

def argument (g : Given) (value : String) : Except Stop Given := do return { g with path := ← once g.path value }

/-- Silent and talkative at once. -/
def isTorn (g : Given) : Bool := g.quiet && g.verbose ≠ 0

end Given

/-! ## Words -/

inductive Word where
  /-- A path or a value. -/
  | plain (s : String)
  /-- Two dashes. -/
  | separator
  /-- A long option, and the value attached to it. -/
  | long (name : String) (value : Option String)
  /-- Short options, the last of them perhaps with a value attached. -/
  | short (cs : List Char)

def Word.ofArgument (arg : String) : Word :=
  match arg.toList with
  | ['-'] => .plain arg
  | ['-', '-'] => .separator
  | '-' :: '-' :: cs =>
    let name := cs.takeWhile (· ≠ '=')
    match cs.dropWhile (· ≠ '=') with
    | [] => .long (String.ofList name) none
    | _ :: value => .long (String.ofList name) (some (String.ofList value))
  | '-' :: cs => .short cs
  | _ => .plain arg

/-- Takes joined short options; the last may be left waiting for its value. -/
def readShort (flags : List Flag) : List Char → Given → Except Stop (Given × Option Flag)
  | [], g => .ok (g, none)
  | c :: cs, g =>
    match flags.find? (·.short == c) with
    | none => .error .usage
    | some o =>
      if o.takesValue then
        match cs with
        | [] => .ok (g, some o)
        | '=' :: value => do return (← g.option o (String.ofList value), none)
        | value => do return (← g.option o (String.ofList value), none)
      else do readShort flags cs (← g.flag o)

/-- Takes a long option, which may be left waiting for its value. -/
def readLong (flags : List Flag) (name : String) (value : Option String) (g : Given) :
    Except Stop (Given × Option Flag) :=
  match flags.find? (·.long == name) with
  | none => .error .usage
  | some o =>
    match o.takesValue, value with
    | true, some v => do return (← g.option o v, none)
    | true, none => .ok (g, some o)
    | false, some _ => .error .usage
    | false, none => do return (← g.flag o, none)

/-- Takes the words behind the subcommand; `waiting` is the option whose value comes next. -/
def readWords (flags : List Flag) : Option Flag → List String → Given → Except Stop Given
  | none, [], g => .ok g
  | some _, [], _ => .error .usage
  | some o, arg :: args, g =>
    match Word.ofArgument arg with
    | .plain s => do readWords flags none args (← g.option o s)
    | _ => .error .usage
  | none, arg :: args, g =>
    match Word.ofArgument arg with
    | .plain s => do readWords flags none args (← g.argument s)
    | .separator => args.foldlM Given.argument g
    | .long name value => do
      let (g, waiting) ← readLong flags name value g
      readWords flags waiting args g
    | .short cs => do
      let (g, waiting) ← readShort flags cs g
      readWords flags waiting args g

/-- Takes the words in front of the subcommand: what they give, its name, the words behind. -/
def readLeading : List String → Given → Except Stop (Given × String × List String)
  | [], _ => .error .usage
  | arg :: args, g =>
    match Word.ofArgument arg with
    | .plain name => .ok (g, name, args)
    | .separator => .error .usage
    | .long name value => do
      let (g, _) ← readLong leadingFlags name value g
      readLeading args g
    | .short cs => do
      let (g, _) ← readShort leadingFlags cs g
      readLeading args g

/-! ## The whole line -/

def Verb.task (v : Verb) (g : Given) (path : String) : Task :=
  match v with
  | analyze => .analyze path g.format g.dir g.config g.tokens
  | check => .check path
  | tokens => .tokens path (g.format.getD default)
  | tree => .tree path (g.format.getD default)

/-- The invocation that the arguments are. The verbose flags behind the subcommand, if there
    are any, count instead of those in front of it. -/
def read (args : List String) : Except Stop Invocation := do
  let (leading, name, args) ← readLeading args .nothing
  match Verb.ofName? name with
  | none =>
    if name = "help" && (args = [] || (args.length = 1 && args.all fun a => (Verb.ofName? a).isSome)) then .error .help
    else .error .usage
  | some verb => do
    let g ← readWords verb.flags none args .nothing
    match g.path with
    | none => .error .usage
    | some path =>
      if g.isTorn || leading.isTorn then .error .usage
      else
        return ⟨verb.task g path, if g.verbose = 0 then leading.verbose else g.verbose, leading.quiet || g.quiet⟩

end JackAnalyzer.Command
