/-
  JackAnalyzer.Command.Run — a run of the command on a file system: its exit code, what it
  prints on either stream, and the file system behind it.

  An analysis reads its settings first, then finds its units; options on the command line
  win over the settings, except that the token listing can only be asked for. A run fails
  with code 1 and one last line that tells why.

  The units of a batch have their turns in the order of a schedule. What became of them is told
  in their own order.
-/

import JackAnalyzer.Batch.Report
import JackAnalyzer.Command.Log

namespace JackAnalyzer.Command

open Batch

structure Reply where
  exit : Nat
  stdout : String
  stderr : String
  store : Store

/-! ## What is told of the work -/

def compileNotices (s : Store) (path : String) : List Notice :=
  .log .debug ("compiling " ++ path) ::
    match tokenizeFile s path with
    | .error _ => []
    | .ok ts =>
      .log .debug ("lexed unit tokens=" ++ toString ts.length) :: (Grammar.Rule.classDec.trace ts).map Notice.ofEntry

def turnNotices (t : Turn) : List Notice :=
  compileNotices t.before t.source ++ t.effect.written.map fun path => .log .info ("wrote " ++ path)

def outcomeNotice (o : Outcome) : Notice :=
  match o.failureLine? with
  | none => .log .info (o.source ++ " (OK)")
  | some l => .line l

def skipNotices (s : Store) (path : String) : List Notice :=
  if s.isFile path then [] else (skipped s path).map fun p => .log .debug ("skipping " ++ p)

/-! ## Runs -/

/-- What a run comes to: nothing printed but a failure, or an output. -/
structure Ending where
  notices : List Notice
  result : Except String String
  store : Store

def Ending.reply (i : Invocation) (e : Ending) : Reply :=
  match e.result with
  | .ok out => ⟨0, out, errorStream i e.notices, e.store⟩
  | .error message => ⟨1, "", errorStream i (e.notices ++ [.failure message]), e.store⟩

/-- An action on all units of a path; `success` begins the line that is printed where all of
    them are well. -/
def runBatch (schedule : Schedule) (quiet : Bool) (success : String) (action : Action) (path : String) (s : Store) : Ending :=
  match units s path with
  | .error e => ⟨[], .error e.message, s⟩
  | .ok [] => ⟨skipNotices s path, .error ("no .jack files found in " ++ path), s⟩
  | .ok sources =>
    let ts := turns action (schedule.order sources) s
    let report := Report.inOrder sources ts
    let notices := skipNotices s path ++ ts.flatMap turnNotices ++ report.outcomes.map outcomeNotice
    let result :=
      if !report.isSuccess then .error report.summary
      else .ok (if quiet then "" else success ++ " (" ++ report.summary ++ ")\n")
    ⟨notices, result, storeAfter s ts⟩

/-- The settings of an analysis: those loaded, with the options given over them. -/
def mergeSettings (loaded : OutputSettings) (format : Option Format) (dir : Option String) (tokens : Bool) :
    OutputSettings :=
  ⟨format.getD loaded.format, dir <|> loaded.dir, loaded.tokens || tokens⟩

def Invocation.run (i : Invocation) (schedule : Schedule) (s : Store) : Ending :=
  match i.task with
  | .analyze path format dir config tokens =>
    match Settings.load s config with
    | .error e => ⟨[], .error e.message, s⟩
    | .ok loaded => runBatch schedule i.quiet "compile success" (.write (mergeSettings loaded format dir tokens)) path s
  | .check path => runBatch schedule i.quiet "check success" .check path s
  | .tokens path format =>
    ⟨[.log .debug ("tokenizing " ++ path)],
      match tokenizeFile s path with
      | .ok ts => .ok (format.renderTokens ts)
      | .error e => .error e.message, s⟩
  | .tree path format =>
    ⟨compileNotices s path,
      match compileFile s path with
      | .ok unit => .ok (format.renderTree unit.tree)
      | .error e => .error e.message, s⟩

def versionText : String := "jackc 0.1.0\n"

def usageText : String :=
  String.join
    (["jackc [-v...|-q] analyze PATH [-f FORMAT] [-o DIR] [-t] [-c FILE]", "jackc [-v...|-q] check PATH",
      "jackc [-v...|-q] tokens FILE [-f FORMAT]", "jackc [-v...|-q] tree FILE [-f FORMAT]", "jackc --version"].map
      fun l => "usage: " ++ l ++ "\n")

/-- A run with arguments, on workers that come to the units as scheduled. -/
def runIn (schedule : Schedule) (args : List String) (s : Store) : Reply :=
  match read args with
  | .ok i => (i.run schedule s).reply i
  | .error .version => ⟨0, versionText, "", s⟩
  | .error .help => ⟨0, usageText, "", s⟩
  | .error .usage => ⟨2, "", usageText, s⟩

/-- A run on one worker. -/
def run (args : List String) (s : Store) : Reply := runIn .inTurn args s

end JackAnalyzer.Command
