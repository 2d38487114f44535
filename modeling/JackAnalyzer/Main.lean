/-
  JackAnalyzer.Main — the command `jackc`. What the arguments name is taken from the file
  system into a store, the run is the pure `Command.run` on that store, and what the run
  changed is written back. This module alone reads and writes files.
-/

import JackAnalyzer.Command.Run

namespace JackAnalyzer.Main

open Command

def textOf (l : Location) : String := "/" ++ "/".intercalate l

def look (l : Location) : IO (Option Entry) := do
  try
    let real ← IO.FS.realPath (textOf l)
    match (← real.metadata).type with
    | .dir => return some .directory
    | .file => return some (.file (← IO.FS.readBinFile real))
    | _ => return none
  catch _ => return none

def take (s : Store) (l : Location) : IO Store := do
  match ← look l with
  | some e => return s.put l e
  | none => return s

/-- Takes what stands in a directory. The contents of sources only are of use. -/
def takeBelow (s : Store) (l : Location) : IO Store := do
  let mut s := s
  try
    for d in ← (← IO.FS.realPath (textOf l)).readDir do
      let below := l ++ [d.fileName]
      match (← d.path.symlinkMetadata).type with
      | .dir => s := s.put below .directory
      | .file =>
        if Batch.isSourceName d.fileName then s ← take s below else s := s.put below (.file .empty)
      | .symlink => s := s.put below (.link (← IO.FS.realPath d.path).toString)
      | .other => pure ()
  catch _ => pure ()
  return s

def stations (path : String) (here : Location) : List Location :=
  ((Store.names path).foldl (fun (ls, l) name =>
    let next := if name = "." then l else if name = ".." then l.dropLast else l ++ [name]
    (ls ++ [next], next)) ([], Store.startOf path here)).1

/-- Takes what a path names and leads over; of a directory also what stands in it. -/
def takePath (s : Store) (path : String) : IO Store := do
  let mut s := s
  for l in stations path s.here do s ← take s l
  match (stations path s.here).getLast? with
  | none => takeBelow s s.here
  | some l => takeBelow s l

def pathOf : Task → String
  | .analyze path .. | .check path | .tokens path _ | .tree path _ => path

/-- The part of the file system that an invocation can see. -/
def snapshot (i : Invocation) : IO Store := do
  let here := Store.names (← IO.currentDir).toString
  let path := pathOf i.task
  let mut s ← takePath (Store.empty here) path
  match i.task with
  | .analyze _ _ dir config _ =>
    s ← takePath s (config.getD Settings.defaultFile)
    let loaded := ((Settings.load s config).toOption).getD default
    s ← takePath s ((dir <|> loaded.dir).getD (Path.parent path))
  | _ => pure ()
  return s

/-- Makes the directories and writes the files that are new or different. -/
def writeBack (before after : Store) : IO Unit := do
  for (l, e) in after.entries do
    match e with
    | .directory => if before.get? l ≠ some e then IO.FS.createDirAll (textOf l)
    | _ => pure ()
  for (l, e) in after.entries do
    match e with
    | .file content => if before.get? l ≠ some e then IO.FS.writeBinFile (textOf l) content
    | _ => pure ()

end JackAnalyzer.Main

def main (args : List String) : IO UInt32 := do
  let store ←
    match JackAnalyzer.Command.read args with
    | .ok i => JackAnalyzer.Main.snapshot i
    | .error _ => pure (JackAnalyzer.Store.empty [])
  let reply := JackAnalyzer.Command.run args store
  JackAnalyzer.Main.writeBack store reply.store
  (← IO.getStdout).putStr reply.stdout
  (← IO.getStderr).putStr reply.stderr
  return reply.exit.toUInt32
