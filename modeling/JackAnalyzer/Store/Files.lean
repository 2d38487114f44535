/-
  JackAnalyzer.Store.Files — files and directories by path: what is there, reading, writing,
  listing, making directories. An operation that fails leaves the store as it was, except
  for `makeDirs`, which keeps the directories that it made before.
-/

import JackAnalyzer.Store.Resolve
import JackAnalyzer.Text.Utf8

namespace JackAnalyzer.Store

/-! ## Looking -/

/-- What is at a path, behind all links. -/
def at? (s : Store) (path : String) : Option Entry :=
  match s.resolve .present path with
  | .ok l => s.get? l
  | .error _ => none

def holds (s : Store) (path : String) : Bool := (s.at? path).isSome

def isFile (s : Store) (path : String) : Bool :=
  match s.at? path with
  | some (.file _) => true
  | _ => false

def isDirectory (s : Store) (path : String) : Bool :=
  match s.at? path with
  | some .directory => true
  | _ => false

def readText (s : Store) (path : String) : Except Failure String := do
  match s.get? (← s.resolve .present path) with
  | some (.file content) => (Text.ofBytes? content).elim (.error .notUtf8) .ok
  | some _ => .error .isDirectory
  | none => .error .notFound

/-- The names in the directory at a path in the order of their bytes, each with what stands
    there itself, links not followed. -/
def list (s : Store) (path : String) : Except Failure (List (String × Entry)) := do
  let l ← s.resolve .present path
  match s.get? l with
  | some .directory => return (s.below l).mergeSort fun a b => a.1 ≤ b.1
  | some _ => .error .notDirectory
  | none => .error .notFound

/-! ## Changing -/

/-- Writes to the file at a path, over what it held. -/
def write (s : Store) (path : String) (content : ByteArray) : Except Failure Store := do
  let l ← s.resolve .target path
  match s.get? l with
  | some .directory => .error .isDirectory
  | _ => return s.put l (.file content)

def writeText (s : Store) (path text : String) : Except Failure Store := s.write path text.toUTF8

def make (s : Store) (path : String) (e : Entry) : Except Failure Store := do
  let l ← s.place path
  match s.get? l with
  | some _ => .error .occupied
  | none => return s.put l e

def makeDir (s : Store) (path : String) : Except Failure Store := s.make path .directory

/-- Removes what a path names, and all below it. -/
def delete (s : Store) (path : String) : Except Failure Store := do
  let l ← s.place path
  match s.get? l with
  | some _ => return s.remove l
  | none => .error .notFound

def ensureDir (s : Store) (path : String) : Except Failure Store :=
  match s.makeDir path with
  | .ok s => .ok s
  | .error e => if s.isDirectory path then .ok s else .error e

/-- Makes a directory and those above it that are missing, `n` of them at most. -/
def makeDirsWithin : Nat → Store → String → Option Failure × Store
  | 0, s, _ => (some .notFound, s)
  | n + 1, s, path =>
    if path.isEmpty then (none, s)
    else
      match s.ensureDir path with
      | .ok s => (none, s)
      | .error .notFound =>
        match makeDirsWithin n s (Path.parent path) with
        | (some e, s) => (some e, s)
        | (none, s) =>
          match s.ensureDir path with
          | .ok s => (none, s)
          | .error e => (some e, s)
      | .error e => (some e, s)

/-- Makes a directory and those above it that are missing. -/
def makeDirs (s : Store) (path : String) : Option Failure × Store := makeDirsWithin (path.length + 1) s path

/-! ## Comparing -/

/-- The files below the starting directory that are new in a later store or hold something
    else there: their paths and contents. -/
def changes (before after : Store) : List (String × ByteArray) :=
  after.entries.filterMap fun m =>
    match m.2 with
    | .file content =>
      if after.here.isPrefixOf m.1 && before.get? m.1 ≠ some m.2 then
        some ("/".intercalate (m.1.drop after.here.length), content)
      else none
    | _ => none

end JackAnalyzer.Store
