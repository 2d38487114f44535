/-
  JackAnalyzer.Store.Resolve — from the text of a path to a location. Names are taken one by
  one from a directory: a dot stays, two dots go up, a link goes on from its own directory
  with its target in front of the names still to come. A path that ends in a slash means the
  directory there. The links that one path leads through are counted all together.
-/

import JackAnalyzer.Path
import JackAnalyzer.Store.Basic

namespace JackAnalyzer.Store

def linkLimit : Nat := 40

def nameLimit : Nat := 255

def pathLimit : Nat := 4095

/-- The names of a path, without those that are empty. -/
def names (path : String) : List String :=
  ((Path.segments path.toList).filter (! ·.isEmpty)).map String.ofList

/-- The names of a path, with an empty one behind them for a slash at its end. -/
def steps (path : String) : List String :=
  names path ++ (if path.toList.getLast? = some '/' then [""] else [])

def startOf (path : String) (dir : Location) : Location := if path.toList.head? = some '/' then [] else dir

inductive Aim where
  /-- Something that is there. -/
  | present
  /-- A file to be written, which may be new. -/
  | target
  deriving DecidableEq, Repr

def enter (s : Store) (dir : Location) : Except Failure Unit :=
  match s.get? dir with
  | some .directory => .ok ()
  | some _ => .error .notDirectory
  | none => .error .notFound

def child? (s : Store) (dir : Location) (name : String) : Except Failure (Option Entry) :=
  if nameLimit < name.utf8ByteSize then .error .nameTooLong else .ok (s.get? (dir ++ [name]))

/-- Takes names from a directory; `follow` goes on from the directory of a link. A file to be
    written is no directory, so no slash may follow its name. -/
def walkWith (s : Store) (aim : Aim) (follow : Location → List String → Except Failure Location) :
    Location → List String → Except Failure Location
  | dir, [] => .ok dir
  | dir, name :: rest => do
    s.enter dir
    if name = "" || name = "." then walkWith s aim follow dir rest
    else if name = ".." then walkWith s aim follow dir.dropLast rest
    else if aim = .target && rest = [""] then .error .isDirectory
    else
      match ← s.child? dir name with
      | none => if aim = .target && rest = [] then .ok (dir ++ [name]) else .error .notFound
      | some (.link target) => follow (startOf target dir) (steps target ++ rest)
      | some _ => walkWith s aim follow (dir ++ [name]) rest

/-- Takes names from a directory through `n` links at most. -/
def walk (s : Store) (aim : Aim) : Nat → Location → List String → Except Failure Location
  | 0 => walkWith s aim fun _ _ => .error .tooManyLinks
  | n + 1 => walkWith s aim (walk s aim n)

/-- A path that the system takes at all. -/
def admitted (path : String) : Except Failure Unit :=
  if path.toList.contains '\x00' then .error .nulInName
  else if path.isEmpty then .error .notFound
  else if pathLimit < path.utf8ByteSize then .error .nameTooLong
  else .ok ()

/-- The location of what is at a path, or of the file to be written there, behind all
    links. -/
def resolve (s : Store) (aim : Aim) (path : String) : Except Failure Location := do
  admitted path
  s.walk aim linkLimit (startOf path s.here) (steps path)

/-- The location of what a path names itself, a link at its end not followed, or of what it
    would name; the directory must be there. -/
def place (s : Store) (path : String) : Except Failure Location := do
  admitted path
  match (names path).getLast? with
  | none => .error .occupied
  | some name => do
    let dir ← s.walk .present linkLimit (startOf path s.here) (names path).dropLast
    s.enter dir
    if name = "." || name = ".." then .error .occupied
    else do
      let _ ← s.child? dir name
      return dir ++ [name]

end JackAnalyzer.Store
