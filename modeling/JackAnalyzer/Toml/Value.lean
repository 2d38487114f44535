/-
  JackAnalyzer.Toml.Value — what a TOML document says: a table of keys and values in the
  order of their entry, and the three ways to enter something: an assignment, a table's
  header, and the header of an array's next table.

  A key is entered once. A table may be opened by a header once, also after it was passed on
  the way to a table below it; a table named by a dotted key takes more dotted keys, but no
  header; a table in braces takes nothing.
-/

namespace JackAnalyzer.Toml

inductive Origin where
  /-- Written in braces. -/
  | braces
  /-- Opened by its own header, or the whole document. -/
  | header
  /-- Named on the way to another table's header. -/
  | passed
  /-- Named by the front of a dotted key. -/
  | dotted
  deriving DecidableEq, Repr

inductive Value where
  | string (s : String)
  | integer (n : Int)
  | float
  | boolean (b : Bool)
  | dateTime
  | array (items : List Value)
  | table (origin : Origin) (members : List (String × Value))
  /-- Tables that were opened one by one under the same header. -/
  | tables (items : List (List (String × Value)))

abbrev Members := List (String × Value)

namespace Members

/-- The members with a new one behind the others, unless its key is taken. -/
def enter (key : String) (v : Value) (ms : Members) : Option Members :=
  if (ms.lookup key).isSome then none else some (ms ++ [(key, v)])

/-- The members with the value of a key that is there exchanged. -/
def exchange (key : String) (v : Value) (ms : Members) : Members := ms.map fun m => if m.1 == key then (key, v) else m

/-- Changes the table at the end of a path. Tables that are missing on the way are `made`; of
    the tables under one header the last is meant; what is not a table, or is one in braces,
    stops the way. A dotted key goes only through tables that no header opened. -/
def descend (made : Origin) (change : Origin → Members → Option Members) :
    List String → Origin → Members → Option Members
  | [], origin, ms => change origin ms
  | key :: path, _, ms =>
    match ms.lookup key with
    | none => do return ms ++ [(key, .table made (← descend made change path made []))]
    | some (.table origin inner) =>
      if origin = .braces || (made = .dotted && origin = .header) then none
      else do return ms.exchange key (.table origin (← descend made change path origin inner))
    | some (.tables items) =>
      match items.getLast? with
      | none => none
      | some inner => do return ms.exchange key (.tables (items.dropLast ++ [← descend made change path .header inner]))
    | some _ => none

/-- Enters the value of a dotted key into a table. The front of the key must end in a table
    that dotted keys made. -/
def assign (path : List String) (key : String) (v : Value) (origin : Origin) (ms : Members) : Option Members :=
  descend .dotted (fun o ms => if path.isEmpty || o = .dotted then ms.enter key v else none) path origin ms

/-- Opens a table. One that was passed before is opened with what it has. -/
def openTable (path : List String) (key : String) (document : Members) : Option Members :=
  descend .passed (fun _ ms =>
    match ms.lookup key with
    | none => some (ms ++ [(key, .table .header [])])
    | some (.table .passed inner) => some (ms.exchange key (.table .header inner))
    | some _ => none) path .header document

def openItem (path : List String) (key : String) (document : Members) : Option Members :=
  descend .passed (fun _ ms =>
    match ms.lookup key with
    | none => some (ms ++ [(key, .tables [[]])])
    | some (.tables items) => some (ms.exchange key (.tables (items ++ [[]])))
    | some _ => none) path .header document

/-- Enters the value of a dotted key into the table that a header opened. -/
def assignUnder (header path : List String) (key : String) (v : Value) (document : Members) : Option Members :=
  descend .passed (assign path key v) header .header document

end Members

end JackAnalyzer.Toml
