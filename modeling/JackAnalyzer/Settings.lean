/-
  JackAnalyzer.Settings — how artifacts are written: the form, the directory, and whether
  the token listing is written too; and these settings read from a TOML document.

  Of a document only the key `output` counts, and of its table only `format`, `dir` and
  `tokens`; all of them may be missing. The table may also be written as an array with the
  three in this order, the last of them left out. The format is a name in small letters, or a
  table whose one key is that name and holds nothing.

  `load` takes the settings from a file, by default from `jack.toml` where there is one.
-/

import JackAnalyzer.Error
import JackAnalyzer.Render.Format
import JackAnalyzer.Store.Files
import JackAnalyzer.Toml.Document

namespace JackAnalyzer

structure OutputSettings where
  format : Format
  /-- Where artifacts go; next to their sources if there is none. -/
  dir : Option String
  tokens : Bool
  deriving DecidableEq, Repr

namespace OutputSettings

instance : Inhabited OutputSettings := ⟨⟨default, none, false⟩⟩

end OutputSettings

namespace Settings

open Toml

/-- A value that holds nothing: an empty table or an empty array. -/
def isHollow : Value → Bool
  | .array items => items.isEmpty
  | .table _ members => members.isEmpty
  | .tables items => items.isEmpty
  | _ => false

def formatOfMember (m : String × Value) : Option Format := if isHollow m.2 then Format.ofExtension? m.1 else none

/-- A table that names a format holds one member. -/
def format? : Value → Option Format
  | .string s => Format.ofExtension? s
  | .table _ [m] => formatOfMember m
  | _ => none

def dir? : Value → Option (Option String)
  | .string s => some (some s)
  | _ => none

def tokens? : Value → Option Bool
  | .boolean b => some b
  | _ => none

def orDefault (read : Value → Option α) (default : α) : Option Value → Option α
  | none => some default
  | some v => read v

def outputOf (format dir tokens : Option Value) : Option OutputSettings := do
  return ⟨← orDefault format? default format, ← orDefault dir? none dir, ← orDefault tokens? false tokens⟩

/-- The settings that the value of `output` gives. A date or a time gives none of them. -/
def output? : Value → Option OutputSettings
  | .table _ ms => outputOf (ms.lookup "format") (ms.lookup "dir") (ms.lookup "tokens")
  | .array items => outputOf items[0]? items[1]? items[2]?
  | .tables items =>
    let items := items.map (Value.table .header)
    outputOf items[0]? items[1]? items[2]?
  | .dateTime => some default
  | _ => none

def ofMembers (ms : Members) : Option OutputSettings := orDefault output? default (ms.lookup "output")

/-- The settings that a text gives, if it is a document and its settings are sound. -/
def ofText (source : String) : Option OutputSettings := (document? source).bind ofMembers

/-- What is said of a file whose text gives no settings, behind its name. -/
def unsoundReason : String := "no TOML document with sound settings"

def ofFile (s : Store) (path : String) : Except Error OutputSettings :=
  match s.readText path with
  | .error f => .error (.io path f.message)
  | .ok text => (ofText text).elim (.error (.config ("failed to parse " ++ path ++ ": " ++ unsoundReason))) .ok

def defaultFile : String := "jack.toml"

/-- The settings in the named file; without a name those in the default file, and without
    that file the default settings. -/
def load (s : Store) : Option String → Except Error OutputSettings
  | some path => ofFile s path
  | none => if s.isFile defaultFile then ofFile s defaultFile else .ok default

end Settings

end JackAnalyzer
