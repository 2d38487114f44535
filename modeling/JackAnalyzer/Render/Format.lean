/-
  JackAnalyzer.Render.Format — the two forms in which trees and token listings are written,
  and their names. A name is read without regard to ASCII case.
-/

namespace JackAnalyzer

inductive Format where
  | xml
  | json
  deriving DecidableEq, Repr

namespace Format

instance : Inhabited Format := ⟨xml⟩

def extension : Format → String
  | xml => "xml"
  | json => "json"

/-- The form of that name, in this very spelling. -/
def ofExtension? (s : String) : Option Format := [xml, json].find? (·.extension == s)

def asciiLower (s : String) : String := s.map Char.toLower

def ofName? (name : String) : Option Format := ofExtension? (asciiLower name)

def unknownMessage (name : String) : String :=
  "unknown output format '" ++ asciiLower name ++ "', expected 'xml' or 'json'"

end Format

end JackAnalyzer
