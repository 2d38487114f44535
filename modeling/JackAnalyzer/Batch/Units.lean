/-
  JackAnalyzer.Batch.Units — the source units that a path names. A file is one unit,
  whatever its name; of a directory each file right in it counts whose name ends in `.jack`
  behind something, in the order of the names' bytes. Links in the directory do not count,
  but the path itself may be one.
  - `mem_unitNames_iff`: which names of a directory are units.
-/

import JackAnalyzer.Error
import JackAnalyzer.Store.Files

namespace JackAnalyzer.Batch

def isSourceName (name : String) : Bool := (Path.splitExtension name.toList).2 = some "jack".toList

/-- What stands there is a file, not a link to one. -/
def isPlainFile : Entry → Bool
  | .file _ => true
  | _ => false

/-- The names of the files that count, of what a directory lists. -/
def unitNames (listing : List (String × Entry)) : List String :=
  (listing.filter fun m => isPlainFile m.2 && isSourceName m.1).map (·.1)

def skippedNames (listing : List (String × Entry)) : List String :=
  (listing.filter fun m => isPlainFile m.2 && !isSourceName m.1).map (·.1)

def units (s : Store) (path : String) : Except Error (List String) :=
  if !s.holds path then .error (.io path "no such file or directory")
  else if s.isFile path then .ok [path]
  else
    match s.list path with
    | .ok listing => .ok ((unitNames listing).map (Path.join path))
    | .error f => .error (.io path f.message)

def skipped (s : Store) (path : String) : List String :=
  match s.list path with
  | .ok listing => (skippedNames listing).map (Path.join path)
  | .error _ => []

theorem mem_unitNames_iff {listing : List (String × Entry)} {name : String} :
    name ∈ unitNames listing ↔ (∃ content, (name, Entry.file content) ∈ listing) ∧ isSourceName name = true := by
  simp only [unitNames, List.mem_map, List.mem_filter, Bool.and_eq_true]
  constructor
  · rintro ⟨⟨n, e⟩, ⟨hm, hf, hn⟩, rfl⟩
    refine ⟨?_, hn⟩
    cases e with
    | file c => exact ⟨c, hm⟩
    | directory => cases hf
    | link t => cases hf
  · rintro ⟨⟨c, hm⟩, hn⟩
    exact ⟨(name, .file c), ⟨hm, rfl, hn⟩, rfl⟩

end JackAnalyzer.Batch
