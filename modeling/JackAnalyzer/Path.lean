/-
  JackAnalyzer.Path — the text of a path, as a row of segments with slashes between them.
  Empty segments and single dots say nothing, except for a slash or a dot at the very
  front, which is the path's `lead`. A path is kept as the text that it was given as, and
  these functions cut that text and never respell it.
-/

namespace JackAnalyzer.Path

/-- The segments of a text: what stands between its slashes. -/
def segments : List Char → List (List Char)
  | [] => [[]]
  | c :: cs =>
    if c = '/' then [] :: segments cs
    else
      match segments cs with
      | [] => [[c]]
      | s :: ss => (c :: s) :: ss

def joinSegments : List (List Char) → List Char
  | [] => []
  | [s] => s
  | s :: ss => s ++ '/' :: joinSegments ss

/-- A segment that says nothing. -/
def isIdle (s : List Char) : Bool := s = [] || s = ['.']

def trimEnd (ss : List (List Char)) : List (List Char) := (ss.reverse.dropWhile isIdle).reverse

/-- The slash of an absolute path, or the dot that a path starts with as a segment of its
    own, and the text behind it. -/
def splitLead : List Char → List Char × List Char
  | '/' :: cs => (['/'], cs)
  | ['.'] => (['.'], [])
  | '.' :: '/' :: cs => (['.'], '/' :: cs)
  | cs => ([], cs)

/-- The last segment that names something. A path that ends in two dots names nothing. -/
def fileName? (path : String) : Option (List Char) :=
  match (trimEnd (segments (splitLead path.toList).2)).getLast? with
  | none => none
  | some s => if s = ['.', '.'] then none else some s

/-- A name cut at its last dot: what stands before it and behind it. A dot in front of the
    name does not cut it. -/
def splitExtension (name : List Char) : List Char × Option (List Char) :=
  let after := (name.reverse.takeWhile (· ≠ '.')).reverse
  let before := name.take (name.length - after.length - 1)
  if after.length = name.length || before.isEmpty then (name, none) else (before, some after)

/-- The name of the file without its extension; empty for a path that names nothing. -/
def stem (path : String) : String := String.ofList ((fileName? path).elim [] fun name => (splitExtension name).1)

def extension? (path : String) : Option String :=
  (fileName? path).bind fun name => (splitExtension name).2.map String.ofList

/-- The text in front of the last segment. A root and the empty path have none; this answers
    the empty text for them. -/
def parent (path : String) : String :=
  let (lead, body) := splitLead path.toList
  match trimEnd (segments body) with
  | [] => ""
  | ss => String.ofList (lead ++ joinSegments (trimEnd ss.dropLast))

/-- A name below a directory; the empty path is the directory that names are looked up in. -/
def join (dir name : String) : String :=
  if dir.isEmpty then name
  else if dir.toList.getLast? = some '/' then dir ++ name
  else dir ++ "/" ++ name

theorem segments_ne_nil (cs : List Char) : segments cs ≠ [] := by
  cases cs with
  | nil => simp [segments]
  | cons c cs => simp only [segments]; split <;> (try split) <;> simp

/-- Cutting at slashes loses nothing. -/
theorem joinSegments_segments (cs : List Char) : joinSegments (segments cs) = cs := by
  induction cs with
  | nil => rfl
  | cons c cs ih =>
    obtain ⟨s, ss, hs⟩ := List.exists_cons_of_ne_nil (segments_ne_nil cs)
    rw [hs] at ih
    by_cases hc : c = '/'
    · simp [segments, hc, hs, joinSegments, ih]
    · cases ss <;> simp_all [segments, joinSegments]

end JackAnalyzer.Path
