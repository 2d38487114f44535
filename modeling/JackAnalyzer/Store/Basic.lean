/-
  JackAnalyzer.Store.Basic — a file system: what stands at each location, and the directory
  that relative paths start from. A location is the row of names from the root down to it;
  at the root itself there is always a directory.

  Left out are names that are not text, hard links (no two locations have one file), special
  files such as devices and pipes, and permissions: everything may be read and changed, and
  there is always room.
  - `get?_put_self`, `get?_put_of_ne`: what a change does, and that it does nothing else.
-/

namespace JackAnalyzer

/-- The names from the root down. -/
abbrev Location := List String

instance decidableEqBytes : DecidableEq ByteArray := ByteArray.instDecidableEq

inductive Entry where
  | file (content : ByteArray)
  | directory
  /-- Leads to another path, taken from the directory that the link stands in. -/
  | link (target : String)
  deriving DecidableEq

structure Store where
  entries : List (Location × Entry)
  /-- The directory that relative paths start from. -/
  here : Location
  /-- At each location stands one thing. -/
  nodup : (entries.map Prod.fst).Nodup

inductive Failure where
  | notFound
  | notDirectory
  | isDirectory
  | occupied
  | tooManyLinks
  | nameTooLong
  | nulInName
  | notUtf8
  deriving DecidableEq, Repr

def Failure.message : Failure → String
  | notFound => "No such file or directory (os error 2)"
  | notDirectory => "Not a directory (os error 20)"
  | isDirectory => "Is a directory (os error 21)"
  | occupied => "File exists (os error 17)"
  | tooManyLinks => "Too many levels of symbolic links (os error 40)"
  | nameTooLong => "File name too long (os error 36)"
  | nulInName => "file name contained an unexpected NUL byte"
  | notUtf8 => "stream did not contain valid UTF-8"

namespace Store

def get? (s : Store) (l : Location) : Option Entry := if l = [] then some .directory else s.entries.lookup l

theorem nodup_filter (s : Store) (p : Location × Entry → Bool) : ((s.entries.filter p).map Prod.fst).Nodup :=
  s.nodup.sublist (List.filter_sublist.map _)

/-- The store with an entry at a location, in place of what is there. -/
def put (s : Store) (l : Location) (e : Entry) : Store where
  entries := (l, e) :: s.entries.filter fun m => m.1 != l
  here := s.here
  nodup := by
    refine List.nodup_cons.mpr ⟨?_, s.nodup_filter _⟩
    simp

/-- The store without what is at a location or below it. -/
def remove (s : Store) (l : Location) : Store where
  entries := s.entries.filter fun m => !l.isPrefixOf m.1
  here := s.here
  nodup := s.nodup_filter _

/-- A store that holds nothing but the directories down to the one it starts from. -/
def empty (here : Location) : Store :=
  (List.range here.length).foldl (fun s n => s.put (here.take (n + 1)) .directory) ⟨[], here, List.nodup_nil⟩

def below (s : Store) (l : Location) : List (String × Entry) :=
  s.entries.filterMap fun m => if m.1.dropLast = l then m.1.getLast?.map (·, m.2) else none

/-! ## What a change changes -/

theorem lookup_filter_ne {α β : Type} [BEq α] [LawfulBEq α] {k x : α} (h : x ≠ k) (ms : List (α × β)) :
    (ms.filter fun m => m.1 != k).lookup x = ms.lookup x := by
  induction ms with
  | nil => rfl
  | cons m ms ih =>
    obtain ⟨a, b⟩ := m
    by_cases ha : a = k
    · have hx : (x == a) = false := by simpa [ha] using h
      simpa [List.filter_cons, ha, List.lookup_cons, ha ▸ hx] using ih
    · simp [ha, List.lookup_cons, ih]

theorem get?_put_self (s : Store) {l : Location} (hl : l ≠ []) (e : Entry) : (s.put l e).get? l = some e := by
  simp [put, get?, hl]

theorem get?_put_of_ne (s : Store) {l k : Location} (h : k ≠ l) (e : Entry) : (s.put l e).get? k = s.get? k := by
  have hk : (k == l) = false := by simpa using h
  simp only [put, get?, List.lookup_cons, hk, lookup_filter_ne h]

end Store

end JackAnalyzer
