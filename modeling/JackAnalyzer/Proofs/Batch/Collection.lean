/-
  JackAnalyzer.Proofs.Batch.Collection — the units of a path, exactly. Of a directory they are the
  files right in it that are named as sources, in the order of the bytes of their names, whatever
  order the entries are found in.
  - `isSourceName_iff`: which names are those of sources.
  - `units_of_entries_perm`: the order of the entries does not matter.
  - `units_exact`: the units of each path.
-/

import JackAnalyzer.Proofs.Batch.Sources
import JackAnalyzer.Proofs.Text.ByteOrder

namespace JackAnalyzer

namespace Store

variable {s t : Store}

/-! ## Stores that hold the same -/

section SameEntries

variable (hget : ∀ l, t.get? l = s.get? l)

include hget

theorem walkWith_congr (aim : Aim) (follow : Location → List String → Except Failure Location) (names : List String) :
    ∀ dir, t.walkWith aim follow dir names = s.walkWith aim follow dir names := by
  induction names with
  | nil => exact fun dir => rfl
  | cons name rest ih =>
    intro dir
    rw [walkWith, walkWith]
    simp only [enter, child?, hget, ih]

theorem walk_congr (aim : Aim) (n : Nat) : t.walk aim n = s.walk aim n := by
  induction n with
  | zero =>
    funext dir names
    exact walkWith_congr hget aim _ names dir
  | succ n ih =>
    funext dir names
    rw [walk, walk, ih]
    exact walkWith_congr hget aim _ names dir

theorem resolve_congr (hhere : t.here = s.here) (aim : Aim) (path : String) : t.resolve aim path = s.resolve aim path := by
  rw [resolve, resolve, walk_congr hget, hhere]

theorem at?_congr (hhere : t.here = s.here) (path : String) : t.at? path = s.at? path := by
  simp only [at?, resolve_congr hget hhere, hget]

end SameEntries

/-! ## Entries -/

theorem get?_eq_some_iff {l : Location} (hl : l ≠ []) {e : Entry} : s.get? l = some e ↔ (l, e) ∈ s.entries := by
  rw [get?, if_neg hl]
  refine ⟨fun h => ?_, lookup_eq_some_of_mem s.nodup⟩
  obtain ⟨front, behind, heq, -⟩ := List.lookup_eq_some_iff.mp h
  rw [heq]
  exact List.mem_append_right _ List.mem_cons_self

theorem mem_below_iff {l : Location} {name : String} {e : Entry} :
    (name, e) ∈ s.below l ↔ s.get? (l ++ [name]) = some e := by
  rw [get?_eq_some_iff (by simp)]
  refine ⟨mem_below, fun h => List.mem_filterMap.mpr ⟨_, h, ?_⟩⟩
  simp

theorem get?_of_entries_perm (h : t.entries.Perm s.entries) (l : Location) : t.get? l = s.get? l := by
  by_cases hl : l = []
  · rw [get?, get?, if_pos hl, if_pos hl]
  · refine Option.ext fun e => ?_
    rw [get?_eq_some_iff hl, get?_eq_some_iff hl, h.mem_iff]

theorem pairwise_mergeSort_names (ms : List (String × Entry)) :
    (ms.mergeSort fun a b => a.1 ≤ b.1).Pairwise fun a b => a.1 ≤ b.1 := by
  have htrans (a b c : String × Entry) (hab : decide (a.1 ≤ b.1) = true) (hbc : decide (b.1 ≤ c.1) = true) :
      decide (a.1 ≤ c.1) = true :=
    decide_eq_true (String.le_trans (of_decide_eq_true hab) (of_decide_eq_true hbc))
  have htotal (a b : String × Entry) : (decide (a.1 ≤ b.1) || decide (b.1 ≤ a.1)) = true := by
    simpa using String.le_total a.1 b.1
  exact (List.pairwise_mergeSort htrans htotal ms).imp of_decide_eq_true

/-- The order that entries are found in does not show in a listing. -/
theorem list_of_entries_perm (h : t.entries.Perm s.entries) (hhere : t.here = s.here) (path : String) :
    t.list path = s.list path := by
  have hget := get?_of_entries_perm h
  have hsort : ∀ l, (t.below l).mergeSort (fun a b => a.1 ≤ b.1) = (s.below l).mergeSort fun a b => a.1 ≤ b.1 := by
    intro l
    have hbelow : (t.below l).Perm (s.below l) := h.filterMap _
    refine List.Perm.eq_of_pairwise (fun a b ha hb hab hba => ?_) (pairwise_mergeSort_names _)
      (pairwise_mergeSort_names _) (((List.mergeSort_perm _ _).trans hbelow).trans (List.mergeSort_perm _ _).symm)
    have ha' : a ∈ s.below l := hbelow.mem_iff.mp ((List.mergeSort_perm _ _).mem_iff.mp ha)
    have hb' : b ∈ s.below l := (List.mergeSort_perm _ _).mem_iff.mp hb
    exact List.inj_on_of_nodup_map (nodup_below s l) ha' hb' (String.le_antisymm hab hba)
  simp only [list, resolve_congr hget hhere, hget, hsort]

end Store

namespace Batch

open Store

variable {s : Store} {path : String}

theorem isSourceName_iff {name : String} : isSourceName name = true ↔ ∃ part, part ≠ "" ∧ name = part ++ ".jack" := by
  constructor
  · intro h
    refine ⟨_, fun hempty => ?_, (eq_sourceName h).trans (by rw [sourceName, String.append_assoc]; rfl)⟩
    exact Path.front_ne_nil_of_splitExtension (of_decide_eq_true h) (by simpa using congrArg String.toList hempty)
  · rintro ⟨part, hpart, rfl⟩
    have hfront : part.toList ≠ [] := fun h => hpart (by simpa using h)
    have hchars : (part ++ ".jack").toList = part.toList ++ '.' :: "jack".toList := by simp
    exact decide_eq_true (by rw [hchars, Path.splitExtension_append hfront (by decide)])

/-- Neither a name that is all extension nor one with another extension behind it is a source's. -/
example : isSourceName "a.jack" = true ∧ isSourceName ".jack" = false ∧ isSourceName "a.jack.xml" = false ∧
    isSourceName "A.JACK" = false := by decide

theorem units_of_entries_perm {t : Store} (h : t.entries.Perm s.entries) (hhere : t.here = s.here) :
    units t path = units s path := by
  have hat := at?_congr (get?_of_entries_perm h) hhere path
  unfold units holds isFile
  rw [hat, list_of_entries_perm h hhere]

/-- A name below a directory that a path leads to. -/
def inDirectory (path name : String) : String :=
  if path.toList.getLast? = some '/' then path ++ name else path ++ "/" ++ name

/-- The units of a path. -/
structure UnitsExact (s : Store) (path : String) : Prop where
  /-- Of a directory, the files right in it whose names end in `.jack` behind something, each once
      and in the order of the bytes of their names. -/
  directory (l : Location) : s.resolve .present path = .ok l → s.get? l = some .directory →
    ∃ names : List String, units s path = .ok (names.map (inDirectory path)) ∧ names.Pairwise Text.BytesLt ∧
      ∀ name, name ∈ names ↔
        (∃ content, s.get? (l ++ [name]) = some (.file content)) ∧ ∃ part, part ≠ "" ∧ name = part ++ ".jack"
  /-- A file is a unit by itself, whatever its name and wherever the links to it are. -/
  file (content : ByteArray) : s.at? path = some (.file content) → units s path = .ok [path]
  missing : s.at? path = none → units s path = .error (.io path "no such file or directory")
  /-- The same entries found in another order have the same units. -/
  anyOrder (t : Store) : t.entries.Perm s.entries → t.here = s.here → units t path = units s path

theorem units_of_directory {l : Location} (hl : s.resolve .present path = .ok l) (hdir : s.get? l = some .directory) :
    units s path = .ok ((unitNames ((s.below l).mergeSort fun a b => a.1 ≤ b.1)).map (Path.join path)) := by
  simp [units, holds, isFile, at?, list, hl, hdir, bind, Except.bind, pure, Except.pure]

theorem join_eq_inDirectory (hpath : path ≠ "") (name : String) : Path.join path name = inDirectory path name := by
  rw [Path.join, if_neg (by simpa using hpath)]
  rfl

theorem pairwise_unitNames {listing : List (String × Entry)} (hnodup : (listing.map Prod.fst).Nodup)
    (hsorted : listing.Pairwise fun a b => a.1 ≤ b.1) : (unitNames listing).Pairwise Text.BytesLt := by
  have hstrict : listing.Pairwise fun a b => Text.BytesLt a.1 b.1 := by
    refine (hsorted.and (List.pairwise_map.mp hnodup)).imp fun {a b} h => Text.lt_iff_bytesLt.mp ?_
    by_contra hnot
    exact h.2 (String.le_antisymm h.1 (String.not_lt.mp hnot))
  exact List.pairwise_map.mpr (hstrict.filter _)

/-- What is collected from a path is exactly its units. -/
theorem units_exact (s : Store) (path : String) : UnitsExact s path := by
  refine { directory := fun l hl hdir => ?directory, file := fun content h => ?file, missing := fun h => ?missing,
           anyOrder := fun t => units_of_entries_perm }
  case directory =>
    have hpath : path ≠ "" := by
      rintro rfl
      cases hl
    have hunits := units_of_directory hl hdir
    have hsorted := pairwise_mergeSort_names (s.below l)
    have hperm := List.mergeSort_perm (s.below l) fun a b => a.1 ≤ b.1
    generalize (s.below l).mergeSort (fun a b => a.1 ≤ b.1) = listing at hunits hsorted hperm
    rw [funext (join_eq_inDirectory hpath)] at hunits
    refine ⟨unitNames listing, hunits, pairwise_unitNames ?_ hsorted, fun name => ?_⟩
    · exact (hperm.map _).nodup_iff.mpr (nodup_below s l)
    · simp only [mem_unitNames_iff, hperm.mem_iff, mem_below_iff, isSourceName_iff]
  case file => exact units_of_isFile (by rw [isFile, h])
  case missing => simp [units, holds, h]

end Batch

end JackAnalyzer
