/-
  JackAnalyzer.Proofs.Batch.Sources — the units of a directory. Each is the directory, a slash
  and a name that is told by its stem alone, so units differ in their stems, stand in one
  directory, and are no artifacts of one another.
  - `units_cases`: a path names itself, or files told by their stems.
  - `apart_of_mem_artifactPaths`, `resolve_unit`: no unit is written by another, nor moved.
-/

import Mathlib.Data.List.Nodup
import JackAnalyzer.Batch.Units
import JackAnalyzer.Proofs.Batch.Effects

namespace JackAnalyzer

namespace Store

/-- No name in the store holds a slash. -/
def WellNamed (s : Store) : Prop := ∀ m ∈ s.entries, ∀ name ∈ m.1, '/' ∉ name.toList

instance decidableWellNamed (s : Store) : Decidable s.WellNamed :=
  inferInstanceAs (Decidable (∀ m ∈ s.entries, ∀ name ∈ m.1, '/' ∉ name.toList))

/-! ## Listings -/

theorem lookup_eq_some_of_mem {ms : List (Location × Entry)} (hnodup : (ms.map Prod.fst).Nodup) {l : Location}
    {e : Entry} (h : (l, e) ∈ ms) : ms.lookup l = some e := by
  induction ms with
  | nil => cases h
  | cons m ms ih =>
    obtain ⟨hnot, hnodup⟩ := List.nodup_cons.mp hnodup
    rcases List.mem_cons.mp h with rfl | h
    · simp
    · have hne : (l == m.1) = false := by
        refine beq_eq_false_iff_ne.mpr fun hl => hnot ?_
        exact hl ▸ List.mem_map_of_mem h
      rw [List.lookup_cons, hne]
      exact ih hnodup h

theorem mem_below {s : Store} {l : Location} {name : String} {e : Entry} (h : (name, e) ∈ s.below l) :
    (l ++ [name], e) ∈ s.entries := by
  obtain ⟨⟨k, e'⟩, hmem, hm⟩ := List.mem_filterMap.mp h
  dsimp only at hm
  split at hm
  · rename_i hdir
    obtain ⟨last, hlast, heq⟩ := Option.map_eq_some_iff.mp hm
    obtain ⟨rfl, rfl⟩ := Prod.mk.inj heq
    rw [← hdir, List.dropLast_append_getLast? last hlast]
    exact hmem
  · cases hm

theorem nodup_below (s : Store) (l : Location) : ((s.below l).map Prod.fst).Nodup := by
  have hnames : (s.below l).map Prod.fst =
      (s.entries.map Prod.fst).filterMap fun k => if k.dropLast = l then k.getLast? else none := by
    rw [below, List.map_filterMap, List.filterMap_map]
    refine List.filterMap_congr fun m _ => ?_
    dsimp only [Function.comp]
    split
    · cases m.1.getLast? <;> rfl
    · rfl
  rw [hnames]
  refine s.nodup.filterMap fun k k' name hk hk' => ?_
  simp only [Option.mem_def, Option.ite_none_right_eq_some] at hk hk'
  rw [← List.dropLast_append_getLast? name hk.2, ← List.dropLast_append_getLast? name hk'.2, hk.1, hk'.1]

theorem list_eq_ok {s : Store} {path : String} {listing : List (String × Entry)} (h : s.list path = .ok listing) :
    ∃ l, s.resolve .present path = .ok l ∧ s.get? l = some .directory ∧ listing.Perm (s.below l) := by
  obtain ⟨l, hl, h⟩ := exists_of_bind_eq_ok h
  split at h
  · rename_i hdir
    exact ⟨l, hl, hdir, Except.ok.inj h ▸ List.mergeSort_perm _ _⟩
  · cases h
  · cases h

theorem list_of_sorted {s : Store} {path : String} {l : Location} (hl : s.resolve .present path = .ok l)
    (hdir : s.get? l = some .directory) (hsorted : (s.below l).Pairwise fun a b => a.1 ≤ b.1) :
    s.list path = .ok (s.below l) := by
  simp only [list, hl, bind, Except.bind, hdir]
  rw [List.mergeSort_of_pairwise (hsorted.imp fun h => by simpa using h)]
  rfl

theorem exists_of_isFile {s : Store} {path : String} (h : s.isFile path = true) :
    ∃ l content, s.resolve .present path = .ok l ∧ s.get? l = some (.file content) := by
  unfold isFile at? at h
  cases hl : s.resolve .present path with
  | error f => simp [hl] at h
  | ok l =>
    simp only [hl] at h
    split at h
    · rename_i content hcontent
      exact ⟨l, content, rfl, hcontent⟩
    · cases h

end Store

namespace Batch

open Store

/-! ## Units -/

def sourceName (stem : String) : String := stem ++ "." ++ "jack"

theorem isPlain_sourceName {stem : String} (h : '/' ∉ stem.toList) : Path.IsPlain (sourceName stem) := by
  refine .of_extension rfl ?_ (by decide)
  simpa [sourceName] using h

theorem eq_sourceName {name : String} (h : isSourceName name = true) :
    name = sourceName (String.ofList (Path.splitExtension name.toList).1) := by
  have hcut := Path.eq_of_splitExtension (of_decide_eq_true h)
  exact String.toList_injective (hcut.trans (by simp [sourceName]))

theorem sourceName_ne_artifact {stem stem' : String} {format : Format} :
    sourceName stem ≠ stem' ++ "." ++ format.extension := by
  intro heq
  have hlast := congrArg (fun name : String => name.toList.getLast?) heq
  revert hlast
  cases format <;> simp [sourceName, Format.extension]

/-- A unit of a directory: a file in it, told by its stem. -/
def IsListed (s : Store) (path u : String) : Prop :=
  u = Path.join path (sourceName (Path.stem u)) ∧ ∃ l content, s.resolve .present path = .ok l ∧
    s.get? l = some .directory ∧ s.get? (l ++ [sourceName (Path.stem u)]) = some (.file content)

section Units

variable {s : Store} {path : String} {us : List String}

/-- No artifact is a file that counts in a directory. -/
theorem apart_of_isListed {settings : OutputSettings} {u v p : String} (h : IsListed s path u)
    (hp : p ∈ artifactPaths settings v) : Apart u p := by
  obtain ⟨stem, hstem, rfl⟩ := List.mem_map.mp hp
  rw [h.1]
  exact apart_join (isPlain_sourceName (Path.slash_notMem_stem u))
    (isPlain_artifact (slash_notMem_of_mem_artifactStems hstem) _) sourceName_ne_artifact

theorem nodup_unitNames {listing : List (String × Entry)} (h : (listing.map Prod.fst).Nodup) :
    (unitNames listing).Nodup :=
  h.sublist (List.filter_sublist.map _)

theorem isListed_join {l : Location} {listing : List (String × Entry)} (hw : s.WellNamed) (hne : path ≠ "")
    (hl : s.resolve .present path = .ok l) (hdir : s.get? l = some .directory) (hlisting : listing.Perm (s.below l))
    {name : String} (hname : name ∈ unitNames listing) : IsListed s path (Path.join path name) := by
  obtain ⟨⟨content, hmem⟩, hsource⟩ := mem_unitNames_iff.mp hname
  have hentry := mem_below (hlisting.mem_iff.mp hmem)
  have hfile : s.get? (l ++ [name]) = some (.file content) := by
    rw [get?, if_neg (by simp)]
    exact lookup_eq_some_of_mem s.nodup hentry
  have hslash : '/' ∉ name.toList := hw _ hentry name (by simp)
  have hplain : Path.IsPlain name := .of_extension (eq_sourceName hsource) hslash (by decide)
  have hstem : sourceName (Path.stem (Path.join path name)) = name := by
    rw [Path.stem_join hne hplain]
    exact (eq_sourceName hsource).symm
  exact ⟨by rw [hstem], l, content, hl, hdir, by rw [hstem, hfile]⟩

/-- A path names itself or what is listed in a directory. -/
theorem units_cases (hw : s.WellNamed) (h : units s path = .ok us) :
    us = [path] ∧ s.isFile path = true ∨ path ≠ "" ∧ us.Nodup ∧ ∀ u ∈ us, IsListed s path u := by
  unfold units at h
  split at h
  · cases h
  split at h
  · rename_i hfile
    exact Or.inl ⟨(Except.ok.inj h).symm, hfile⟩
  split at h
  · rename_i listing hlist
    obtain rfl := Except.ok.inj h
    obtain ⟨l, hl, hdir, hlisting⟩ := list_eq_ok hlist
    have hne : path ≠ "" := by
      rintro rfl
      cases hl
    refine Or.inr ⟨hne, ?_, fun u hu => ?_⟩
    · have hnames : (listing.map Prod.fst).Nodup := (hlisting.map _).nodup_iff.mpr (nodup_below s l)
      exact (nodup_unitNames hnames).map (Path.join_injective hne)
    · obtain ⟨name, hname, rfl⟩ := List.mem_map.mp hu
      exact isListed_join hw hne hl hdir hlisting hname
  · cases h

theorem units_of_isFile (h : s.isFile path = true) : units s path = .ok [path] := by
  have hholds : s.holds path = true := by
    unfold isFile at h
    unfold holds
    split at h
    · rename_i hfile
      rw [hfile]
      rfl
    · cases h
  simp [units, hholds, h]

theorem units_of_sorted {l : Location} (hl : s.resolve .present path = .ok l) (hdir : s.get? l = some .directory)
    (hsorted : (s.below l).Pairwise fun a b => a.1 ≤ b.1) :
    units s path = .ok ((unitNames (s.below l)).map (Path.join path)) := by
  simp [units, holds, isFile, at?, hl, hdir, list_of_sorted hl hdir hsorted]

variable (hw : s.WellNamed) (hus : units s path = .ok us) {u v : String} (hu : u ∈ us) (hv : v ∈ us)

include hw hus

theorem nodup_units : us.Nodup := by
  rcases units_cases hw hus with ⟨rfl, -⟩ | ⟨-, hnodup, -⟩
  · exact List.nodup_singleton path
  · exact hnodup

include hu hv

theorem eq_of_stem_eq (h : Path.stem u = Path.stem v) : u = v := by
  rcases units_cases hw hus with ⟨rfl, -⟩ | ⟨-, -, hlisted⟩
  · rw [List.mem_singleton.mp hu, List.mem_singleton.mp hv]
  · rw [(hlisted u hu).1, (hlisted v hv).1, h]

theorem parent_eq : Path.parent u = Path.parent v := by
  rcases units_cases hw hus with ⟨rfl, -⟩ | ⟨hne, -, hlisted⟩
  · rw [List.mem_singleton.mp hu, List.mem_singleton.mp hv]
  · rw [(hlisted u hu).1, (hlisted v hv).1]
    exact Path.parent_join hne (isPlain_sourceName (Path.slash_notMem_stem u))
      (isPlain_sourceName (Path.slash_notMem_stem v))

theorem apart_of_mem_artifactPaths {settings : OutputSettings} (hne : u ≠ v) {p : String}
    (hp : p ∈ artifactPaths settings v) : Apart u p := by
  rcases units_cases hw hus with ⟨rfl, -⟩ | ⟨-, -, hlisted⟩
  · exact absurd ((List.mem_singleton.mp hu).trans (List.mem_singleton.mp hv).symm) hne
  · exact apart_of_isListed (hlisted u hu) hp

omit hv

/-- A unit that leads somewhere later led there before. -/
theorem resolve_unit (hs : s.LinkFree) {t : Store} (ht : t.LinkFree) (hk : s.Keeps t) {l : Location}
    (h : t.resolve .present u = .ok l) : s.resolve .present u = .ok l ∧ ∃ content, s.get? l = some (.file content) := by
  rcases units_cases hw hus with ⟨rfl, hfile⟩ | ⟨-, -, hlisted⟩
  · obtain rfl := List.mem_singleton.mp hu
    obtain ⟨l', content, hl', hcontent⟩ := exists_of_isFile hfile
    obtain rfl := Except.ok.inj ((hk.resolve hs ht hl').symm.trans h)
    exact ⟨hl', content, hcontent⟩
  · obtain ⟨hjoin, l', content, hl', hdir, hfile⟩ := hlisted u hu
    have hplain := isPlain_sourceName (Path.slash_notMem_stem u)
    generalize sourceName (Path.stem u) = name at *
    subst hjoin
    -- the directory has not moved, so what is found in it later is the entry that was listed
    obtain ⟨above, habove, -, hlength, rfl⟩ := exists_above_of_resolve_join hplain ht h
    have hnames := leads_of_resolve hs hl'
    obtain rfl := habove.unique ht (hk.here ▸ hnames.keeps hk)
    refine ⟨(resolve_eq_ok_iff hs).mpr ⟨((resolve_eq_ok_iff ht).mp h).1, ?_⟩, content, hfile⟩
    rw [startOf_join hplain, steps_join hplain]
    refine hnames.append (.down hdir ?_ (by rw [hfile]; rfl) (.done _))
    exact ⟨hplain.ne_empty, hplain.ne_dot, hplain.ne_dots, hlength⟩

end Units

end Batch

end JackAnalyzer
