/-
  JackAnalyzer.Proofs.Batch.Independence — the units of a batch do not depend on one another.
  Where no two artifacts have one path, each unit comes to what it comes to on its own, in the
  store before the batch, and the store behind the batch is what the units make on their own, put
  together. So the order of the turns does not count.
  - `outcomes_of_parts`, `storeAfter_of_parts`: a run of turns, each the part of its unit.
  - `joins_of_parts`: what the units make on their own, put together.
  - `turns_independent`: the units of a path in any order.
-/

import Mathlib.Data.List.Flatten
import Mathlib.Data.List.Pairwise
import JackAnalyzer.Proofs.Batch.Parts

namespace JackAnalyzer

namespace Store

structure Same (s t : Store) : Prop where
  here : t.here = s.here
  get? (l : Location) : t.get? l = s.get? l

/-- What stores that come from one store make of it, put together: what is different in one of
    them is as it is there, and nothing else is different. -/
structure Joins (s : Store) (alone : String → Store) (us : List String) (t : Store) : Prop where
  here : t.here = s.here
  changed {u : String} : u ∈ us → ∀ l, (alone u).get? l ≠ s.get? l → t.get? l = (alone u).get? l
  unchanged (l : Location) : (∀ u ∈ us, (alone u).get? l = s.get? l) → t.get? l = s.get? l

/-- There is one such store. -/
theorem Joins.same {s t t' : Store} {alone : String → Store} {us : List String} (h : s.Joins alone us t)
    (h' : s.Joins alone us t') : t.Same t' where
  here := h'.here.trans h.here.symm
  get? l := by
    by_cases hall : ∀ u ∈ us, (alone u).get? l = s.get? l
    · rw [h.unchanged l hall, h'.unchanged l hall]
    · push Not at hall
      obtain ⟨u, hu, hne⟩ := hall
      rw [h.changed hu l hne, h'.changed hu l hne]

end Store

namespace Batch

open Store

/-- What units come to on their own. -/
def Report.alone (settings : OutputSettings) (us : List String) (s : Store) : Report :=
  ⟨us.map fun u => ⟨u, (process settings u s).result⟩⟩

/-! ## Runs -/

section Part

variable {settings : OutputSettings} {s : Store} {u : String} {p : Part} {made : Bool}
variable {files : List (Location × ByteArray)} (h : IsPart settings s u p)

include h

theorem IsPart.alone : process settings u s = ⟨p.written, p.failure, stage settings s p.made p.files⟩ :=
  h.turn false [] (fits_nil settings s false)

theorem IsPart.ne_nil_of_mem {l : Location} (hl : l ∈ p.files.map Prod.fst) : l ≠ [] := by
  obtain ⟨f, hf, rfl⟩ := List.mem_map.mp hl
  obtain ⟨above, stem, hname⟩ := h.fits.named f hf
  rw [hname]
  exact List.append_ne_nil_of_right_ne_nil _ (List.cons_ne_nil _ _)

end Part

section Runs

variable {settings : OutputSettings} {s : Store} {part : String → Part} {order : List String}
variable (hpart : ∀ u ∈ order, IsPart settings s u (part u))

def anyMade (part : String → Part) (order : List String) : Bool := order.any fun u => (part u).made

def allFiles (part : String → Part) (order : List String) : List (Location × ByteArray) :=
  order.flatMap fun u => (part u).files

include hpart

theorem fits_of_parts : Fits settings s (anyMade part order) (allFiles part order) := by
  induction order with
  | nil => exact fits_nil settings s false
  | cons u order ih =>
    exact (hpart u List.mem_cons_self).fits.append (ih fun v hv => hpart v (List.mem_cons_of_mem u hv))

/-- Each unit comes to what it comes to on its own. -/
theorem outcomes_of_parts {made : Bool} {files : List (Location × ByteArray)} (hfits : Fits settings s made files) :
    Report.ofTurns (turns (.write settings) order (stage settings s made files)) = Report.alone settings order s := by
  induction order generalizing made files with
  | nil => rfl
  | cons u order ih =>
    have hu := hpart u List.mem_cons_self
    have hrest := ih (fun v hv => hpart v (List.mem_cons_of_mem u hv)) (hfits.append hu.fits)
    simp only [Report.ofTurns, Report.alone, Report.mk.injEq] at hrest
    simp only [Report.ofTurns, Report.alone, turns, Action.run, List.map_cons, hu.turn made files hfits, hu.alone,
      hrest]
    rfl

/-- All parts are put together in the order of the turns. -/
theorem storeAfter_of_parts {made : Bool} {files : List (Location × ByteArray)} (hfits : Fits settings s made files) :
    storeAfter (stage settings s made files) (turns (.write settings) order (stage settings s made files)) =
      stage settings s (made || anyMade part order) (files ++ allFiles part order) := by
  induction order generalizing made files with
  | nil => simp [turns, storeAfter, anyMade, allFiles]
  | cons u order ih =>
    have hu := hpart u List.mem_cons_self
    have hrest := ih (fun v hv => hpart v (List.mem_cons_of_mem u hv)) (hfits.append hu.fits)
    rw [turns, storeAfter_cons]
    simp only [Action.run, hu.turn made files hfits, hrest, anyMade, allFiles, List.any_cons, List.flatMap_cons,
      Bool.or_assoc, List.append_assoc]

end Runs

/-! ## What is put together -/

theorem le_anyMade {part : String → Part} {order : List String} {u : String} (hu : u ∈ order)
    (h : (part u).made = true) : anyMade part order = true :=
  List.any_eq_true.mpr ⟨u, hu, h⟩

theorem get?_stage_nil_of_le {settings : OutputSettings} {s : Store} (hs : s.LinkFree) {made made' : Bool}
    {l : Location} (hle : made = true → made' = true) (hthere : ((stage settings s made []).get? l).isSome) :
    (stage settings s made' []).get? l = (stage settings s made []).get? l := by
  cases made with
  | true => rw [hle rfl]
  | false => exact ((fits_nil settings s made').alters hs).get?_eq List.not_mem_nil hthere

section Joined

variable {settings : OutputSettings} {s : Store} {part : String → Part} {order : List String}
variable (hs : s.LinkFree) (hpart : ∀ u ∈ order, IsPart settings s u (part u))
variable (hnames : (order.flatMap (artifactNames settings)).Nodup)

theorem get?_stage_of_notMem {made : Bool} {files : List (Location × ByteArray)} {l : Location}
    (h : l ∉ files.map Prod.fst) : (stage settings s made files).get? l = (stage settings s made []).get? l :=
  get?_putFiles_of_notMem h

theorem notMem_allFiles {l : Location} (h : ∀ u ∈ order, l ∉ (part u).files.map Prod.fst) :
    l ∉ (allFiles part order).map Prod.fst := by
  intro hmem
  obtain ⟨f, hf, rfl⟩ := List.mem_map.mp hmem
  obtain ⟨u, hu, hf⟩ := List.mem_flatMap.mp hf
  exact h u hu (List.mem_map_of_mem hf)

include hnames in
theorem eq_of_mem_artifactNames {u v : String} (hu : u ∈ order) (hv : v ∈ order) {name : String}
    (hun : name ∈ artifactNames settings u) (hvn : name ∈ artifactNames settings v) : u = v := by
  by_contra hne
  have hsymm : Std.Symm (Function.onFun List.Disjoint (artifactNames settings)) := ⟨fun _ _ h _ hu hv => h hv hu⟩
  exact (List.nodup_flatMap.mp hnames).2.forall hu hv hne hun hvn

include hpart

theorem getLast?_of_mem {u : String} (hu : u ∈ order) {l : Location} (hl : l ∈ (part u).files.map Prod.fst) :
    ∃ name ∈ artifactNames settings u, l.getLast? = some name := by
  obtain ⟨f, hf, rfl⟩ := List.mem_map.mp hl
  have hlast := (hpart u hu).names.subset (List.mem_map_of_mem (f := fun f : Location × ByteArray => f.1.getLast?) hf)
  obtain ⟨name, hname, heq⟩ := List.mem_map.mp hlast
  exact ⟨name, hname, heq.symm⟩

include hnames

theorem nodup_allFiles : ((allFiles part order).map Prod.fst).Nodup := by
  have hsub : ((allFiles part order).map fun f => f.1.getLast?).Sublist
      ((order.flatMap (artifactNames settings)).map some) := by
    rw [allFiles, List.map_flatMap, List.map_flatMap]
    exact List.Sublist.flatMap_right order fun u hu => (hpart u hu).names
  have hlasts := (hnames.map fun _ _ h => Option.some.inj h).sublist hsub
  rw [← Function.comp_def List.getLast? Prod.fst, ← List.map_map] at hlasts
  exact hlasts.of_map _

theorem get?_of_mem_files {u : String} (hu : u ∈ order) {l : Location} (hl : l ∈ (part u).files.map Prod.fst) :
    (stage settings s (anyMade part order) (allFiles part order)).get? l = (process settings u s).store.get? l := by
  obtain ⟨f, hf, rfl⟩ := List.mem_map.mp hl
  have hall := nodup_allFiles hpart hnames
  have hown : ((part u).files.map Prod.fst).Nodup := by
    rw [allFiles, List.map_flatMap] at hall
    exact (List.nodup_flatMap.mp hall).1 u hu
  have hroot := (hpart u hu).ne_nil_of_mem hl
  rw [(hpart u hu).alone, stage, stage, get?_putFiles_of_mem hall hroot (List.mem_flatMap.mpr ⟨u, hu, hf⟩),
    get?_putFiles_of_mem hown hroot hf]

include hs

theorem get?_artifact {u name : String} (hu : u ∈ order) (hname : name ∈ artifactNames settings u) {above : Location}
    (hthere : ((process settings u s).store.get? (above ++ [name])).isSome) :
    (stage settings s (anyMade part order) (allFiles part order)).get? (above ++ [name]) =
      (process settings u s).store.get? (above ++ [name]) := by
  by_cases hown : above ++ [name] ∈ (part u).files.map Prod.fst
  · exact get?_of_mem_files hpart hnames hu hown
  have hnot : above ++ [name] ∉ (allFiles part order).map Prod.fst := by
    refine notMem_allFiles fun v hv hmem => hown ?_
    obtain ⟨other, hother, hlast⟩ := getLast?_of_mem hpart hv hmem
    obtain rfl : name = other := by simpa using hlast
    exact eq_of_mem_artifactNames hnames hu hv hname hother ▸ hmem
  rw [(hpart u hu).alone] at hthere ⊢
  rw [get?_stage_of_notMem hown] at hthere
  rw [get?_stage_of_notMem hnot, get?_stage_of_notMem hown]
  exact get?_stage_nil_of_le hs (le_anyMade hu) hthere

theorem joins_of_parts : s.Joins (fun u => (process settings u s).store) order
    (stage settings s (anyMade part order) (allFiles part order)) where
  here := ((fits_of_parts hpart).alters hs).here
  changed {u} hu l hne := by
    by_cases hown : l ∈ (part u).files.map Prod.fst
    · exact get?_of_mem_files hpart hnames hu hown
    rw [(hpart u hu).alone] at hne ⊢
    rw [get?_stage_of_notMem hown] at hne ⊢
    -- what is different is a directory that was made, and no file stands there
    cases hmade : (part u).made with
    | false =>
      rw [hmade] at hne
      exact absurd rfl hne
    | true =>
      rw [hmade] at hne
      have hdir : (prepare settings s).2.get? l = some .directory := by
        rcases (alters_of_prepare hs settings).get? l with hsame | ⟨hf, -⟩ | ⟨-, -, hdir⟩
        · exact absurd hsame hne
        · exact hf.elim
        · exact hdir
      have hany : anyMade part order = true := le_anyMade hu hmade
      have hfits := fits_of_parts hpart
      rw [hany] at hfits ⊢
      exact get?_stage_of_notMem fun hmem => by
        obtain ⟨f, hf, rfl⟩ := List.mem_map.mp hmem
        exact hfits.free f hf hdir
  unchanged l hall := by
    by_cases hfile : ∃ u ∈ order, l ∈ (part u).files.map Prod.fst
    · obtain ⟨u, hu, hl⟩ := hfile
      rw [get?_of_mem_files hpart hnames hu hl, hall u hu]
    push Not at hfile
    rw [get?_stage_of_notMem (notMem_allFiles hfile)]
    cases hany : anyMade part order with
    | false => rfl
    | true =>
      obtain ⟨u, hu, hmade⟩ := List.any_eq_true.mp hany
      have halone := hall u hu
      rwa [(hpart u hu).alone, get?_stage_of_notMem (hfile u hu), hmade] at halone

/-- An artifact that a unit writes on its own is read as then. -/
theorem readText_artifact {u : String} (hu : u ∈ order) {file : String}
    (hfile : file ∈ (process settings u s).written) :
    (stage settings s (anyMade part order) (allFiles part order)).readText file =
      (process settings u s).store.readText file := by
  cases hunit : compileFile s u with
  | error e =>
    rw [process_store_of_compile_error hunit] at hfile
    cases hfile
  | ok unit =>
    have hdelivered := delivered_of_compile settings hs hunit
    obtain ⟨⟨path, text⟩, hmem, rfl⟩ := List.mem_map.mp (hdelivered.written_subset hfile)
    obtain ⟨l, content, hl, hcontent, -⟩ := readText_eq_ok_iff.mp (hdelivered.readText path text hmem hfile)
    have hpath : path ∈ artifactPaths settings u := map_fst_artifacts settings u unit ▸ List.mem_map_of_mem hmem
    rw [artifactPaths_eq] at hpath
    obtain ⟨name, hname, rfl⟩ := List.mem_map.mp hpath
    have hlinks := hdelivered.alters.linkFree hs
    have hplain := isPlain_of_mem_artifactNames hname
    obtain ⟨above, hleads, hdir, -, rfl⟩ := exists_above_of_resolve_join hplain hlinks hl
    have hjoins := joins_of_parts hs hpart hnames
    have halters := (fits_of_parts hpart).alters hs
    refine readText_join_eq hlinks (halters.linkFree hs) hplain (halters.here.trans hdelivered.alters.here.symm) hleads
      hdir (fun l hdir => ?_) (get?_artifact hs hpart hnames hu hname (by rw [hcontent]; rfl))
    -- a directory that the unit makes or finds on its own
    by_cases hsame : (process settings u s).store.get? l = s.get? l
    · exact halters.keeps.directory l (hsame ▸ hdir)
    · exact (hjoins.changed hu l hsame).trans hdir

end Joined

/-! ## Units of a path -/

section Units

variable {settings : OutputSettings} {s : Store} {path : String} {us order : List String}

theorem inOrder_eq_alone {ts : List Turn} (h : Report.ofTurns ts = Report.alone settings order s)
    (horder : order.Perm us) : Report.inOrder us ts = Report.alone settings us s := by
  let told (t : Turn) : Outcome := ⟨t.source, t.effect.result⟩
  let alone (u : String) : Outcome := ⟨u, (process settings u s).result⟩
  have houtcomes : ts.map told = order.map alone := congrArg Report.outcomes h
  have hsources : ts.map Turn.source = order := by
    simpa [told, alone, Function.comp_def] using congrArg (List.map Outcome.source) houtcomes
  rw [← hsources, List.map_map] at houtcomes
  have hone : ∀ t ∈ ts, told t = alone t.source := List.map_inj_left.mp houtcomes
  obtain ⟨hperm, hown⟩ := perm_inUnitOrder (hsources.symm ▸ horder)
  refine congrArg Report.mk ?_
  calc (inUnitOrder us ts).map told
    _ = (inUnitOrder us ts).map (alone ∘ Turn.source) := List.map_congr_left fun t ht => hone t (hperm.subset ht)
    _ = us.map alone := by rw [← List.map_map, hown]

variable (hw : s.WellNamed) (hus : units s path = .ok us)

include hw hus

/-- Artifacts that have no common path have no common name; the trees alone never have one. -/
theorem nodup_artifactNames (hdistinct : settings.tokens = true → (us.flatMap (artifactPaths settings)).Nodup) :
    (us.flatMap (artifactNames settings)).Nodup := by
  by_cases htokens : settings.tokens = true
  · cases us with
    | nil => exact List.nodup_nil
    | cons first us =>
      have hpaths : (first :: us).flatMap (artifactPaths settings) =
          ((first :: us).flatMap (artifactNames settings)).map (Path.join (artifactDir settings first)) := by
        rw [List.map_flatMap]
        refine List.flatMap_congr fun u hu => ?_
        rw [artifactPaths_eq, artifactDir, artifactDir, parent_eq hw hus hu List.mem_cons_self]
      exact .of_map _ (hpaths ▸ hdistinct htokens)
  · have hnames : us.flatMap (artifactNames settings) =
        us.map fun u => Path.stem u ++ "." ++ settings.format.extension := by
      rw [List.map_eq_flatMap]
      exact List.flatMap_congr fun u _ => by simp [artifactNames, artifactStems, htokens]
    rw [hnames]
    refine (nodup_units hw hus).map_on fun u hu v hv heq => eq_of_stem_eq hw hus hu hv ?_
    rwa [String.append_left_inj, String.append_left_inj] at heq

end Units

/-- Units that have their turns in an order do not depend on one another. -/
structure Independent (settings : OutputSettings) (s : Store) (us order : List String) : Prop where
  /-- Each comes to what it comes to on its own, told in the order of the turns or in that of the
      units. -/
  outcomes : Report.ofTurns (turns (.write settings) order s) = Report.alone settings order s
  report : Report.inOrder us (turns (.write settings) order s) = Report.alone settings us s
  /-- The store behind them is what they make on their own, put together. -/
  joins : s.Joins (fun u => (process settings u s).store) us (storeAfter s (turns (.write settings) order s))
  /-- What a unit writes on its own is read there, whether or not it fails then. -/
  artifacts : ∀ u ∈ us, ∀ file ∈ (process settings u s).written,
    (storeAfter s (turns (.write settings) order s)).readText file = (process settings u s).store.readText file

section Orders

variable {settings : OutputSettings} {s : Store} {path : String} {us order : List String} (hs : s.LinkFree)

include hs

theorem independent_singleton (u : String) : Independent settings s [u] [u] where
  outcomes := rfl
  report := inOrder_eq_alone rfl (.refl _)
  joins :=
    { here := (alters_of_process settings hs u).here
      changed := fun hu _ _ => by rw [List.mem_singleton.mp hu]; rfl
      unchanged := fun _ hall => hall u List.mem_cons_self }
  artifacts v hv file _ := by
    rw [List.mem_singleton.mp hv]
    rfl

theorem independent_of_parts {part : String → Part} (hpart : ∀ u ∈ us, IsPart settings s u (part u))
    (hnames : (us.flatMap (artifactNames settings)).Nodup) (horder : order.Perm us) :
    Independent settings s us order := by
  have hpart' : ∀ u ∈ order, IsPart settings s u (part u) := fun u hu => hpart u (horder.subset hu)
  have hnames' := (horder.flatMap_right (artifactNames settings)).nodup_iff.mpr hnames
  have houtcomes := outcomes_of_parts hpart' (fits_nil settings s false)
  have hafter := storeAfter_of_parts hpart' (fits_nil settings s false)
  rw [stage_start] at houtcomes hafter
  rw [Bool.false_or, List.nil_append] at hafter
  have hjoins := joins_of_parts hs hpart' hnames'
  refine ⟨houtcomes, inOrder_eq_alone houtcomes horder, ?_, fun u hu file hfile => ?_⟩
  · rw [hafter]
    exact ⟨hjoins.here, fun hu => hjoins.changed (horder.symm.subset hu), fun l hall =>
      hjoins.unchanged l fun u hu => hall u (horder.subset hu)⟩
  · rw [hafter]
    exact readText_artifact hs hpart' hnames' (horder.symm.subset hu) hfile

theorem independent_of_units (hw : s.WellNamed) (hg : s.Grounded)
    (hdots : ∀ dir, settings.dir = some dir → ".." ∉ names dir) (hus : units s path = .ok us)
    (hdistinct : settings.tokens = true → (us.flatMap (artifactPaths settings)).Nodup) (horder : order.Perm us) :
    Independent settings s us order := by
  rcases units_cases hw hus with ⟨rfl, -⟩ | ⟨-, -, hlisted⟩
  · rw [List.perm_singleton.mp horder]
    exact independent_singleton hs path
  · choose! part hpart using fun u hu => exists_part hs hg hdots (hlisted u hu)
    exact independent_of_parts hs hpart (nodup_artifactNames hw hus hdistinct) horder

end Orders

/-- The units of a path, where no two artifacts have one path, come in any order to what they come
    to on their own, and in any two orders to the same store. -/
theorem turns_independent (settings : OutputSettings) (path : String) {s : Store} (hs : s.LinkFree) (hw : s.WellNamed)
    (hg : s.Grounded) (hdots : ∀ dir, settings.dir = some dir → ".." ∉ names dir) {us : List String}
    (hus : units s path = .ok us)
    (hdistinct : settings.tokens = true → (us.flatMap (artifactPaths settings)).Nodup) :
    (∀ order, order.Perm us → Independent settings s us order) ∧
    ∀ order order', order.Perm us → order'.Perm us →
      (storeAfter s (turns (.write settings) order s)).Same (storeAfter s (turns (.write settings) order' s)) := by
  have hall (order : List String) (horder : order.Perm us) : Independent settings s us order :=
    independent_of_units hs hw hg hdots hus hdistinct horder
  exact ⟨hall, fun order order' h h' => (hall order h).joins.same (hall order' h').joins⟩

/-- Of two units one fails, whichever has the first turn, and the other has its artifacts in a
    directory that was not there. -/
theorem turns_independent_of_failing :
    units (ofTexts [("B.jack", "class B"), ("A.jack", "class A \x7b\x7d")]) "." = .ok ["./A.jack", "./B.jack"] ∧
    Independent ⟨.xml, some "out", true⟩ (ofTexts [("B.jack", "class B"), ("A.jack", "class A \x7b\x7d")])
      ["./A.jack", "./B.jack"] ["./B.jack", "./A.jack"] ∧
    (Report.inOrder ["./A.jack", "./B.jack"] (turns (.write ⟨.xml, some "out", true⟩) ["./B.jack", "./A.jack"]
      (ofTexts [("B.jack", "class B"), ("A.jack", "class A \x7b\x7d")]))).summary = "1 OK, 1 failed" := by
  have hunits : units (ofTexts [("B.jack", "class B"), ("A.jack", "class A \x7b\x7d")]) "." =
      .ok ["./A.jack", "./B.jack"] :=
    (units_of_sorted (l := []) (by decide +kernel) rfl (by decide +kernel)).trans
      (congrArg Except.ok (by decide +kernel))
  refine ⟨hunits, (turns_independent ⟨.xml, some "out", true⟩ "." (linkFree_ofTexts _) (by decide +kernel)
    (by decide +kernel) (fun dir hdir => ?_) hunits fun _ => by decide +kernel).1 _ (.swap _ _ []), by decide +kernel⟩
  obtain rfl := Option.some.inj hdir
  decide +kernel

end Batch

end JackAnalyzer
