/-
  JackAnalyzer.Proofs.Batch.Collision — what a batch leaves of its artifacts. The tree of a unit
  and the token listing of another have one path where the stem of the one is that of the other
  with a `T` behind it, and then one of them is lost, whichever unit is processed first. No
  other two artifacts meet, so without such a pair each stays as it was written.
  - `turns_append`, `alters_of_turns`: turns one after the other, and all that they change.
  - `artifacts_kept_iff`: all artifacts are kept exactly where no such pair is.
-/

import JackAnalyzer.Batch.Report
import JackAnalyzer.Proofs.Batch.Sources
import JackAnalyzer.Proofs.Render.JsonReading
import JackAnalyzer.Proofs.Render.XmlReading

namespace JackAnalyzer

theorem Format.renderTree_ne_renderTokens (format : Format) (tree : Tree) (ts : List Token) :
    format.renderTree tree ≠ format.renderTokens ts := by
  cases format with
  | xml => exact Render.Xml.tree_ne_tokens tree ts
  | json => exact Render.Json.tree_ne_tokens tree ts

namespace Batch

open Store

/-! ## Turns -/

section Turns

variable {s : Store}

theorem storeAfter_cons (s : Store) (turn : Turn) (ts : List Turn) :
    storeAfter s (turn :: ts) = storeAfter turn.effect.store ts := by
  cases ts with
  | nil => rfl
  | cons next ts => rw [storeAfter, storeAfter, List.getLast?_cons_cons, List.getLast?_cons]; rfl

theorem turns_append (action : Action) (xs ys : List String) (s : Store) :
    turns action (xs ++ ys) s = turns action xs s ++ turns action ys (storeAfter s (turns action xs s)) := by
  induction xs generalizing s with
  | nil => rfl
  | cons x xs ih => simp only [List.cons_append, turns, ih, storeAfter_cons]

theorem storeAfter_append (s : Store) (ts ts' : List Turn) :
    storeAfter s (ts ++ ts') = storeAfter (storeAfter s ts) ts' := by
  induction ts generalizing s with
  | nil => rfl
  | cons turn ts ih => rw [List.cons_append, storeAfter_cons, storeAfter_cons, ih]

theorem isSuccess_ofTurns_iff {ts : List Turn} :
    (Report.ofTurns ts).isSuccess = true ↔ ∀ turn ∈ ts, turn.effect.failure = none := by
  have hline (turn : Turn) :
      (⟨turn.source, turn.effect.result⟩ : Outcome).failureLine? = none ↔ turn.effect.failure = none := by
    unfold Outcome.failureLine? Effect.result
    cases turn.effect.failure <;> simp
  rw [Report.isSuccess_iff, Report.failureLines, Report.ofTurns, List.filterMap_eq_nil_iff]
  simp only [List.forall_mem_map, hline]

theorem isSuccess_inOrder_iff {action : Action} {us order : List String} (h : order.Perm us) :
    (Report.inOrder us (turns action order s)).isSuccess = true ↔
      ∀ turn ∈ turns action order s, turn.effect.failure = none := by
  have hperm := (perm_inUnitOrder ((map_source_turns action order s).symm ▸ h)).1
  rw [Report.inOrder, isSuccess_ofTurns_iff]
  simp only [hperm.mem_iff]

theorem alters_of_process (settings : OutputSettings) (hs : s.LinkFree) (source : String) :
    s.Alters (process settings source s).store ((process settings source s).store.At (artifactPaths settings source))
      fun _ => True := by
  cases hcompile : compileFile s source with
  | error error =>
    rw [process_store_of_compile_error hcompile]
    exact .refl _ _ _
  | ok unit =>
    have h := delivered_of_compile settings hs hcompile
    have hwritten := map_fst_artifacts settings source unit ▸ h.written_subset
    exact h.alters.imp (fun _ hl => hl.mono hwritten) fun _ _ => trivial

/-- Turns change the artifacts of their units. -/
theorem alters_of_turns (settings : OutputSettings) (hs : s.LinkFree) (us : List String) :
    s.Alters (storeAfter s (turns (.write settings) us s))
      ((storeAfter s (turns (.write settings) us s)).At (us.flatMap (artifactPaths settings))) fun _ => True := by
  induction us generalizing s with
  | nil => exact .refl _ _ _
  | cons u us ih =>
    have hfirst := alters_of_process settings hs u
    have hlater := ih (hfirst.linkFree hs)
    rw [turns, storeAfter_cons]
    refine .trans (hfirst.imp (fun _ hl => ?_) fun _ _ => trivial) (hlater.imp (fun _ hl => ?_) fun _ _ => trivial)
    -- the first unit's artifacts are told by where their paths lead behind its own turn
    · exact (hlater.at_later (hfirst.linkFree hs) hl).mono (List.subset_append_left _ _)
    · exact hl.mono (List.subset_append_right _ _)

end Turns

/-! ## What is kept -/

section Kept

variable {settings : OutputSettings} {path : String} {s t : Store} {us : List String} {u v : String}

theorem compileFile_eq {text : String} (h : s.readText u = .ok text) : compileFile s u = SourceUnit.compile text := by
  simp only [compileFile, readSource, h, bind, Except.bind]

theorem exists_of_compileFile {unit : SourceUnit} (h : compileFile s u = .ok unit) :
    ∃ text, s.readText u = .ok text ∧ SourceUnit.compile text = .ok unit := by
  cases hread : s.readText u with
  | error f => simp [compileFile, readSource, hread, bind, Except.bind] at h
  | ok text =>
    rw [compileFile_eq hread] at h
    exact ⟨text, rfl, h⟩

variable (hs : s.LinkFree) (hw : s.WellNamed) (hus : units s path = .ok us) (hu : u ∈ us) (hv : v ∈ us)

include hw hus hu

/-- A unit whose file was not written is compiled from what it held before. -/
theorem compileFile_of_alters (hs : s.LinkFree) {paths : List String} {dirs : Location → Prop}
    (h : s.Alters t (t.At paths) dirs) (hapart : ∀ p ∈ paths, Apart u p) {unit : SourceUnit}
    (hunit : compileFile t u = .ok unit) : compileFile s u = .ok unit := by
  obtain ⟨text, hread, hcompile⟩ := exists_of_compileFile hunit
  obtain ⟨l, content, hl, hfile, htext⟩ := readText_eq_ok_iff.mp hread
  have ht := h.linkFree hs
  obtain ⟨hbefore, content', hfile'⟩ := resolve_unit hw hus hu hs ht h.keeps hl
  have hsame := h.get?_eq (not_at_of_apart ht hapart hl) (by rw [hfile']; rfl)
  rw [compileFile_eq (readText_eq_ok_iff.mpr ⟨l, content, hbefore, hsame ▸ hfile, htext⟩), hcompile]

include hv

/-- Artifacts of two units go to two places, unless the stem of the one is that of the other with
    a `T` behind it. -/
theorem apart_artifacts (hne : u ≠ v)
    (hstems : settings.tokens = true → Path.stem v ≠ Path.stem u ++ "T" ∧ Path.stem u ≠ Path.stem v ++ "T")
    {p q : String} (hp : p ∈ artifactPaths settings u) (hq : q ∈ artifactPaths settings v) : Apart p q := by
  obtain ⟨a, ha, rfl⟩ := List.mem_map.mp hp
  obtain ⟨b, hb, rfl⟩ := List.mem_map.mp hq
  refine apart_artifactPath settings u v (slash_notMem_of_mem_artifactStems ha)
    (slash_notMem_of_mem_artifactStems hb) ?_
  have hstem : Path.stem u ≠ Path.stem v := fun h => hne (eq_of_stem_eq hw hus hu hv h)
  rcases mem_artifactStems.mp ha with rfl | ⟨ht, rfl⟩
  · rcases mem_artifactStems.mp hb with rfl | ⟨ht, rfl⟩
    · exact hstem
    · exact (hstems ht).2
  · rcases mem_artifactStems.mp hb with rfl | ⟨-, rfl⟩
    · exact (hstems ht).1.symm
    · exact fun h => hstem ((String.append_left_inj _).mp h)

/-- The tree of a unit goes where the token listing of another does, if its stem is that of the
    other with a `T` behind it. -/
theorem tokens_eq_tree (hstem : Path.stem v = Path.stem u ++ "T") (dir : Option String) (format : Format) :
    (Artifacts.ofSource u dir format).tokens = (Artifacts.ofSource v dir format).tree := by
  have hname : Path.stem u ++ "T." ++ format.extension = Path.stem v ++ "." ++ format.extension := by
    rw [hstem, append_T_dot]
  simp only [Artifacts.ofSource, hname, parent_eq hw hus hu hv]

theorem not_both_kept (htokens : settings.tokens = true) (hstem : Path.stem v = Path.stem u ++ "T")
    {unit unit' : SourceUnit}
    (hlisting : ∀ file text, (file, text) ∈ artifacts settings u unit → t.readText file = .ok text)
    (htree : ∀ file text, (file, text) ∈ artifacts settings v unit' → t.readText file = .ok text) : False := by
  have hthere := hlisting (Artifacts.ofSource u settings.dir settings.format).tokens
    (settings.format.renderTokens unit.tokens) (by simp [artifacts, htokens])
  rw [tokens_eq_tree hw hus hu hv hstem, htree _ _ List.mem_cons_self] at hthere
  exact settings.format.renderTree_ne_renderTokens _ _ (Except.ok.inj hthere)

end Kept

theorem delivered_of_failure_eq_none {settings : OutputSettings} {s : Store} (hs : s.LinkFree) {u : String}
    (h : (process settings u s).failure = none) : ∃ unit, compileFile s u = .ok unit ∧
      ∀ file text, (file, text) ∈ artifacts settings u unit →
        (process settings u s).store.readText file = .ok text := by
  cases hcompile : compileFile s u with
  | error error =>
    rw [process_store_of_compile_error hcompile] at h
    cases h
  | ok unit =>
    have hdelivered := delivered_of_compile settings hs hcompile
    refine ⟨unit, rfl, fun file text hmem => hdelivered.readText file text hmem ?_⟩
    exact hdelivered.ends.written_of_ok (Effect.result_of_none h) ▸ List.mem_map_of_mem hmem

section Batches

variable {settings : OutputSettings} {path : String} {s : Store} {us : List String}
variable (hs : s.LinkFree) (hw : s.WellNamed) (hus : units s path = .ok us)

include hs hw hus

theorem kept_of_apart {u : String} {xs ys : List String} (hu : u ∈ us) (hxs : xs ⊆ us) (hys : ys ⊆ us)
    (hux : u ∉ xs) (huy : u ∉ ys)
    (hstems : settings.tokens = true → ∀ u ∈ us, ∀ v ∈ us, Path.stem v ≠ Path.stem u ++ "T")
    (hok : ∀ turn ∈ turns (.write settings) (xs ++ u :: ys) s, turn.effect.failure = none) :
    ∃ unit, compileFile s u = .ok unit ∧ ∀ file text, (file, text) ∈ artifacts settings u unit →
      (storeAfter s (turns (.write settings) (xs ++ u :: ys) s)).readText file = .ok text := by
  rw [turns_append, turns] at hok ⊢
  rw [storeAfter_append, storeAfter_cons]
  have hbefore := alters_of_turns settings hs xs
  -- of the store in front of the turn only this counts: what differs from `s` are artifacts of `xs`
  generalize storeAfter s (turns (.write settings) xs s) = t at *
  have ht := hbefore.linkFree hs
  have hturn : (process settings u t).failure = none := hok _ (List.mem_append_right _ List.mem_cons_self)
  obtain ⟨unit, hunit, htexts⟩ := delivered_of_failure_eq_none ht hturn
  have hlater := alters_of_turns settings ((alters_of_process settings ht u).linkFree ht) ys
  refine ⟨unit, compileFile_of_alters hw hus hu hs hbefore ?_ hunit, fun file text hmem => ?_⟩
  · intro p hp
    obtain ⟨v, hv, hp⟩ := List.mem_flatMap.mp hp
    exact apart_of_mem_artifactPaths hw hus hu (hxs hv) (fun h => hux (h ▸ hv)) hp
  · refine hlater.readText ((alters_of_process settings ht u).linkFree ht) (fun q hq => ?_) (htexts file text hmem)
    obtain ⟨v, hv, hq⟩ := List.mem_flatMap.mp hq
    have hfile : file ∈ artifactPaths settings u := map_fst_artifacts settings u unit ▸ List.mem_map_of_mem hmem
    exact apart_artifacts hw hus hu (hys hv) (fun h => huy (h ▸ hv))
      (fun ht => ⟨hstems ht u hu v (hys hv), hstems ht v (hys hv) u hu⟩) hfile hq

end Batches

/-- After a successful batch, every artifact holds what its own unit renders to exactly where no
    unit's stem is that of another with a `T` behind it, or no token listings are written. -/
theorem artifacts_kept_iff (settings : OutputSettings) (path : String) {s : Store} (hs : s.LinkFree) (hw : s.WellNamed)
    {us order : List String} (hus : units s path = .ok us) (horder : order.Perm us)
    (hok : (Report.ofTurns (turns (.write settings) order s)).isSuccess = true) :
    (∀ u ∈ us, ∃ unit, compileFile s u = .ok unit ∧ ∀ file text, (file, text) ∈ artifacts settings u unit →
      (storeAfter s (turns (.write settings) order s)).readText file = .ok text) ↔
    (settings.tokens = true → ∀ u ∈ us, ∀ v ∈ us, Path.stem v ≠ Path.stem u ++ "T") := by
  constructor
  · intro hkept htokens u hu v hv hstem
    obtain ⟨unit, -, hlisting⟩ := hkept u hu
    obtain ⟨unit', -, htree⟩ := hkept v hv
    exact not_both_kept hw hus hu hv htokens hstem hlisting htree
  · intro hstems u hu
    obtain ⟨xs, ys, rfl⟩ := List.append_of_mem (horder.mem_iff.mpr hu)
    have hnodup := horder.nodup_iff.mpr (nodup_units hw hus)
    obtain ⟨hnot, -⟩ := List.nodup_cons.mp (List.nodup_middle.mp hnodup)
    rw [List.mem_append, not_or] at hnot
    obtain ⟨hxs, hys⟩ := List.append_subset.mp horder.subset
    exact kept_of_apart hs hw hus hu hxs (List.Subset.trans (List.subset_cons_self u ys) hys) hnot.1 hnot.2 hstems
      (isSuccess_ofTurns_iff.mp hok)

def classes (names : List String) : Store := ofTexts (names.map fun n => (n ++ ".jack", "class " ++ n ++ " \x7b\x7d"))

/-- Of two classes with names apart all is kept. -/
theorem artifacts_kept_of_A_and_B : units (classes ["B", "A"]) "." = .ok ["./A.jack", "./B.jack"] ∧
    ∀ u ∈ ["./A.jack", "./B.jack"], ∃ unit, compileFile (classes ["B", "A"]) u = .ok unit ∧
      ∀ file text, (file, text) ∈ artifacts ⟨.xml, none, true⟩ u unit →
        (storeAfter (classes ["B", "A"]) (turns (.write ⟨.xml, none, true⟩) ["./B.jack", "./A.jack"]
          (classes ["B", "A"]))).readText file = .ok text := by
  have hunits : units (classes ["B", "A"]) "." = .ok ["./A.jack", "./B.jack"] :=
    (units_of_sorted (l := []) (by decide +kernel) rfl (by decide +kernel)).trans
      (congrArg Except.ok (by decide +kernel))
  refine ⟨hunits, (artifacts_kept_iff ⟨.xml, none, true⟩ "." (linkFree_ofTexts _) (by decide +kernel) hunits
    (.swap _ _ []) (by decide +kernel)).mpr fun _ => ?_⟩
  decide +kernel

/-- Of two classes, the name of one that of the other with a `T` behind it, a tree is lost: where
    it was stands the token listing of the other. -/
theorem tree_lost_of_A_and_AT : (classes ["AT", "A"]).LinkFree ∧ (classes ["AT", "A"]).WellNamed ∧
    units (classes ["AT", "A"]) "." = .ok ["./A.jack", "./AT.jack"] ∧
    (Report.ofTurns (turns (.write ⟨.xml, none, true⟩) ["./AT.jack", "./A.jack"]
      (classes ["AT", "A"]))).isSuccess = true ∧
    ∃ unit other, compileFile (classes ["AT", "A"]) "./AT.jack" = .ok unit ∧
      compileFile (classes ["AT", "A"]) "./A.jack" = .ok other ∧
      ("./AT.xml", Format.xml.renderTree unit.tree) ∈ artifacts ⟨.xml, none, true⟩ "./AT.jack" unit ∧
      (storeAfter (classes ["AT", "A"]) (turns (.write ⟨.xml, none, true⟩) ["./AT.jack", "./A.jack"]
        (classes ["AT", "A"]))).readText "./AT.xml" = .ok (Format.xml.renderTokens other.tokens) ∧
      Format.xml.renderTokens other.tokens ≠ Format.xml.renderTree unit.tree := by
  have hunits : units (classes ["AT", "A"]) "." = .ok ["./A.jack", "./AT.jack"] :=
    (units_of_sorted (l := []) (by decide +kernel) rfl (by decide +kernel)).trans
      (congrArg Except.ok (by decide +kernel))
  obtain ⟨unit, hunit⟩ := Option.isSome_iff_exists.mp
    (show (compileFile (classes ["AT", "A"]) "./AT.jack").toOption.isSome by decide +kernel)
  obtain ⟨other, hother⟩ := Option.isSome_iff_exists.mp
    (show (compileFile (classes ["AT", "A"]) "./A.jack").toOption.isSome by decide +kernel)
  have htext : ((storeAfter (classes ["AT", "A"]) (turns (.write ⟨.xml, none, true⟩) ["./AT.jack", "./A.jack"]
      (classes ["AT", "A"]))).readText "./AT.xml").toOption =
      (compileFile (classes ["AT", "A"]) "./A.jack").toOption.map fun unit => Format.xml.renderTokens unit.tokens := by
    decide +kernel
  rw [hother, Option.map_some] at htext
  have htree : (Artifacts.ofSource "./AT.jack" none .xml).tree = "./AT.xml" := by decide +kernel
  exact ⟨linkFree_ofTexts _, by decide +kernel, hunits, by decide +kernel, unit, other,
    eq_ok_of_toOption_eq_some hunit, eq_ok_of_toOption_eq_some hother, htree ▸ List.mem_cons_self,
    eq_ok_of_toOption_eq_some htext, (Format.xml.renderTree_ne_renderTokens _ _).symm⟩

end Batch

end JackAnalyzer
