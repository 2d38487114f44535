/-
  JackAnalyzer.Proofs.Batch.Effects — what one unit's turn does to a store without links. Where
  the source is at fault nothing changes. Else the artifacts are written one after the other up
  to the first that cannot be: those in front of it hold the renderings of what the source held
  before, and only they and the directory for artifacts are different afterwards.
  - `writeAll_cases`: files written one after the other.
  - `process_ends`: how one unit's turn ends, each failure that of the operation which it names.
  - `process_effects`: one unit's turn.
-/

import JackAnalyzer.Batch.Process
import JackAnalyzer.Proofs.Store.Paths

namespace JackAnalyzer

namespace Batch

open Store

/-! ## Where artifacts go -/

/-- What stands before the extension in the names of the artifacts of a source, in the order in
    which they are written. -/
def artifactStems (settings : OutputSettings) (source : String) : List String :=
  Path.stem source :: if settings.tokens then [Path.stem source ++ "T"] else []

def artifactPath (settings : OutputSettings) (source stem : String) : String :=
  Path.join (settings.dir.getD (Path.parent source)) (stem ++ "." ++ settings.format.extension)

def artifactPaths (settings : OutputSettings) (source : String) : List String :=
  (artifactStems settings source).map (artifactPath settings source)

theorem append_T_dot (stem : String) : stem ++ "T." = stem ++ "T" ++ "." := by
  rw [String.append_assoc]
  rfl

theorem map_fst_artifacts (settings : OutputSettings) (source : String) (unit : SourceUnit) :
    (artifacts settings source unit).map (·.1) = artifactPaths settings source := by
  unfold artifacts artifactPaths artifactStems artifactPath Artifacts.ofSource
  cases settings.tokens <;> simp [append_T_dot]

theorem mem_artifactStems {settings : OutputSettings} {source stem : String} : stem ∈ artifactStems settings source ↔
    stem = Path.stem source ∨ settings.tokens = true ∧ stem = Path.stem source ++ "T" := by
  unfold artifactStems
  cases settings.tokens <;> simp

theorem append_T_ne (stem : String) : stem ++ "T" ≠ stem := by
  intro h
  have hlength := congrArg String.length h
  rw [String.length_append] at hlength
  exact Nat.succ_ne_self _ hlength

theorem nodup_artifactStems (settings : OutputSettings) (source : String) : (artifactStems settings source).Nodup := by
  unfold artifactStems
  split
  · simpa using (append_T_ne (Path.stem source)).symm
  · simp

theorem slash_notMem_of_mem_artifactStems {settings : OutputSettings} {source stem : String}
    (h : stem ∈ artifactStems settings source) : '/' ∉ stem.toList := by
  have hsource := Path.slash_notMem_stem source
  rcases mem_artifactStems.mp h with rfl | ⟨-, rfl⟩
  · exact hsource
  · simpa using hsource

theorem isPlain_artifact {stem : String} (h : '/' ∉ stem.toList) (format : Format) :
    Path.IsPlain (stem ++ "." ++ format.extension) := by
  refine .of_extension rfl ?_ ?_
  · cases format <;> simpa [Format.extension] using h
  · cases format <;> decide

/-- Artifacts with two stems go to two places, whatever their directories. -/
theorem apart_artifactPath (settings : OutputSettings) (source source' : String) {stem stem' : String}
    (h : '/' ∉ stem.toList) (h' : '/' ∉ stem'.toList) (hne : stem ≠ stem') :
    Apart (artifactPath settings source stem) (artifactPath settings source' stem') := by
  refine apart_join (isPlain_artifact h _) (isPlain_artifact h' _) fun hname => hne ?_
  rw [String.append_assoc, String.append_assoc] at hname
  exact String.append_left_inj _ |>.mp hname

theorem pairwise_apart_artifactPaths (settings : OutputSettings) (source : String) :
    (artifactPaths settings source).Pairwise Apart := by
  refine List.pairwise_map.mpr ((nodup_artifactStems settings source).imp_of_mem fun h h' hne => ?_)
  exact apart_artifactPath settings source source (slash_notMem_of_mem_artifactStems h)
    (slash_notMem_of_mem_artifactStems h') hne

theorem pairwise_apart_artifacts (settings : OutputSettings) (source : String) (unit : SourceUnit) :
    ((artifacts settings source unit).map (·.1)).Pairwise Apart := by
  rw [map_fst_artifacts]
  exact pairwise_apart_artifactPaths settings source

/-! ## Writing one after the other -/

/-- Texts are written to their paths one after the other, each to the store that the one before
    left, and none of the writes fails. -/
inductive Writes : Store → List (String × String) → Store → Prop
  | nil (s : Store) : Writes s [] s
  | cons {s t u : Store} {path text : String} {files : List (String × String)} :
      s.writeText path text = .ok t → Writes t files u → Writes s ((path, text) :: files) u

/-- All is written, or what stands in front of the first text that cannot be. -/
theorem writeAll_cases (files : List (String × String)) (s : Store) :
    (∃ t, Writes s files t ∧ writeAll files s = ⟨files.map (·.1), none, t⟩) ∨
    ∃ front target text rest f t, files = front ++ (target, text) :: rest ∧ Writes s front t ∧
      t.writeText target text = .error f ∧ writeAll files s = ⟨front.map (·.1), some (.io target f.message), t⟩ := by
  induction files generalizing s with
  | nil => exact Or.inl ⟨s, .nil s, rfl⟩
  | cons file files ih =>
    obtain ⟨path, text⟩ := file
    unfold writeAll
    cases hone : s.writeText path text with
    | error f => exact Or.inr ⟨[], path, text, files, f, s, rfl, .nil s, hone, rfl⟩
    | ok t =>
      dsimp only
      rcases ih t with ⟨u, hu, hall⟩ | ⟨front, target, other, rest, f, u, rfl, hu, hf, hall⟩
      · exact Or.inl ⟨u, .cons hone hu, by rw [hall]; rfl⟩
      · exact Or.inr ⟨(path, text) :: front, target, other, rest, f, u, rfl, .cons hone hu, hf, by rw [hall]; rfl⟩

/-- The files stand at their paths, and nothing else is different. -/
structure Wrote (s : Store) (files : List (String × String)) (t : Store) : Prop where
  alters : s.Alters t (t.At (files.map (·.1))) fun _ => False
  readText (path text : String) : (path, text) ∈ files → t.readText path = .ok text

theorem Wrote.nil (s : Store) : Wrote s [] s := ⟨.refl _ _ _, fun _ _ hmem => nomatch hmem⟩

theorem Wrote.cons {s t u : Store} {files : List (String × String)} (hs : s.LinkFree) {path text : String}
    (ht : s.writeText path text = .ok t) (hapart : ∀ p ∈ files.map (·.1), Apart path p) (h : Wrote t files u) :
    Wrote s ((path, text) :: files) u := by
  obtain ⟨l, hl, hfile, hone⟩ := alters_of_write hs ht
  have hlinks := h.alters.linkFree (hone.linkFree hs)
  have hlater : u.resolve .present path = .ok l := h.alters.resolve (hone.linkFree hs) hl
  have hkept : ¬ u.At (files.map (·.1)) l := not_at_of_apart hlinks hapart hlater
  refine ⟨.trans (hone.imp ?_ fun _ hd => hd) (h.alters.imp ?_ fun _ hd => hd), fun p other hmem => ?_⟩
  · rintro _ rfl
    exact ⟨path, List.mem_cons_self, hlater⟩
  · exact fun _ hk => hk.mono (List.subset_cons_self _ _)
  · cases hmem with
    | head =>
      have hfinal := (h.alters.get?_eq hkept (by rw [hfile]; rfl)).trans hfile
      exact readText_eq_ok_iff.mpr ⟨l, _, hlater, hfinal, Text.ofBytes?_toUTF8 text⟩
    | tail _ hmem => exact h.readText p other hmem

theorem Writes.wrote {s t : Store} {files : List (String × String)} (h : Writes s files t) (hs : s.LinkFree)
    (hapart : (files.map (·.1)).Pairwise Apart) : Wrote s files t := by
  induction h with
  | nil s => exact .nil s
  | cons hone _ ih =>
    obtain ⟨hfirst, hrest⟩ := List.pairwise_cons.mp hapart
    obtain ⟨l, -, -, halters⟩ := alters_of_write hs hone
    exact .cons hs hone hfirst (ih (halters.linkFree hs) hrest)

/-- A path of the front has the text that it has there. -/
theorem Wrote.readText_of_front {s t : Store} {front rest : List (String × String)} (h : Wrote s front t)
    (ht : t.LinkFree) (hapart : ((front ++ rest).map (·.1)).Pairwise Apart) {path text : String}
    (hmem : (path, text) ∈ front ++ rest) (hwritten : path ∈ front.map (·.1)) : t.readText path = .ok text := by
  rcases List.mem_append.mp hmem with hfront | hrest
  · exact h.readText path text hfront
  · -- the path would be apart from itself, but it leads to a file
    obtain ⟨⟨path, other⟩, hfront, rfl⟩ := List.mem_map.mp hwritten
    obtain ⟨l, _, hl, -⟩ := readText_eq_ok_iff.mp (h.readText path other hfront)
    rw [List.map_append] at hapart
    have hself := (List.pairwise_append.mp hapart).2.2 path hwritten path (List.mem_map_of_mem hrest)
    exact absurd hl (hself t l ht hl)

/-! ## The directory for artifacts -/

/-- Makes the directory for artifacts, if one is set. -/
def prepare (settings : OutputSettings) (s : Store) : Option Error × Store :=
  match settings.dir with
  | none => (none, s)
  | some dir => ((s.makeDirs dir).1.map fun f => .io dir f.message, (s.makeDirs dir).2)

section Prepare

variable {settings : OutputSettings} {s t : Store} {u : String}

theorem process_of_compile {unit : SourceUnit} (h : compileFile s u = .ok unit) : process settings u s =
    match prepare settings s with
    | (some e, t) => ⟨[], some e, t⟩
    | (none, t) => writeAll (artifacts settings u unit) t := by
  simp only [process, h, prepare]
  cases settings.dir with
  | none => rfl
  | some dir =>
    dsimp only
    obtain ⟨failure, t⟩ := s.makeDirs dir
    cases failure <;> rfl

theorem process_of_ready {unit : SourceUnit} (h : compileFile s u = .ok unit) (hready : (prepare settings s).1 = none) :
    process settings u s = writeAll (artifacts settings u unit) (prepare settings s).2 := by
  rw [process_of_compile h, show prepare settings s = (none, (prepare settings s).2) from Prod.ext hready rfl]

theorem process_of_stuck {unit : SourceUnit} (h : compileFile s u = .ok unit) {e : Error}
    (hstuck : (prepare settings s).1 = some e) : process settings u s = ⟨[], some e, (prepare settings s).2⟩ := by
  rw [process_of_compile h, show prepare settings s = (some e, (prepare settings s).2) from Prod.ext hstuck rfl]

theorem prepare_of_none (h : settings.dir = none) (s : Store) : prepare settings s = (none, s) := by
  rw [prepare, h]

theorem prepare_of_some {dir : String} (h : settings.dir = some dir) (s : Store) :
    prepare settings s = ((s.makeDirs dir).1.map fun f => .io dir f.message, (s.makeDirs dir).2) := by
  rw [prepare, h]

theorem exists_of_stuck {e : Error} (h : (prepare settings s).1 = some e) :
    ∃ dir f, settings.dir = some dir ∧ s.makeDirs dir = (some f, (prepare settings s).2) := by
  cases hdir : settings.dir with
  | none =>
    rw [prepare_of_none hdir] at h
    cases h
  | some dir =>
    rw [prepare_of_some hdir] at h ⊢
    obtain ⟨f, hf, -⟩ := Option.map_eq_some_iff.mp h
    exact ⟨dir, f, rfl, Prod.ext hf rfl⟩

/-- Making the directory makes it and those above it that were missing, as far as it gets. -/
theorem alters_of_prepare (hs : s.LinkFree) (settings : OutputSettings) :
    s.Alters (prepare settings s).2 (fun _ => False) fun l =>
      ∃ dir, settings.dir = some dir ∧ (prepare settings s).2.AtOrAbove dir l := by
  unfold prepare
  split
  · exact .refl _ _ _
  · rename_i dir hdir
    exact (alters_of_makeDirs hs dir).imp (fun _ hf => hf) fun _ hl => ⟨dir, hdir, hl⟩

theorem linkFree_prepare (hs : s.LinkFree) (settings : OutputSettings) : (prepare settings s).2.LinkFree :=
  (alters_of_prepare hs settings).linkFree hs

theorem Wrote.alters_of_prepare {files : List (String × String)} (hw : Wrote (prepare settings s).2 files t)
    (hs : s.LinkFree) :
    s.Alters t (t.At (files.map (·.1))) fun l => ∃ dir, settings.dir = some dir ∧ t.AtOrAbove dir l := by
  refine .trans ((Batch.alters_of_prepare hs settings).imp (fun _ hf => hf.elim) ?_)
    (hw.alters.imp (fun _ hf => hf) fun _ hd => hd.elim)
  exact fun l ⟨dir, hdir, n, hn⟩ => ⟨dir, hdir, n, hw.alters.resolve (linkFree_prepare hs settings) hn⟩

end Prepare

/-! ## One unit -/

/-- How the delivery of files ends: what was written, what is answered and the store behind it.
    Each failure is that of the operation which it names. -/
inductive Ends (settings : OutputSettings) (files : List (String × String)) (s : Store) :
    List String → Except Error (List String) → Store → Prop
  /-- The directory is made, if one is set, and every file is written. -/
  | delivered {t u : Store} : prepare settings s = (none, t) → Writes t files u →
      Ends settings files s (files.map (·.1)) (.ok (files.map (·.1))) u
  /-- The directory cannot be made. -/
  | unprepared {dir : String} {f : Failure} {t : Store} : settings.dir = some dir → s.makeDirs dir = (some f, t) →
      Ends settings files s [] (.error (.io dir f.message)) t
  /-- A file cannot be written; those in front of it are. -/
  | stopped {t u : Store} {front rest : List (String × String)} {target text : String} {f : Failure} :
      prepare settings s = (none, t) → files = front ++ (target, text) :: rest → Writes t front u →
      u.writeText target text = .error f →
      Ends settings files s (front.map (·.1)) (.error (.io target f.message)) u

/-- What becomes of a store when files are written as the settings say. -/
structure Delivered (settings : OutputSettings) (files : List (String × String)) (s : Store) (e : Effect) : Prop where
  /-- Only the files written are different, and the directory for them and those above it are
      there if they were not. -/
  alters : s.Alters e.store (e.store.At e.written) fun l => ∃ dir, settings.dir = some dir ∧ e.store.AtOrAbove dir l
  /-- What was written is what is read. -/
  readText (path text : String) : (path, text) ∈ files → path ∈ e.written → e.store.readText path = .ok text
  ends : Ends settings files s e.written e.result e.store

variable {settings : OutputSettings} {files : List (String × String)} {s t u : Store} {e : Effect}

namespace Ends

variable {written : List String} {result : Except Error (List String)}

theorem written_subset (h : Ends settings files s written result t) : written ⊆ files.map (·.1) := by
  cases h with
  | delivered => exact List.Subset.refl _
  | unprepared => exact List.nil_subset _
  | stopped _ hfiles =>
    rw [hfiles, List.map_append]
    exact List.subset_append_left _ _

theorem written_of_ok (h : Ends settings files s written result t) {answer : List String} (hok : result = .ok answer) :
    written = files.map (·.1) := by
  cases h with
  | delivered => rfl
  | unprepared => cases hok
  | stopped => cases hok

/-- Behind the directory, the files up to some place have been written. -/
theorem exists_wrote (h : Ends settings files s written result t) (hs : s.LinkFree)
    (hapart : (files.map (·.1)).Pairwise Apart) :
    ∃ front rest, files = front ++ rest ∧ written = front.map (·.1) ∧ Wrote (prepare settings s).2 front t := by
  have hlinks := linkFree_prepare hs settings
  cases h with
  | delivered hready hwrites =>
    rw [hready] at hlinks ⊢
    exact ⟨files, [], (List.append_nil _).symm, rfl, hwrites.wrote hlinks hapart⟩
  | unprepared hdir hf =>
    rw [prepare_of_some hdir, hf]
    exact ⟨[], files, rfl, rfl, .nil t⟩
  | stopped hready hfiles hwrites =>
    rw [hready] at hlinks ⊢
    rw [hfiles, List.map_append] at hapart
    exact ⟨_, _, hfiles, rfl, hwrites.wrote hlinks (List.pairwise_append.mp hapart).1⟩

end Ends

theorem Effect.result_of_none (h : e.failure = none) : e.result = .ok e.written := by rw [result, h]

theorem ends_of_ready (h : prepare settings s = (none, t)) (files : List (String × String)) :
    Ends settings files s (writeAll files t).written (writeAll files t).result (writeAll files t).store := by
  rcases writeAll_cases files t with ⟨u, hwrites, hall⟩ | ⟨front, target, text, rest, f, u, hfiles, hwrites, hf, hall⟩
  · rw [hall]
    exact .delivered h hwrites
  · rw [hall]
    exact .stopped h hfiles hwrites hf

theorem process_ends (settings : OutputSettings) {source : String} {unit : SourceUnit}
    (h : compileFile s source = .ok unit) :
    Ends settings (artifacts settings source unit) s (process settings source s).written
      (process settings source s).result (process settings source s).store := by
  cases hready : (prepare settings s).1 with
  | none =>
    rw [process_of_ready h hready]
    exact ends_of_ready (Prod.ext hready rfl) _
  | some e =>
    obtain ⟨dir, f, hdir, hf⟩ := exists_of_stuck hready
    rw [process_of_stuck h hready]
    rw [prepare_of_some hdir, hf] at hready
    exact Option.some.inj hready ▸ .unprepared hdir hf

theorem delivered_of_compile (settings : OutputSettings) (hs : s.LinkFree) {source : String} {unit : SourceUnit}
    (h : compileFile s source = .ok unit) :
    Delivered settings (artifacts settings source unit) s (process settings source s) := by
  have hends := process_ends settings h
  have hapart := pairwise_apart_artifacts settings source unit
  obtain ⟨front, rest, hfiles, hwritten, hwrote⟩ := hends.exists_wrote hs hapart
  have halters := hwrote.alters_of_prepare hs
  rw [hfiles] at hapart
  refine ⟨hwritten ▸ halters, fun path text hmem hpath => ?_, hends⟩
  exact hwrote.readText_of_front (halters.linkFree hs) hapart (hfiles ▸ hmem) (hwritten ▸ hpath)

theorem Delivered.written_subset (h : Delivered settings files s e) : e.written ⊆ files.map (·.1) :=
  h.ends.written_subset

theorem eq_ok_of_toOption_eq_some {ε α : Type} {x : Except ε α} {a : α} (h : x.toOption = some a) : x = .ok a := by
  cases x with
  | error e => cases h
  | ok b => exact congrArg Except.ok (Option.some.inj h)

end Batch

end JackAnalyzer
