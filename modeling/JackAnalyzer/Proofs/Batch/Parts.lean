/-
  JackAnalyzer.Proofs.Batch.Parts — one unit's turn among the turns of others. Where the others
  have made the directory for artifacts, as far as it can be made, and have written files that are
  no sources, the unit does what it would do as the first: it reads the same source, finds or
  misses the same directory, and writes the same files up to the same failure. What it does is
  told by its part: whether it gets as far as the directory, and the files that it writes.
  - `prepare_stage`: the directory is made once, and where it cannot be made it never can.
  - `exists_part`: the part of a unit of a directory.
-/

import JackAnalyzer.Proofs.Batch.Collision
import JackAnalyzer.Proofs.Store.Writes

namespace JackAnalyzer

namespace Batch

open Store

/-! ## The directory for artifacts -/

def artifactDir (settings : OutputSettings) (source : String) : String := settings.dir.getD (Path.parent source)

def artifactNames (settings : OutputSettings) (source : String) : List String :=
  (artifactStems settings source).map (· ++ "." ++ settings.format.extension)

theorem artifactPaths_eq (settings : OutputSettings) (source : String) :
    artifactPaths settings source = (artifactNames settings source).map (Path.join (artifactDir settings source)) := by
  rw [artifactNames, List.map_map]
  rfl

theorem isPlain_of_mem_artifactNames {settings : OutputSettings} {source name : String}
    (h : name ∈ artifactNames settings source) : Path.IsPlain name := by
  obtain ⟨stem, hstem, rfl⟩ := List.mem_map.mp h
  exact isPlain_artifact (slash_notMem_of_mem_artifactStems hstem) _

section Prepare

variable {settings : OutputSettings} {s t : Store} {u : String}

variable (hs : s.LinkFree)

include hs

theorem isDirectory_of_ready (h : (prepare settings s).1 = none) {dir : String} (hdir : settings.dir = some dir) :
    dir = "" ∨ (prepare settings s).2.isDirectory dir = true := by
  rw [prepare_of_some hdir] at h ⊢
  exact isDirectory_of_makeDirs hs (Prod.ext (Option.map_eq_none_iff.mp h) rfl)

theorem prepare_of_ready (h : (prepare settings s).1 = none) {places : Location → Prop}
    (ht : (prepare settings s).2.Alters t places fun _ => False) : prepare settings t = (none, t) := by
  have hlinks := linkFree_prepare hs settings
  have hlater := ht.linkFree hlinks
  cases hdir : settings.dir with
  | none => exact prepare_of_none hdir t
  | some dir =>
    have hthere := (isDirectory_of_ready hs h hdir).imp_right (ht.keeps.isDirectory hlinks hlater)
    rw [prepare_of_some hdir, makeDirs_of_isDirectory hlater hthere]
    rfl

/-- Where the directory cannot be made, it cannot be made behind those above it either. -/
theorem prepare_of_stuck (hg : s.Grounded) (hdots : ∀ dir, settings.dir = some dir → ".." ∉ names dir) {e : Error}
    (h : (prepare settings s).1 = some e) : prepare settings (prepare settings s).2 = prepare settings s := by
  obtain ⟨dir, f, hdir, hmade⟩ := exists_of_stuck h
  have hagain := makeDirs_again hs hg (hdots dir hdir) hmade
  rw [prepare_of_some hdir (prepare settings s).2, hagain, ← hmade, ← prepare_of_some hdir]

theorem exists_leads_artifactDir (hg : s.Grounded) (h : (prepare settings s).1 = none) {unit : SourceUnit}
    (hunit : compileFile s u = .ok unit) : ∃ above,
      (prepare settings s).2.Leads (startOf (artifactDir settings u) (prepare settings s).2.here)
        (names (artifactDir settings u)) above ∧ (prepare settings s).2.get? above = some .directory := by
  have hmade := alters_of_prepare hs settings
  have hlinks := hmade.linkFree hs
  unfold artifactDir
  cases hdir : settings.dir with
  | none =>
    obtain ⟨text, hread, -⟩ := exists_of_compileFile hunit
    obtain ⟨l, -, hl, -⟩ := readText_eq_ok_iff.mp hread
    rw [prepare_of_none hdir]
    exact exists_leads_parent hs hg hl
  | some dir =>
    rcases isDirectory_of_ready hs h hdir with rfl | hthere
    · refine ⟨_, .done _, ?_⟩
      rw [hmade.here]
      exact hmade.keeps.directory _ (hg.get?_startOf "")
    · obtain ⟨-, above, habove, hisdir⟩ := (isDirectory_iff hlinks).mp hthere
      exact ⟨above, (walk_eq_ok_iff hlinks).mp habove, hisdir⟩

end Prepare

/-! ## Writing in the directory -/

/-- Files of one directory are written alike in all stores that have the same directories: up to
    the same failure, and in the same places. -/
theorem writeAll_join {base : Store} (hbase : base.LinkFree) {dir : String} {above : Location}
    (hleads : base.Leads (startOf dir base.here) (names dir) above) (hdir : base.get? above = some .directory)
    {files : List (String × String)} {ns : List String} (hfiles : files.map (·.1) = ns.map (Path.join dir))
    (hplain : ∀ name ∈ ns, Path.IsPlain name) : ∃ written failure placed,
      (placed.map Prod.fst).Sublist (ns.map fun name => above ++ [name]) ∧
      (∀ f ∈ placed, base.get? f.1 ≠ some .directory) ∧
      ∀ t places, base.Alters t places (fun _ => False) → writeAll files t = ⟨written, failure, t.putFiles placed⟩ := by
  induction files generalizing ns with
  | nil => exact ⟨[], none, [], List.nil_sublist _, fun _ hf => (nomatch hf), fun _ _ _ => rfl⟩
  | cons file files ih =>
    obtain ⟨path, text⟩ := file
    obtain ⟨name, ns, rfl⟩ := List.exists_cons_of_ne_nil (l := ns) (by
      rintro rfl
      cases hfiles)
    obtain ⟨rfl, hrest⟩ := List.cons.inj hfiles
    rcases writeText_join hbase (hplain name List.mem_cons_self) hleads hdir text with ⟨f, hf⟩ | ⟨hfree, hput⟩
    · refine ⟨[], some (.io (Path.join dir name) f.message), [], List.nil_sublist _, fun _ hf => (nomatch hf), ?_⟩
      intro t places ht
      rw [writeAll, hf t places ht]
      rfl
    · obtain ⟨written, failure, placed, hplaces, hfrees, hall⟩ :=
        ih hrest fun n hn => hplain n (List.mem_cons_of_mem _ hn)
      refine ⟨Path.join dir name :: written, failure, (above ++ [name], text.toUTF8) :: placed,
        hplaces.cons_cons _, List.forall_mem_cons.mpr ⟨hfree, hfrees⟩, fun t places ht => ?_⟩
      have hone := alters_put_file (fun hthere => hfree (ht.directory_iff.mp hthere)) text.toUTF8
      have hnext : base.Alters (t.put (above ++ [name]) (.file text.toUTF8)) (fun _ => True) fun _ => False :=
        .trans (ht.imp (fun _ _ => trivial) fun _ hd => hd) (hone.imp (fun _ _ => trivial) fun _ hd => hd)
      rw [writeAll, hput t places ht]
      dsimp only
      rw [hall _ _ hnext]
      rfl

/-! ## Stages of a batch -/

/-- What a batch may have written: whether it has got as far as the directory, and files. -/
structure Fits (settings : OutputSettings) (s : Store) (made : Bool) (files : List (Location × ByteArray)) : Prop where
  /-- Files are written when the directory is there. -/
  ready : files ≠ [] → made = true ∧ (prepare settings s).1 = none
  free : ∀ f ∈ files, (prepare settings s).2.get? f.1 ≠ some .directory
  /-- They are named as artifacts are. -/
  named : ∀ f ∈ files, ∃ above stem, f.1 = above ++ [stem ++ "." ++ settings.format.extension]

/-- The store behind it. -/
def stage (settings : OutputSettings) (s : Store) (made : Bool) (files : List (Location × ByteArray)) : Store :=
  (if made then (prepare settings s).2 else s).putFiles files

section Stage

variable {settings : OutputSettings} {s : Store} {made made' : Bool} {files files' : List (Location × ByteArray)}

theorem fits_nil (settings : OutputSettings) (s : Store) (made : Bool) : Fits settings s made [] :=
  ⟨fun h => absurd rfl h, fun _ h => (nomatch h), fun _ h => nomatch h⟩

theorem Fits.append (h : Fits settings s made files) (h' : Fits settings s made' files') :
    Fits settings s (made || made') (files ++ files') where
  ready hne := by
    by_cases hfiles : files = []
    · obtain ⟨rfl, hready⟩ := h'.ready (by simpa [hfiles] using hne)
      exact ⟨Bool.or_true _, hready⟩
    · obtain ⟨rfl, hready⟩ := h.ready hfiles
      exact ⟨rfl, hready⟩
  free f hf := (List.mem_append.mp hf).elim (h.free f) (h'.free f)
  named f hf := (List.mem_append.mp hf).elim (h.named f) (h'.named f)

theorem Fits.files_eq_nil (h : Fits settings s false files) : files = [] :=
  Classical.byContradiction fun hne => Bool.false_ne_true (h.ready hne).1

theorem Fits.files_eq_nil_of_stuck (h : Fits settings s made files) {e : Error} (he : (prepare settings s).1 = some e) :
    files = [] :=
  Classical.byContradiction fun hne => by
    rw [(h.ready hne).2] at he
    cases he

theorem stage_start (settings : OutputSettings) (s : Store) : stage settings s false [] = s := rfl

theorem Fits.alters_prepared (h : Fits settings s true files) :
    (prepare settings s).2.Alters (stage settings s true files) (· ∈ files.map Prod.fst) fun _ => False :=
  alters_putFiles h.free

variable (hs : s.LinkFree)

include hs

theorem Fits.alters (h : Fits settings s made files) :
    s.Alters (stage settings s made files) (· ∈ files.map Prod.fst) fun _ => True := by
  cases made with
  | false =>
    obtain rfl := h.files_eq_nil
    exact .refl _ _ _
  | true =>
    exact .trans ((alters_of_prepare hs settings).imp (fun _ hf => hf.elim) fun _ _ => trivial)
      (h.alters_prepared.imp (fun _ hf => hf) fun _ hd => hd.elim)

theorem prepare_stage (hg : s.Grounded) (hdots : ∀ dir, settings.dir = some dir → ".." ∉ names dir)
    (h : Fits settings s made files) :
    prepare settings (stage settings s made files) = ((prepare settings s).1, stage settings s true files) := by
  cases made with
  | false =>
    obtain rfl := h.files_eq_nil
    rfl
  | true =>
    cases hfailure : (prepare settings s).1 with
    | none => exact prepare_of_ready hs hfailure h.alters_prepared
    | some e =>
      obtain rfl := h.files_eq_nil_of_stuck hfailure
      exact (prepare_of_stuck hs hg hdots hfailure).trans (Prod.ext hfailure rfl)

/-- A unit of a directory is read as it was. -/
theorem compileFile_stage {path u : String} (hlisted : IsListed s path u) (h : Fits settings s made files) :
    compileFile (stage settings s made files) u = compileFile s u := by
  obtain ⟨hjoin, l, content, hl, hdir, hfile⟩ := hlisted
  have halters := h.alters hs
  have hnot : l ++ [sourceName (Path.stem u)] ∉ files.map Prod.fst := by
    intro hmem
    obtain ⟨f, hf, heq⟩ := List.mem_map.mp hmem
    obtain ⟨above, stem, hname⟩ := h.named f hf
    rw [hname] at heq
    obtain ⟨-, hlast⟩ := List.append_inj' heq (by simp)
    exact sourceName_ne_artifact (List.singleton_inj.mp hlast).symm
  have hread : (stage settings s made files).readText u = s.readText u := by
    rw [hjoin]
    exact readText_join_eq hs (halters.linkFree hs) (isPlain_sourceName (Path.slash_notMem_stem u)) halters.here
      (leads_of_resolve hs hl) hdir halters.keeps.directory (halters.get?_eq hnot (by rw [hfile]; rfl))
  rw [compileFile, compileFile, readSource, readSource, hread]

end Stage

/-! ## Parts -/

/-- One unit's part in a batch: whether it gets as far as the directory, the files that it writes,
    and what is told of it. -/
structure Part where
  made : Bool
  files : List (Location × ByteArray)
  written : List String
  failure : Option Error
  deriving Inhabited

/-- The part that a unit takes at every stage. -/
structure IsPart (settings : OutputSettings) (s : Store) (u : String) (p : Part) : Prop where
  fits : Fits settings s p.made p.files
  /-- The files are among its artifacts. -/
  names : (p.files.map fun f => f.1.getLast?).Sublist ((artifactNames settings u).map some)
  turn (made : Bool) (files : List (Location × ByteArray)) : Fits settings s made files →
    process settings u (stage settings s made files) =
      ⟨p.written, p.failure, stage settings s (made || p.made) (files ++ p.files)⟩

section Part

variable {settings : OutputSettings} {s : Store} {path u : String} (hs : s.LinkFree) (hg : s.Grounded)
variable (hdots : ∀ dir, settings.dir = some dir → ".." ∉ names dir) (hlisted : IsListed s path u)

include hs hg hdots hlisted

theorem exists_part_of_ready {unit : SourceUnit} (hunit : compileFile s u = .ok unit)
    (hready : (prepare settings s).1 = none) : ∃ p, IsPart settings s u p := by
  obtain ⟨above, hleads, hdir⟩ := exists_leads_artifactDir hs hg hready hunit
  obtain ⟨written, failure, placed, hplaces, hfree, hall⟩ := writeAll_join (linkFree_prepare hs settings) hleads hdir
    ((map_fst_artifacts settings u unit).trans (artifactPaths_eq settings u))
    fun _ hn => isPlain_of_mem_artifactNames hn
  have hnames : (placed.map fun f => f.1.getLast?).Sublist ((artifactNames settings u).map some) := by
    have := hplaces.map List.getLast?
    simpa [List.map_map, Function.comp_def] using this
  have hfits : Fits settings s true placed := by
    refine ⟨fun _ => ⟨rfl, hready⟩, hfree, fun f hf => ?_⟩
    obtain ⟨name, hname, heq⟩ := List.mem_map.mp (hplaces.subset (List.mem_map_of_mem hf))
    obtain ⟨stem, -, rfl⟩ := List.mem_map.mp hname
    exact ⟨above, stem, heq.symm⟩
  refine ⟨⟨true, placed, written, failure⟩, hfits, hnames, fun made files hstage => ?_⟩
  have htrue : Fits settings s true files := by simpa using hstage.append (fits_nil settings s true)
  rw [process_of_compile ((compileFile_stage hs hlisted hstage).trans hunit), prepare_stage hs hg hdots hstage, hready]
  dsimp only
  rw [hall _ _ htrue.alters_prepared, Bool.or_true, stage, stage, if_pos rfl, putFiles_append]

theorem exists_part : ∃ p, IsPart settings s u p := by
  cases hunit : compileFile s u with
  | error e =>
    refine ⟨⟨false, [], [], some e⟩, fits_nil _ _ _, List.nil_sublist _, fun made files hstage => ?_⟩
    rw [process_store_of_compile_error ((compileFile_stage hs hlisted hstage).trans hunit), Bool.or_false,
      List.append_nil]
  | ok unit =>
    cases hready : (prepare settings s).1 with
    | none => exact exists_part_of_ready hs hg hdots hlisted hunit hready
    | some e =>
      refine ⟨⟨true, [], [], some e⟩, fits_nil _ _ _, List.nil_sublist _, fun made files hstage => ?_⟩
      rw [process_of_compile ((compileFile_stage hs hlisted hstage).trans hunit), prepare_stage hs hg hdots hstage,
        hready, Bool.or_true, List.append_nil]

end Part

end Batch

end JackAnalyzer
