/-
  JackAnalyzer.Proofs.Batch.SourcesKept — what a batch leaves of its sources. The files that count
  in a directory are named as no artifact is, so all of them stay. A file that is named itself may
  have any name: where that ends as the artifacts do, its tree is written over it.
  - `Format.compile_renderTree`: no tree in either form is a source, so that file is lost.
  - `sources_kept_iff`: the sources are kept but for that.
-/

import JackAnalyzer.Proofs.Batch.Parts
import JackAnalyzer.Proofs.Grammar.CorrectPrefix
import JackAnalyzer.Proofs.Token.WholeText

namespace JackAnalyzer

namespace SourceUnit

open Token Grammar

/-- A symbol that opens no comment is the first token of a text that begins with it. -/
theorem exists_of_tokenize {source : String} {symbol : Symbol} {cs : List Char} {ts : List Token}
    (hsource : source.toList = symbol.char :: cs) (hslash : symbol.char ≠ '/') (h : tokenize source = .ok ts) :
    ∃ t rest, ts = t :: rest ∧ t.kind = .symbol symbol := by
  rw [tokenize_eq_report, hsource, code_symbol 1 0 (Symbol.ofChar?_char symbol) fun hc => absurd hc hslash] at h
  cases hrest : code 1 (0 + symbol.char.utf8Size) [] cs with
  | error fault =>
    rw [hrest] at h
    cases h
  | ok r =>
    rw [hrest] at h
    obtain ⟨us, opening⟩ := r
    cases opening with
    | none => exact ⟨_, us, (Except.ok.inj h).symm, rfl⟩
    | some o => cases h

theorem classDec_of_symbol {t : Token} {symbol : Symbol} (ht : t.kind = .symbol symbol) (rest : List Token)
    (tree : Tree) : Rule.classDec.parse (t :: rest) ≠ .ok tree := by
  intro h
  have htakes := classDec_takes_iff.mpr ⟨tree, h⟩
  generalize hts : t :: rest = ts at htakes
  cases htakes with
  | node hbody =>
    cases hbody with
    | both hfirst _ =>
      cases hfirst with
      | accept hmem =>
        obtain rfl := (List.cons.inj hts).1
        rw [Token.terminal, ht] at hmem
        cases List.mem_singleton.mp hmem

theorem compile_of_symbol {source : String} {symbol : Symbol} {cs : List Char}
    (hsource : source.toList = symbol.char :: cs) (hslash : symbol.char ≠ '/') (unit : SourceUnit) :
    compile source ≠ .ok unit := by
  intro h
  rw [compile] at h
  cases htokens : tokenize source with
  | error e =>
    rw [htokens] at h
    cases h
  | ok ts =>
    obtain ⟨t, rest, rfl, ht⟩ := exists_of_tokenize hsource hslash htokens
    simp only [htokens, bind, Except.bind, ofTokens] at h
    cases hparse : Rule.classDec.parse (t :: rest) with
    | error e =>
      rw [hparse] at h
      cases h
    | ok tree => exact classDec_of_symbol ht rest tree hparse

end SourceUnit

theorem Format.exists_renderTree (format : Format) (tree : Tree) :
    ∃ (symbol : Symbol) (cs : List Char), symbol.char ≠ '/' ∧ (format.renderTree tree).toList = symbol.char :: cs := by
  cases format with
  | xml =>
    refine ⟨.less, ?_⟩
    cases tree <;>
      simp [renderTree, Render.Xml.tree, Render.Xml.text, Render.Xml.lines, Render.Xml.indent, Render.Xml.tokenLine,
        Render.Xml.openTag, Symbol.char]
  | json =>
    refine ⟨.lbrace, ?_⟩
    cases tree <;>
      simp [renderTree, Render.Json.tree, Render.Json.document, Render.Json.ofTree, Render.Json.ofToken,
        Render.Json.pretty, Symbol.char]

/-- No tree in either form is a source. -/
theorem Format.compile_renderTree (format : Format) (tree : Tree) (unit : SourceUnit) :
    SourceUnit.compile (format.renderTree tree) ≠ .ok unit := by
  obtain ⟨symbol, cs, hslash, htext⟩ := format.exists_renderTree tree
  exact SourceUnit.compile_of_symbol htext hslash unit

namespace Path

/-! ## File names -/

theorem stem_of_fileName {path : String} {name : List Char} (h : fileName? path = some name) :
    stem path = String.ofList (splitExtension name).1 := by
  rw [stem, h]
  rfl

theorem splitExtension_of_none {name : List Char} (h : (splitExtension name).2 = none) :
    (splitExtension name).1 = name := by
  unfold splitExtension at h ⊢
  dsimp only at h ⊢
  split at h
  · rename_i hcut
    rw [if_pos hcut]
  · cases h

end Path

namespace Batch

open Store

/-- An artifact that has the name of its source is the tree, and the source has the extension of
    the form. -/
theorem eq_stem_of_fileName {settings : OutputSettings} {source stem : String}
    (hstem : stem ∈ artifactStems settings source)
    (h : Path.fileName? source = some (stem ++ "." ++ settings.format.extension).toList) :
    stem = Path.stem source ∧ Path.extension? source = some settings.format.extension := by
  have hsource := congrArg String.toList (Path.stem_of_fileName h)
  have htext : (stem ++ "." ++ settings.format.extension).toList =
      stem.toList ++ '.' :: settings.format.extension.toList := by simp
  rw [htext] at h hsource
  rw [Path.extension?, h, Option.bind_some]
  generalize hname : stem.toList ++ '.' :: settings.format.extension.toList = name at hsource ⊢
  rw [String.toList_ofList] at hsource
  cases hafter : (Path.splitExtension name).2 with
  | none =>
    -- a name without an extension is its own stem, and shorter than those of its artifacts
    rw [Path.splitExtension_of_none hafter] at hsource
    have hlength := congrArg List.length hname
    rw [← hsource, List.length_append, List.length_cons] at hlength
    rcases mem_artifactStems.mp hstem with rfl | ⟨-, rfl⟩
    · omega
    · rw [String.toList_append, List.length_append] at hlength
      omega
  | some after =>
    have hcut := Path.eq_of_splitExtension hafter
    rw [← hsource, ← hname] at hcut
    rcases mem_artifactStems.mp hstem with rfl | ⟨-, rfl⟩
    · obtain rfl := (List.cons.inj (List.append_cancel_left hcut)).2
      exact ⟨rfl, by rw [Option.map_some, String.ofList_toList]⟩
    · rw [String.toList_append, List.append_assoc] at hcut
      exact absurd (List.cons.inj (List.append_cancel_left hcut)).1 (by decide)

/-! ## The files of a directory -/

section Directory

variable {settings : OutputSettings} {s : Store} {path : String} {us order : List String}

/-- What counts in a directory is at its path as before, or still not taken by the system. -/
theorem at?_of_isListed (hs : s.LinkFree) (hw : s.WellNamed) (hus : units s path = .ok us) {u : String} (hu : u ∈ us)
    (hlisted : IsListed s path u) : (storeAfter s (turns (.write settings) order s)).at? u = s.at? u := by
  have halters := alters_of_turns settings hs order
  have ht := halters.linkFree hs
  unfold at?
  cases hbefore : s.resolve .present u with
  | ok l =>
    have hafter := halters.resolve hs hbefore
    obtain ⟨-, content, hfile⟩ := resolve_unit hw hus hu hs ht halters.keeps hafter
    rw [hafter]
    refine halters.get?_eq (not_at_of_apart ht (fun p hp => ?_) hafter) (by rw [hfile]; rfl)
    obtain ⟨v, -, hp⟩ := List.mem_flatMap.mp hp
    exact apart_of_isListed hlisted hp
  | error f =>
    cases hafter : (storeAfter s (turns (.write settings) order s)).resolve .present u with
    | error f' => rfl
    | ok l =>
      obtain ⟨hl, -⟩ := resolve_unit hw hus hu hs ht halters.keeps hafter
      rw [hbefore] at hl
      cases hl

end Directory

/-! ## A file that is named itself -/

def treePath (settings : OutputSettings) (source : String) : String :=
  (Artifacts.ofSource source settings.dir settings.format).tree

/-- The tree of a file is written over it: the file has the extension of the form, holds a class,
    and its tree goes where it is, once the directory for artifacts is made. -/
structure Overwritten (settings : OutputSettings) (path : String) (s : Store) : Prop where
  isFile : s.isFile path = true
  extension : Path.extension? path = some settings.format.extension
  sound : ∃ unit, compileFile s path = .ok unit
  place : ∃ l, s.resolve .present path = .ok l ∧
    (prepare settings s).2.resolve .present (treePath settings path) = .ok l

section File

variable {settings : OutputSettings} {s : Store} {path : String} (hs : s.LinkFree) (hg : s.Grounded)

include hs

/-- In a directory that could not be made nothing is. -/
theorem prepare_of_resolve {name : String} (hn : Path.IsPlain name) {l : Location} {u : String}
    (h : (prepare settings s).2.resolve .present (Path.join (artifactDir settings u) name) = .ok l) :
    (prepare settings s).1 = none := by
  have hlinks := linkFree_prepare hs settings
  obtain ⟨above, hleads, hdir, -, -⟩ := exists_above_of_resolve_join hn hlinks h
  obtain ⟨hadmitted, -⟩ := (resolve_eq_ok_iff hlinks).mp h
  cases hready : (prepare settings s).1 with
  | none => rfl
  | some e =>
    obtain ⟨dir, f, hset, hmade⟩ := exists_of_stuck hready
    obtain ⟨hne, hnot⟩ := not_isDirectory_of_makeDirs hs hmade
    rw [artifactDir, hset, Option.getD_some] at hadmitted hleads
    refine absurd ((isDirectory_iff hlinks).mpr ⟨admitted_of_join hne hadmitted, above, ?_, hdir⟩) hnot
    exact (walk_eq_ok_iff hlinks).mpr hleads

/-- Where the tree goes to the source, that is read as the tree afterwards. -/
theorem readText_of_place {l : Location} {unit : SourceUnit} (hfile : s.get? l ≠ some .directory)
    (hthere : (s.get? l).isSome) (hunit : compileFile s path = .ok unit)
    (hplace : (prepare settings s).2.resolve .present (treePath settings path) = .ok l) :
    (process settings path s).store.resolve .present (treePath settings path) = .ok l ∧
      (process settings path s).store.readText (treePath settings path) =
        .ok (settings.format.renderTree unit.tree) := by
  have hbase := linkFree_prepare hs settings
  have hplain := isPlain_artifact (Path.slash_notMem_stem path) settings.format
  have hsame : (prepare settings s).2.get? l = s.get? l := (alters_of_prepare hs settings).get?_eq (fun hf => hf) hthere
  have hwrite : (prepare settings s).2.writeText (treePath settings path)
      (settings.format.renderTree unit.tree) = .ok _ :=
    writeText_of_resolve hbase hplain hplace (hsame ▸ hfile) _
  obtain ⟨front, rest, -, -, hwrote⟩ :=
    (process_ends settings hunit).exists_wrote hs (pairwise_apart_artifacts settings path unit)
  have htree : treePath settings path ∈ (process settings path s).written := by
    rw [process_of_ready hunit (prepare_of_resolve hs hplain hplace)]
    have hfirst : artifacts settings path unit =
        (treePath settings path, settings.format.renderTree unit.tree) :: (artifacts settings path unit).tail := rfl
    rw [hfirst, writeAll, hwrite]
    exact List.mem_cons_self
  refine ⟨hwrote.alters.resolve hbase hplace, ?_⟩
  exact (delivered_of_compile settings hs hunit).readText _ _ List.mem_cons_self htree

theorem at?_ne_of_overwritten (h : Overwritten settings path s) :
    (process settings path s).store.at? path ≠ s.at? path := by
  obtain ⟨hisFile, -, ⟨unit, hunit⟩, l, hl, hplace⟩ := h
  obtain ⟨l', content, hl', hfile⟩ := exists_of_isFile hisFile
  obtain rfl := Except.ok.inj (hl.symm.trans hl')
  obtain ⟨htree, hread⟩ := readText_of_place hs (by simp [hfile]) (by simp [hfile]) hunit hplace
  have hafter := (alters_of_process settings hs path).resolve hs hl
  intro hsame
  simp only [at?, hl, hafter] at hsame
  -- the text of the source would be that of a tree
  obtain ⟨text, hsource, hcompile⟩ := exists_of_compileFile hunit
  simp only [readText, htree, bind, Except.bind, hsame] at hread
  simp only [readText, hl, bind, Except.bind] at hsource
  obtain rfl := Except.ok.inj (hsource.symm.trans hread)
  exact settings.format.compile_renderTree unit.tree unit hcompile

include hg

/-- What an artifact is written over was at its path when the directory was made. -/
theorem resolve_prepared {name : String} {l : Location} {unit : SourceUnit} (hunit : compileFile s path = .ok unit)
    (hn : Path.IsPlain name) (hthere : (s.get? l).isSome)
    (hwritten : Path.join (artifactDir settings path) name ∈ (process settings path s).written)
    (h : (process settings path s).store.resolve .present (Path.join (artifactDir settings path) name) = .ok l) :
    (prepare settings s).2.resolve .present (Path.join (artifactDir settings path) name) = .ok l := by
  have hbase := linkFree_prepare hs settings
  cases hready : (prepare settings s).1 with
  | some e =>
    rw [process_of_stuck hunit hready] at hwritten
    cases hwritten
  | none =>
    obtain ⟨front, rest, -, -, hwrote⟩ :=
      (process_ends settings hunit).exists_wrote hs (pairwise_apart_artifacts settings path unit)
    obtain ⟨above, hleads, hdir⟩ := exists_leads_artifactDir hs hg hready hunit
    have hlater := hwrote.alters.linkFree hbase
    obtain ⟨above', hleads', -, -, rfl⟩ := exists_above_of_resolve_join hn hlater h
    obtain rfl := hleads'.unique hlater (hwrote.alters.here ▸ hleads.keeps hwrote.alters.keeps)
    have hbefore : ((prepare settings s).2.get? (above' ++ [name])).isSome :=
      (alters_of_prepare hs settings).keeps.isSome _ hthere
    rw [← h, resolve_join_eq hbase hlater hn hwrote.alters.here hleads hdir hwrote.alters.keeps.directory]
    have hafter := hwrote.alters.keeps.isSome _ hbefore
    rw [Option.isSome_iff_ne_none] at hbefore hafter
    exact iff_of_false hafter hbefore

theorem overwritten_of_ne (hisFile : s.isFile path = true) (h : (process settings path s).store.at? path ≠ s.at? path) :
    Overwritten settings path s := by
  obtain ⟨l, content, hl, hfile⟩ := exists_of_isFile hisFile
  have hthere : (s.get? l).isSome := by rw [hfile]; rfl
  cases hunit : compileFile s path with
  | error e =>
    rw [process_store_of_compile_error hunit] at h
    exact absurd rfl h
  | ok unit =>
    have hdelivered := delivered_of_compile settings hs hunit
    have hlinks := hdelivered.alters.linkFree hs
    have hchanged : (process settings path s).store.get? l ≠ s.get? l := by
      simpa only [at?, hl, hdelivered.alters.resolve hs hl] using h
    -- what has changed is one of the artifacts
    obtain ⟨p, hp, hpl⟩ : (process settings path s).store.At (process settings path s).written l :=
      Classical.byContradiction fun hnot => hchanged (hdelivered.alters.get?_eq hnot hthere)
    have hpath := hdelivered.written_subset hp
    rw [map_fst_artifacts, artifactPaths] at hpath
    obtain ⟨stem, hstem, rfl⟩ := List.mem_map.mp hpath
    have hplain := isPlain_artifact (slash_notMem_of_mem_artifactStems hstem) settings.format
    obtain ⟨above, hleads, hdir, hlength, rfl⟩ := exists_above_of_resolve_join hplain hlinks hpl
    obtain ⟨above', name, hname, hfileName⟩ := exists_fileName_of_resolve hs hg hl (by simp [hfile])
    obtain rfl := List.singleton_inj.mp (List.append_inj' hname rfl).2
    obtain ⟨rfl, hextension⟩ := eq_stem_of_fileName hstem hfileName
    exact ⟨hisFile, hextension, ⟨unit, hunit⟩, _, hl, resolve_prepared hs hg hunit hplain hthere hp hpl⟩

end File

/-- The sources of a path are at their paths as before, but for a file that is named itself and
    that its own tree is written over. -/
theorem sources_kept_iff (settings : OutputSettings) (path : String) {s : Store} (hs : s.LinkFree) (hw : s.WellNamed)
    (hg : s.Grounded) {us order : List String} (hus : units s path = .ok us) (horder : order.Perm us) :
    (∀ u ∈ us, (storeAfter s (turns (.write settings) order s)).at? u = s.at? u) ↔ ¬ Overwritten settings path s := by
  rcases units_cases hw hus with ⟨rfl, hisFile⟩ | ⟨hne, hnodup, hlisted⟩
  · obtain rfl := List.perm_singleton.mp horder
    have hafter : storeAfter s (turns (.write settings) [path] s) = (process settings path s).store := rfl
    rw [hafter]
    constructor
    · exact fun hkept hover => at?_ne_of_overwritten hs hover (hkept path List.mem_cons_self)
    · intro hnot u hu
      obtain rfl := List.mem_singleton.mp hu
      exact Classical.byContradiction fun hchanged => hnot (overwritten_of_ne hs hg hisFile hchanged)
  · refine iff_of_true (fun u hu => at?_of_isListed hs hw hus hu (hlisted u hu)) fun hover => ?_
    -- a file is its only unit, and is listed in no directory
    obtain rfl := Except.ok.inj (hus.symm.trans (units_of_isFile hover.isFile))
    obtain ⟨-, l, -, hl, hdir, -⟩ := hlisted path List.mem_cons_self
    obtain ⟨l', content, hl', hfile⟩ := exists_of_isFile hover.isFile
    obtain rfl := Except.ok.inj (hl.symm.trans hl')
    rw [hdir] at hfile
    cases hfile

/-- A directory keeps its sources, whichever has the first turn. -/
theorem sources_kept_of_A_and_B : units (classes ["B", "A"]) "." = .ok ["./A.jack", "./B.jack"] ∧
    ∀ u ∈ ["./A.jack", "./B.jack"], (storeAfter (classes ["B", "A"]) (turns (.write ⟨.xml, none, true⟩)
      ["./B.jack", "./A.jack"] (classes ["B", "A"]))).at? u = (classes ["B", "A"]).at? u := by
  have hunits : units (classes ["B", "A"]) "." = .ok ["./A.jack", "./B.jack"] :=
    (units_of_sorted (l := []) (by decide +kernel) rfl (by decide +kernel)).trans
      (congrArg Except.ok (by decide +kernel))
  refine ⟨hunits, (sources_kept_iff ⟨.xml, none, true⟩ "." (linkFree_ofTexts _) (by decide +kernel) (by decide +kernel)
    hunits (.swap _ _ [])).mpr fun hover => ?_⟩
  exact absurd hover.isFile (by decide +kernel)

/-- A class in a file with the extension of the form is lost: its tree is written over it. -/
theorem source_lost_of_A_xml : (ofTexts [("A.xml", "class A \x7b\x7d")]).LinkFree ∧
    (ofTexts [("A.xml", "class A \x7b\x7d")]).WellNamed ∧ (ofTexts [("A.xml", "class A \x7b\x7d")]).Grounded ∧
    units (ofTexts [("A.xml", "class A \x7b\x7d")]) "A.xml" = .ok ["A.xml"] ∧
    (Report.ofTurns (turns (.write default) ["A.xml"] (ofTexts [("A.xml", "class A \x7b\x7d")]))).isSuccess = true ∧
    (storeAfter (ofTexts [("A.xml", "class A \x7b\x7d")]) (turns (.write default) ["A.xml"]
      (ofTexts [("A.xml", "class A \x7b\x7d")]))).at? "A.xml" ≠ (ofTexts [("A.xml", "class A \x7b\x7d")]).at? "A.xml" :=
  ⟨linkFree_ofTexts _, by decide +kernel, by decide +kernel, units_of_isFile (by decide +kernel), by decide +kernel,
    by decide +kernel⟩

end Batch

end JackAnalyzer
