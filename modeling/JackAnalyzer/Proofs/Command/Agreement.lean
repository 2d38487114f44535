/-
  JackAnalyzer.Proofs.Command.Agreement — the four subcommands on one file. A check comes to the
  same as showing the tree, and where there is a tree there are tokens. What an analysis writes is
  what the other subcommands show. Only an analysis changes the store.
  - `exit_check_iff`, `exit_tree_iff`, `exit_tokens_iff`, `process_of_exit_analyze`: what it means
    that each succeeds.
  - `store_runIn`: what changes no store.
  - `commands_agree`: the four of them together.
-/

import JackAnalyzer.Command.Run
import JackAnalyzer.Proofs.Batch.Collision
import JackAnalyzer.Proofs.RoundTrip

namespace JackAnalyzer

namespace Batch

open Store

variable {s : Store} {path : String}

/-! ## One file -/

theorem tokenizeFile_eq_ok_iff {ts : List Token} : tokenizeFile s path = .ok ts ↔
    ∃ text, s.readText path = .ok text ∧ SourceUnit.tokenize text = .ok ts := by
  unfold tokenizeFile readSource
  cases s.readText path <;> simp [bind, Except.bind]

theorem tokenizeFile_of_compileFile {unit : SourceUnit} (h : compileFile s path = .ok unit) :
    tokenizeFile s path = .ok unit.tokens := by
  obtain ⟨text, hread, hcompile⟩ := exists_of_compileFile h
  exact tokenizeFile_eq_ok_iff.mpr ⟨text, hread, (SourceUnit.compile_eq_ok_iff.mp hcompile).1⟩

theorem isFile_of_compileFile {unit : SourceUnit} (h : compileFile s path = .ok unit) : s.isFile path = true := by
  obtain ⟨text, hread, -⟩ := exists_of_compileFile h
  rw [isFile, readText_eq_ok_iff_at?.mp hread]

theorem isFile_of_units {us : List String} (h : units s path = .ok us) (hdir : s.isDirectory path = false) :
    s.isFile path = true ∧ us = [path] := by
  unfold units at h
  split at h
  · cases h
  · split at h
    · rename_i hfile
      exact ⟨hfile, (Except.ok.inj h).symm⟩
    · split at h
      · rename_i listing hlist
        obtain ⟨l, hl, hthere, -⟩ := list_eq_ok hlist
        simp [isDirectory, at?, hl, hthere] at hdir
      · cases h

/-! ## Checks -/

theorem failure_check_iff : (Action.check.run path s).failure = none ↔ ∃ unit, compileFile s path = .ok unit := by
  simp only [Action.run]
  cases compileFile s path <;> simp

theorem store_check (s : Store) (path : String) : (Action.check.run path s).store = s := by
  simp only [Action.run]
  cases compileFile s path <;> rfl

theorem storeAfter_turns_check (us : List String) (s : Store) : storeAfter s (turns .check us s) = s := by
  induction us with
  | nil => rfl
  | cons u us ih =>
    rw [turns, storeAfter_cons]
    dsimp only
    rw [store_check, ih]

end Batch

namespace Command

open Batch Store

variable {schedule : Schedule} {s : Store} {path : String} {args : List String}

/-! ## Runs -/

theorem exit_reply_iff {i : Invocation} {e : Ending} : (e.reply i).exit = 0 ↔ ∃ out, e.result = .ok out := by
  unfold Ending.reply
  cases e.result <;> simp

theorem stdout_reply {i : Invocation} {e : Ending} {out : String} (h : e.result = .ok out) :
    (e.reply i).stdout = out := by
  rw [Ending.reply, h]

theorem store_reply {i : Invocation} {e : Ending} : (e.reply i).store = e.store := by
  unfold Ending.reply
  cases e.result <;> rfl

section Batches

variable {quiet : Bool} {success : String} {action : Action}

theorem result_runBatch_iff : (∃ out, (runBatch schedule quiet success action path s).result = .ok out) ↔
    ∃ us, units s path = .ok us ∧ us ≠ [] ∧
      ∀ turn ∈ turns action (schedule.order us) s, turn.effect.failure = none := by
  unfold runBatch
  cases hus : units s path with
  | error e => simp
  | ok us =>
    cases us with
    | nil => simp
    | cons u us =>
      simp only [← isSuccess_inOrder_iff (schedule.perm _)]
      cases hsuccess : (Report.inOrder (u :: us) (turns action (schedule.order (u :: us)) s)).isSuccess <;>
        simp [hsuccess]

theorem store_runBatch {us : List String} (h : units s path = .ok us) :
    (runBatch schedule quiet success action path s).store = storeAfter s (turns action (schedule.order us) s) := by
  unfold runBatch
  rw [h]
  cases us with
  | nil => rw [(schedule.perm []).eq_nil]; rfl
  | cons u us => rfl

theorem result_runBatch_file_iff (hdir : s.isDirectory path = false) :
    (∃ out, (runBatch schedule quiet success action path s).result = .ok out) ↔
      s.isFile path = true ∧ (action.run path s).failure = none := by
  rw [result_runBatch_iff]
  constructor
  · rintro ⟨us, hus, -, hturns⟩
    obtain ⟨hfile, rfl⟩ := isFile_of_units hus hdir
    rw [schedule.order_singleton] at hturns
    exact ⟨hfile, hturns _ List.mem_cons_self⟩
  · rintro ⟨hfile, hturn⟩
    refine ⟨[path], units_of_isFile hfile, List.cons_ne_nil _ _, fun turn hmem => ?_⟩
    rw [schedule.order_singleton] at hmem
    rw [List.mem_singleton.mp hmem]
    exact hturn

theorem store_runBatch_file (hfile : s.isFile path = true) :
    (runBatch schedule quiet success action path s).store = (action.run path s).store := by
  rw [store_runBatch (units_of_isFile hfile), schedule.order_singleton]
  rfl

theorem store_runBatch_check : (runBatch schedule quiet success .check path s).store = s := by
  cases hus : units s path with
  | error e =>
    unfold runBatch
    rw [hus]
  | ok us => rw [store_runBatch hus, storeAfter_turns_check]

end Batches

/-! ## Subcommands -/

/-- The arguments ask for the task, with any of the flags that set how much is told. -/
def Asks (args : List String) (task : Task) : Prop := ∃ i, read args = .ok i ∧ i.task = task

theorem Asks.exists_run {task : Task} (h : Asks args task) :
    ∃ i : Invocation, i.task = task ∧ ∀ schedule s, runIn schedule args s = (i.run schedule s).reply i := by
  obtain ⟨i, hread, htask⟩ := h
  refine ⟨i, htask, fun schedule s => ?_⟩
  rw [runIn, hread]

theorem exit_check_iff (h : Asks args (.check path)) (hdir : s.isDirectory path = false) :
    (runIn schedule args s).exit = 0 ↔ ∃ unit, compileFile s path = .ok unit := by
  obtain ⟨i, htask, hrun⟩ := h.exists_run
  rw [hrun, exit_reply_iff, Invocation.run, htask]
  dsimp only
  rw [result_runBatch_file_iff hdir, failure_check_iff]
  exact and_iff_right_of_imp fun ⟨_, hunit⟩ => isFile_of_compileFile hunit

variable {format : Format}

theorem exit_tree_iff (h : Asks args (.tree path format)) :
    (runIn schedule args s).exit = 0 ↔ ∃ unit, compileFile s path = .ok unit := by
  obtain ⟨i, htask, hrun⟩ := h.exists_run
  rw [hrun, exit_reply_iff, Invocation.run, htask]
  dsimp only
  cases compileFile s path <;> simp

theorem stdout_tree (h : Asks args (.tree path format)) {unit : SourceUnit} (hunit : compileFile s path = .ok unit) :
    (runIn schedule args s).stdout = format.renderTree unit.tree := by
  obtain ⟨i, htask, hrun⟩ := h.exists_run
  rw [hrun, Invocation.run, htask]
  refine stdout_reply ?_
  dsimp only
  rw [hunit]

theorem exit_tokens_iff (h : Asks args (.tokens path format)) :
    (runIn schedule args s).exit = 0 ↔ ∃ ts, tokenizeFile s path = .ok ts := by
  obtain ⟨i, htask, hrun⟩ := h.exists_run
  rw [hrun, exit_reply_iff, Invocation.run, htask]
  dsimp only
  cases tokenizeFile s path <;> simp

theorem stdout_tokens (h : Asks args (.tokens path format)) {ts : List Token} (hts : tokenizeFile s path = .ok ts) :
    (runIn schedule args s).stdout = format.renderTokens ts := by
  obtain ⟨i, htask, hrun⟩ := h.exists_run
  rw [hrun, Invocation.run, htask]
  refine stdout_reply ?_
  dsimp only
  rw [hts]

theorem mergeSettings_given (loaded : OutputSettings) (format : Format) (dir : String) :
    mergeSettings loaded (some format) (some dir) true = ⟨format, some dir, true⟩ := by
  simp [mergeSettings]

theorem process_of_exit_analyze {dir : String} {config : Option String}
    (h : Asks args (.analyze path (some format) (some dir) config true)) (hdir : s.isDirectory path = false)
    (hexit : (runIn schedule args s).exit = 0) : (process ⟨format, some dir, true⟩ path s).failure = none ∧
      (runIn schedule args s).store = (process ⟨format, some dir, true⟩ path s).store := by
  obtain ⟨i, htask, hrun⟩ := h.exists_run
  rw [hrun, exit_reply_iff, Invocation.run, htask] at hexit
  rw [hrun, store_reply, Invocation.run, htask]
  dsimp only at hexit ⊢
  cases hload : Settings.load s config with
  | error e => simp [hload] at hexit
  | ok loaded =>
    simp only [hload, mergeSettings_given] at hexit ⊢
    obtain ⟨hfile, hturn⟩ := (result_runBatch_file_iff hdir).mp hexit
    exact ⟨hturn, store_runBatch_file hfile⟩

theorem artifacts_given (format : Format) (dir path : String) (unit : SourceUnit) :
    artifacts ⟨format, some dir, true⟩ path unit =
      [(Path.join dir (Path.stem path ++ "." ++ format.extension), format.renderTree unit.tree),
        (Path.join dir (Path.stem path ++ "T." ++ format.extension), format.renderTokens unit.tokens)] := by
  simp [artifacts, Artifacts.ofSource]

def verb? (args : List String) : Option Verb :=
  (readLeading args .nothing).toOption.bind fun r => Verb.ofName? r.2.1

/-- What is asked for is a task of the subcommand that the arguments name. -/
theorem Asks.exists_verb {task : Task} (h : Asks args task) :
    ∃ verb given path, verb? args = some verb ∧ verb.task given path = task := by
  obtain ⟨i, hread, rfl⟩ := h
  unfold read at hread
  unfold verb?
  cases hlead : readLeading args .nothing with
  | error e => simp [hlead, bind, Except.bind] at hread
  | ok r =>
    obtain ⟨leading, name, rest⟩ := r
    simp only [hlead, bind, Except.bind] at hread
    cases hverb : Verb.ofName? name with
    | none =>
      simp only [hverb] at hread
      split at hread <;> cases hread
    | some verb =>
      simp only [hverb] at hread
      cases hwords : readWords verb.flags none rest .nothing with
      | error e => simp [hwords] at hread
      | ok given =>
        simp only [hwords] at hread
        split at hread
        · cases hread
        · rename_i path _
          split at hread
          · cases hread
          · cases hread
            exact ⟨verb, given, path, hverb, rfl⟩

theorem store_runIn (h : verb? args ≠ some .analyze) (schedule : Schedule) (s : Store) :
    (runIn schedule args s).store = s := by
  unfold runIn
  cases hread : read args with
  | error stop => cases stop <;> rfl
  | ok i =>
    obtain ⟨verb, given, path, hverb, htask⟩ := Asks.exists_verb ⟨i, hread, rfl⟩
    dsimp only
    rw [store_reply, Invocation.run, ← htask]
    cases verb with
    | analyze => exact absurd hverb h
    | check => exact store_runBatch_check
    | tokens | tree => rfl

/-! ## The plain ways to ask -/

/-- An argument that is a path or a value, wherever it stands. -/
structure IsOperand (arg : String) : Prop where
  nonempty : arg.isEmpty = false
  word : Word.ofArgument arg = .plain arg

/-- What is not empty and does not begin with a dash is one. -/
theorem IsOperand.of_head?_ne {arg : String} (hne : arg ≠ "") (h : arg.toList.head? ≠ some '-') : IsOperand arg := by
  refine ⟨by simpa using hne, ?_⟩
  have hdash : ∀ cs, arg.toList ≠ '-' :: cs := fun cs hcs => h (by rw [hcs]; rfl)
  unfold Word.ofArgument
  split
  · rfl
  · rename_i hcs
    exact absurd hcs (hdash _)
  · rename_i hcs
    exact absurd hcs (hdash _)
  · rename_i hcs
    exact absurd hcs (hdash _)
  · rfl

section Words

variable {flags : List Flag} {o : Flag} {word arg : String} {g g' : Given}

theorem readWords_path (harg : Word.ofArgument arg = .plain arg) (hg : g.argument arg = .ok g') (rest : List String) :
    readWords flags none (arg :: rest) g = readWords flags none rest g' := by
  simp [readWords, harg, hg, bind, Except.bind]

theorem readWords_option (hword : Word.ofArgument word = .short [o.short]) (htakes : o.takesValue = true)
    (ho : flags.find? (·.short == o.short) = some o) (harg : Word.ofArgument arg = .plain arg)
    (hg : g.option o arg = .ok g') (rest : List String) :
    readWords flags none (word :: arg :: rest) g = readWords flags none rest g' := by
  simp [readWords, hword, readShort, ho, htakes, harg, hg, bind, Except.bind]

theorem readWords_flag (hword : Word.ofArgument word = .short [o.short]) (htakes : o.takesValue = false)
    (ho : flags.find? (·.short == o.short) = some o) (hg : g.flag o = .ok g') (rest : List String) :
    readWords flags none (word :: rest) g = readWords flags none rest g' := by
  simp [readWords, hword, readShort, ho, htakes, hg, bind, Except.bind]

end Words

/-- A subcommand with its words asks for its task. -/
theorem asks_of_readWords (verb : Verb) (given : Given) {rest : List String} {path : String}
    (h : readWords verb.flags none rest .nothing = .ok given) (hpath : given.path = some path)
    (hquiet : given.quiet = false) : Asks (verb.name :: rest) (verb.task given path) := by
  have hname : Word.ofArgument verb.name = .plain verb.name := by cases verb <;> rfl
  have hverb : Verb.ofName? verb.name = some verb := by cases verb <;> rfl
  have hlead : readLeading (verb.name :: rest) .nothing = .ok (.nothing, verb.name, rest) := by rw [readLeading, hname]
  have htorn : (given.isTorn || Given.nothing.isTorn) = false := by simp [Given.isTorn, hquiet, Given.nothing]
  unfold Asks read
  simp only [hlead, hverb, h, hpath, htorn, bind, Except.bind, Bool.false_eq_true, if_false]
  exact ⟨_, rfl, rfl⟩

/-- Without flags on how much is told, each subcommand is asked for by its name, the path and its
    options. -/
theorem asks_in_words {path dir : String} (hpath : IsOperand path) (hdir : IsOperand dir) (format : Format) :
    Asks ["check", path] (.check path) ∧ Asks ["tree", path, "-f", format.extension] (.tree path format) ∧
    Asks ["tokens", path, "-f", format.extension] (.tokens path format) ∧
    Asks ["analyze", path, "-f", format.extension, "-t", "-o", dir]
      (.analyze path (some format) (some dir) none true) := by
  let named : Given := { Given.nothing with path := some path }
  let shown : Given := { named with format := some format }
  let listed : Given := { shown with tokens := true }
  let written : Given := { listed with dir := some dir }
  have hnamed : Given.nothing.argument path = .ok named := by
    simp [Given.argument, Given.once, hpath.nonempty, bind, Except.bind, pure, Except.pure, named, Given.nothing]
  have hformat : named.option .format format.extension = .ok shown := by
    have hknown : Format.ofName? format.extension = some format := by cases format <;> decide +kernel
    simp only [Given.option, hknown, named, shown, Given.nothing]
  have hwritten : listed.option .outDir dir = .ok written := by
    simp [Given.option, Given.once, hdir.nonempty, bind, Except.bind, pure, Except.pure, written, listed, shown, named,
      Given.nothing]
  have hname : Word.ofArgument format.extension = .plain format.extension := by cases format <;> rfl
  refine ⟨asks_of_readWords .check named ?check rfl rfl, asks_of_readWords .tree shown ?tree rfl rfl,
    asks_of_readWords .tokens shown ?tokens rfl rfl, asks_of_readWords .analyze written ?analyze rfl rfl⟩
  case check => rw [readWords_path hpath.word hnamed, readWords]
  case tree =>
    rw [readWords_path hpath.word hnamed, readWords_option (o := .format) rfl rfl rfl hname hformat, readWords]
  case tokens =>
    rw [readWords_path hpath.word hnamed, readWords_option (o := .format) rfl rfl rfl hname hformat, readWords]
  case analyze =>
    have hlisted : shown.flag .tokens = .ok listed := rfl
    rw [readWords_path hpath.word hnamed, readWords_option (o := .format) rfl rfl rfl hname hformat,
      readWords_flag (o := .tokens) rfl rfl rfl hlisted, readWords_option (o := .outDir) rfl rfl rfl hdir.word hwritten,
      readWords]

/-! ## The subcommands together -/

/-- What the subcommands make of one path and one form. -/
structure Agree (schedule : Schedule) (s : Store) (path : String) (format : Format) : Prop where
  /-- A check succeeds exactly where the tree is shown. -/
  check_iff_tree (check tree : List String) : Asks check (.check path) → Asks tree (.tree path format) →
    ((runIn schedule check s).exit = 0 ↔ (runIn schedule tree s).exit = 0)
  /-- Where the tree is shown, so are the tokens. -/
  tokens_of_tree (tree tokens : List String) : Asks tree (.tree path format) → Asks tokens (.tokens path format) →
    (runIn schedule tree s).exit = 0 → (runIn schedule tokens s).exit = 0
  /-- The tokens are shown exactly where a file is whose bytes are a text that has tokens. -/
  tokens_iff (tokens : List String) : Asks tokens (.tokens path format) → ((runIn schedule tokens s).exit = 0 ↔
    ∃ text ts, s.at? path = some (.file text.toUTF8) ∧ SourceUnit.tokenize text = .ok ts)
  /-- An analysis that succeeds leaves two files that hold what was shown before it. -/
  artifacts (analyze tree tokens : List String) (dir : String) (config : Option String) :
    Asks analyze (.analyze path (some format) (some dir) config true) → Asks tree (.tree path format) →
    Asks tokens (.tokens path format) → (runIn schedule analyze s).exit = 0 →
    (runIn schedule analyze s).store.at? (Path.join dir (Path.stem path ++ "." ++ format.extension)) =
        some (.file (runIn schedule tree s).stdout.toUTF8) ∧
      (runIn schedule analyze s).store.at? (Path.join dir (Path.stem path ++ "T." ++ format.extension)) =
        some (.file (runIn schedule tokens s).stdout.toUTF8)

/-- The subcommands agree on each path that is no directory, and all but the analysis leave every
    store as it is, in whatever order units have their turns. -/
theorem commands_agree (schedule : Schedule) :
    (∀ s : Store, s.LinkFree → ∀ path, s.isDirectory path = false → ∀ format, Agree schedule s path format) ∧
    ∀ args, verb? args ≠ some .analyze → ∀ s : Store, (runIn schedule args s).store = s := by
  refine ⟨fun s hs path hdir format => ?_, fun args h => store_runIn h schedule⟩
  refine { check_iff_tree := ?check, tokens_of_tree := ?tree, tokens_iff := ?tokens, artifacts := ?analyze }
  case check =>
    intro check tree hcheck htree
    rw [exit_check_iff hcheck hdir, exit_tree_iff htree]
  case tree =>
    intro tree tokens htree htokens hexit
    obtain ⟨unit, hunit⟩ := (exit_tree_iff htree).mp hexit
    exact (exit_tokens_iff htokens).mpr ⟨unit.tokens, tokenizeFile_of_compileFile hunit⟩
  case tokens =>
    intro tokens htokens
    simp only [exit_tokens_iff htokens, tokenizeFile_eq_ok_iff, readText_eq_ok_iff_at?]
    exact exists_comm
  case analyze =>
    intro analyze tree tokens dir config hanalyze htree htokens hexit
    obtain ⟨hprocess, hstore⟩ := process_of_exit_analyze hanalyze hdir hexit
    obtain ⟨unit, hunit, htexts⟩ := delivered_of_failure_eq_none hs hprocess
    rw [artifacts_given] at htexts
    have hwrittenTree := htexts _ _ List.mem_cons_self
    have hwrittenTokens := htexts _ _ (List.mem_cons_of_mem _ List.mem_cons_self)
    rw [hstore, stdout_tree htree hunit, stdout_tokens htokens (tokenizeFile_of_compileFile hunit)]
    exact ⟨readText_eq_ok_iff_at?.mp hwrittenTree, readText_eq_ok_iff_at?.mp hwrittenTokens⟩

/-- A class, and a text that is none but has tokens. -/
theorem commands_agree_class :
    let s := ofTexts [("A.jack", "class A \x7b\x7d"), ("B.jack", "do \"\u00fc\"")]
    let analyze := ["analyze", "A.jack", "-f", "json", "-t", "-o", "out"]
    let tree := ["tree", "A.jack", "-f", "json"]
    let tokens := ["tokens", "A.jack", "-f", "json"]
    s.LinkFree ∧ s.isDirectory "A.jack" = false ∧ (run analyze s).exit = 0 ∧
      (run analyze s).store.at? "out/A.json" = some (.file (run tree s).stdout.toUTF8) ∧
      (run analyze s).store.at? "out/AT.json" = some (.file (run tokens s).stdout.toUTF8) ∧
      (run ["check", "B.jack"] s).exit = 1 ∧ (run ["tree", "B.jack", "-f", "xml"] s).exit ≠ 0 ∧
      (run ["tokens", "B.jack", "-f", "xml"] s).exit = 0 ∧ (run ["check", "."] s).store = s := by
  intro s analyze tree tokens
  have hs : s.LinkFree := linkFree_ofTexts _
  have hdirA : s.isDirectory "A.jack" = false := by decide +kernel
  have hdirB : s.isDirectory "B.jack" = false := by decide +kernel
  have hexit : (run analyze s).exit = 0 := by decide +kernel
  have hcheck : (run ["check", "B.jack"] s).exit = 1 := by decide +kernel
  have htokens : SourceUnit.tokenize "do \"\u00fc\"" =
      .ok [⟨.keyword .doKw, "do", ⟨0, 2⟩, 1⟩, ⟨.stringConstant, "\u00fc", ⟨3, 7⟩, 1⟩] := by decide +kernel
  have hA : IsOperand "A.jack" := .of_head?_ne (by decide) (by decide)
  have hB : IsOperand "B.jack" := .of_head?_ne (by decide) (by decide)
  have hout : IsOperand "out" := .of_head?_ne (by decide) (by decide)
  obtain ⟨-, htreeA, htokensA, hanalyzeA⟩ := asks_in_words hA hout .json
  obtain ⟨hcheckB, htreeB, htokensB, -⟩ := asks_in_words hB hout .xml
  have hagreeA := (commands_agree .inTurn).1 s hs "A.jack" hdirA .json
  have hagreeB := (commands_agree .inTurn).1 s hs "B.jack" hdirB .xml
  obtain ⟨hwrittenTree, hwrittenTokens⟩ :=
    hagreeA.artifacts analyze tree tokens "out" none hanalyzeA htreeA htokensA hexit
  refine ⟨hs, hdirA, hexit, hwrittenTree, hwrittenTokens, hcheck, fun htree => ?_, ?_, ?_⟩
  · have hzero : (run ["check", "B.jack"] s).exit = 0 := (hagreeB.check_iff_tree _ _ hcheckB htreeB).mpr htree
    rw [hcheck] at hzero
    cases hzero
  · exact (hagreeB.tokens_iff _ htokensB).mpr ⟨_, _, rfl, htokens⟩
  · exact (commands_agree .inTurn).2 ["check", "."] (by decide +kernel) s

end Command

end JackAnalyzer
