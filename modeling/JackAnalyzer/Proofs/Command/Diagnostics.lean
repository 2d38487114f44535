/-
  JackAnalyzer.Proofs.Command.Diagnostics — what a run on many units tells, with the verbose flag
  left out. It exits with 0 exactly where each unit is well, and then says so in one line. If not,
  the error stream names each unit that failed with its error, and none besides, and counts them; or
  it tells in one line why no unit was worked on.
  - `errorStream_eq`: without the verbose flag only the lines that are no log lines are shown.
  - `told_of_runBatch`, `told_of_error`: where the settings are loaded, and where they are not.
  - `batches_told`: the two subcommands that work on many units.
-/

import JackAnalyzer.Proofs.Command.Agreement

namespace JackAnalyzer

namespace Batch

/-- What becomes of each unit, in the order of the units, whatever that of their turns. -/
def outcomes (schedule : Schedule) (action : Action) (us : List String) (s : Store) : List Outcome :=
  (Report.inOrder us (turns action (schedule.order us) s)).outcomes

/-- The units that failed, in the order of the units, each with its error. -/
def failures (os : List Outcome) : List (String × Error) :=
  os.filterMap fun o =>
    match o.result with
    | .ok _ => none
    | .error e => some (o.source, e)

theorem source_outcomes (schedule : Schedule) (action : Action) (us : List String) (s : Store) :
    (outcomes schedule action us s).map Outcome.source = us := by
  have hsources := map_source_turns action (schedule.order us) s
  rw [outcomes, Report.inOrder, Report.ofTurns, List.map_map]
  exact (perm_inUnitOrder (hsources.symm ▸ schedule.perm us)).2

theorem filterMap_failureLine? (os : List Outcome) :
    os.filterMap Outcome.failureLine? = (failures os).map fun f => f.1 ++ ": " ++ f.2.message := by
  rw [failures, List.map_filterMap]
  refine List.filterMap_congr fun o _ => ?_
  unfold Outcome.failureLine?
  cases o.result <;> rfl

theorem failures_eq_nil_iff {os : List Outcome} :
    failures os = [] ↔ ∀ o ∈ os, ∃ written, o.result = .ok written := by
  rw [failures, List.filterMap_eq_nil_iff]
  refine forall₂_congr fun o _ => ?_
  cases o.result <;> simp

theorem length_outcomes (schedule : Schedule) (action : Action) (us : List String) (s : Store) :
    (outcomes schedule action us s).length = us.length := by
  rw [← List.length_map, source_outcomes]

theorem length_failures (r : Report) : (failures r.outcomes).length = r.failedCount := by
  rw [← r.length_failureLines, Report.failureLines, filterMap_failureLine?, List.length_map]

theorem okCount_add_length_failures (schedule : Schedule) (action : Action) (us : List String) (s : Store) :
    (Report.inOrder us (turns action (schedule.order us) s)).okCount + (failures (outcomes schedule action us s)).length =
      us.length := by
  rw [outcomes, length_failures, Report.okCount_add_failedCount]
  exact length_outcomes schedule action us s

theorem isSuccess_iff_failures (r : Report) : r.isSuccess = true ↔ failures r.outcomes = [] := by
  rw [Report.isSuccess, beq_iff_eq, ← length_failures, List.length_eq_zero_iff]

theorem summary_eq (r : Report) :
    r.summary = toString r.okCount ++ " OK, " ++ toString (failures r.outcomes).length ++ " failed" := by
  rw [length_failures, Report.summary]

end Batch

namespace Settings

/-- A file that gives no settings: it cannot be read, or its text gives none. -/
def Unsound (s : Store) (file : String) (e : Error) : Prop :=
  (∃ f, s.readText file = .error f ∧ e = .io file f.message) ∨
    ∃ text, s.readText file = .ok text ∧ ofText text = none ∧
      e = .config ("failed to parse " ++ file ++ ": " ++ unsoundReason)

theorem unsound_of_ofFile {s : Store} {file : String} {e : Error} (h : ofFile s file = .error e) :
    Unsound s file e := by
  unfold ofFile at h
  split at h
  · rename_i f hread
    exact .inl ⟨f, hread, (Except.error.inj h).symm⟩
  · rename_i text hread
    cases hofText : ofText text with
    | none =>
      rw [hofText] at h
      exact .inr ⟨text, hread, hofText, (Except.error.inj h).symm⟩
    | some settings =>
      rw [hofText] at h
      cases h

theorem unsound_of_load {s : Store} {config : Option String} {e : Error} (h : load s config = .error e) :
    Unsound s (config.getD defaultFile) e := by
  cases config with
  | some file => exact unsound_of_ofFile h
  | none =>
    rw [load] at h
    split at h
    · exact unsound_of_ofFile h
    · cases h

end Settings

namespace Command

open Batch Store

variable {schedule : Schedule} {i : Invocation} {s : Store} {path success : String}

/-! ## Lines -/

def Notice.line? : Notice → Option String
  | .log _ _ => none
  | .line text => some text

/-- Without the verbose flag no log line is shown. -/
theorem errorStream_eq (h : i.verbose = 0) (ns : List Notice) :
    errorStream i ns = String.join ((ns.filterMap Notice.line?).map (· ++ "\n")) := by
  have hlog (level : Level) : ¬ level.threshold ≤ i.verbose := by
    rw [h]
    cases level <;> decide
  induction ns with
  | nil => rfl
  | cons n ns ih =>
    unfold errorStream at ih ⊢
    rw [List.map_cons, String.join_cons, ih]
    cases n with
    | log level message =>
      rw [List.filterMap_cons_none rfl, Notice.shown, if_neg (by simp [hlog level]), String.empty_append]
    | line text =>
      have hline : Notice.line? (.line text) = some text := rfl
      rw [List.filterMap_cons_some hline, List.map_cons, String.join_cons, Notice.shown]

theorem errorStream_failure (h : i.verbose = 0) (ns : List Notice) (message : String) :
    errorStream i (ns ++ [.failure message]) = errorStream i ns ++ ("[ERROR] " ++ message ++ "\n") := by
  rw [errorStream_eq h, errorStream_eq h, List.filterMap_append, List.map_append, String.join_append]
  rfl

theorem lines_skipNotices (s : Store) (path : String) : (skipNotices s path).filterMap Notice.line? = [] := by
  unfold skipNotices
  split
  · rfl
  · rw [List.filterMap_map]
    exact List.filterMap_eq_nil_iff.mpr fun _ _ => rfl

theorem lines_turnNotices (t : Turn) : (turnNotices t).filterMap Notice.line? = [] := by
  have hcompile : (compileNotices t.before t.source).filterMap Notice.line? = [] := by
    unfold compileNotices
    rw [List.filterMap_cons_none rfl]
    split
    · rfl
    · rw [List.filterMap_cons_none rfl, List.filterMap_map]
      exact List.filterMap_eq_nil_iff.mpr fun _ _ => rfl
  rw [turnNotices, List.filterMap_append, hcompile, List.filterMap_map]
  exact List.filterMap_eq_nil_iff.mpr fun _ _ => rfl

theorem lines_outcomes (os : List Outcome) :
    (os.map outcomeNotice).filterMap Notice.line? = (failures os).map fun f => f.1 ++ ": " ++ f.2.message := by
  rw [← filterMap_failureLine?, List.filterMap_map]
  refine List.filterMap_congr fun o _ => ?_
  unfold Function.comp outcomeNotice
  cases o.failureLine? <;> rfl

/-- What a batch tells before its end: the units that failed. -/
theorem errorStream_batch (h : i.verbose = 0) (path : String) (s : Store) (ts : List Turn) (os : List Outcome) :
    errorStream i (skipNotices s path ++ ts.flatMap turnNotices ++ os.map outcomeNotice) =
      String.join ((failures os).map fun f => f.1 ++ ": " ++ f.2.message ++ "\n") := by
  have hturns : (ts.flatMap turnNotices).filterMap Notice.line? = [] := by
    rw [List.filterMap_flatMap]
    exact List.flatMap_eq_nil_iff.mpr fun t _ => lines_turnNotices t
  rw [errorStream_eq h, List.filterMap_append, List.filterMap_append, lines_skipNotices, hturns, lines_outcomes,
    List.nil_append, List.nil_append, List.map_map]
  rfl

/-! ## Replies -/

/-- What is told of a batch: `action` is what the units are worked on with, or why there is none. -/
structure Told (schedule : Schedule) (quiet : Bool) (success path : String) (action : Except Error Action) (s : Store)
    (r : Reply) : Prop where
  /-- The exit code is 0 exactly where there is an action, there are units and each of them is well. -/
  exit_iff : r.exit = 0 ↔ ∃ a us, action = .ok a ∧ units s path = .ok us ∧ us ≠ [] ∧
    ∀ o ∈ outcomes schedule a us s, ∃ written, o.result = .ok written
  /-- Then one line is printed that counts the units, or none by a quiet run. -/
  well : r.exit = 0 → r.stderr = "" ∧ ∃ us, units s path = .ok us ∧
    r.stdout = if quiet then "" else success ++ " (" ++ toString us.length ++ " OK, 0 failed)\n"
  /-- Any other exit code is 1, and then nothing is printed. -/
  unwell : r.exit ≠ 0 → r.exit = 1 ∧ r.stdout = ""
  /-- A batch that ran has an outcome for each unit. Where it is unwell, those that failed are
      named with their errors and counted, and there is one at least. -/
  ran (a : Action) (us : List String) : action = .ok a → units s path = .ok us → us ≠ [] →
    (outcomes schedule a us s).map Outcome.source = us ∧ (r.exit ≠ 0 → ∃ n m, n + m = us.length ∧ 1 ≤ m ∧
      (failures (outcomes schedule a us s)).length = m ∧
      r.stderr = String.join ((failures (outcomes schedule a us s)).map fun f => f.1 ++ ": " ++ f.2.message ++ "\n") ++
        ("[ERROR] " ++ (toString n ++ " OK, " ++ toString m ++ " failed") ++ "\n"))
  /-- No action: the error is told. -/
  noAction (e : Error) : action = .error e → r.exit = 1 ∧ r.stderr = "[ERROR] " ++ e.message ++ "\n"
  /-- Nothing collected: the error is told, which names the path. -/
  noUnits (a : Action) (e : Error) : action = .ok a → units s path = .error e →
    r.exit = 1 ∧ r.stderr = "[ERROR] " ++ e.message ++ "\n" ∧ ∃ detail, e = .io path detail
  /-- An empty collection: the path is named. -/
  empty (a : Action) : action = .ok a → units s path = .ok [] →
    r.exit = 1 ∧ r.stderr = "[ERROR] " ++ ("no .jack files found in " ++ path) ++ "\n"

theorem io_of_units_error {e : Error} (h : units s path = .error e) : ∃ detail, e = .io path detail := by
  unfold units at h
  split at h
  · exact ⟨_, (Except.error.inj h).symm⟩
  · split at h
    · cases h
    · split at h
      · cases h
      · exact ⟨_, (Except.error.inj h).symm⟩

theorem reply_of_early {message : String} {ns : List Notice} (h : i.verbose = 0)
    (hns : ns.filterMap Notice.line? = []) (s : Store) :
    (Ending.mk ns (.error message) s).reply i = ⟨1, "", "[ERROR] " ++ message ++ "\n", s⟩ := by
  unfold Ending.reply
  dsimp only
  rw [errorStream_failure h, errorStream_eq h, hns]
  simp

theorem told_of_early {quiet : Bool} {action : Except Error Action} {message : String} {t : Store}
    (hearly : ∀ a us, action = .ok a → units s path = .ok us → us = [])
    (haction : ∀ e, action = .error e → message = e.message)
    (hunits : ∀ a e, action = .ok a → units s path = .error e → message = e.message)
    (hempty : ∀ a, action = .ok a → units s path = .ok [] → message = "no .jack files found in " ++ path) :
    Told schedule quiet success path action s ⟨1, "", "[ERROR] " ++ message ++ "\n", t⟩ where
  exit_iff := by
    refine iff_of_false (Nat.succ_ne_zero 0) ?_
    rintro ⟨a, us, ha, hus, hne, -⟩
    exact hne (hearly a us ha hus)
  well h := absurd h (Nat.succ_ne_zero 0)
  unwell _ := ⟨rfl, rfl⟩
  ran a us ha hus hne := absurd (hearly a us ha hus) hne
  noAction e he := ⟨rfl, by rw [haction e he]⟩
  noUnits a e ha he := ⟨rfl, by rw [hunits a e ha he], io_of_units_error he⟩
  empty a ha he := ⟨rfl, by rw [hempty a ha he]⟩

section Ran

variable {action : Action} {us : List String}

theorem reply_of_well (h : i.verbose = 0) (success : String) (hunits : units s path = .ok us) (hne : us ≠ [])
    (hwell : failures (outcomes schedule action us s) = []) :
    ((runBatch schedule i.quiet success action path s).reply i).exit = 0 ∧
      ((runBatch schedule i.quiet success action path s).reply i).stderr = "" ∧
      ((runBatch schedule i.quiet success action path s).reply i).stdout =
        if i.quiet then "" else success ++ " (" ++ toString us.length ++ " OK, 0 failed)\n" := by
  obtain ⟨u, more, rfl⟩ := List.exists_cons_of_ne_nil hne
  have hsuccess := (isSuccess_iff_failures
    (Report.inOrder (u :: more) (turns action (schedule.order (u :: more)) s))).mpr hwell
  have hcount := okCount_add_length_failures schedule action (u :: more) s
  rw [hwell, List.length_nil, Nat.add_zero] at hcount
  have herrors := errorStream_batch h path s (turns action (schedule.order (u :: more)) s)
    (outcomes schedule action (u :: more) s)
  unfold outcomes at hwell herrors
  rw [hwell] at herrors
  unfold runBatch Ending.reply
  simp only [hunits, hsuccess, Bool.not_true, Bool.false_eq_true, if_false, summary_eq, hcount, hwell]
  have hzero : toString ([] : List (String × Error)).length = "0" := rfl
  refine ⟨trivial, herrors, ?_⟩
  rw [hzero]
  simp only [String.append_assoc]
  rfl

theorem reply_of_unwell (h : i.verbose = 0) (success : String) (hunits : units s path = .ok us)
    (hunwell : failures (outcomes schedule action us s) ≠ []) :
    ((runBatch schedule i.quiet success action path s).reply i).exit = 1 ∧
      ((runBatch schedule i.quiet success action path s).reply i).stdout = "" ∧
      ∃ n, n + (failures (outcomes schedule action us s)).length = us.length ∧
        ((runBatch schedule i.quiet success action path s).reply i).stderr =
          String.join ((failures (outcomes schedule action us s)).map fun f => f.1 ++ ": " ++ f.2.message ++ "\n") ++
            ("[ERROR] " ++ (toString n ++ " OK, " ++ toString (failures (outcomes schedule action us s)).length ++ " failed") ++
              "\n") := by
  obtain ⟨u, more, rfl⟩ : ∃ u more, us = u :: more := by
    cases us with
    | nil => exact absurd rfl hunwell
    | cons u more => exact ⟨u, more, rfl⟩
  have hsuccess : (Report.inOrder (u :: more) (turns action (schedule.order (u :: more)) s)).isSuccess = false := by
    rw [Bool.eq_false_iff]
    exact fun hsuccess => hunwell ((isSuccess_iff_failures _).mp hsuccess)
  have herrors := errorStream_batch h path s (turns action (schedule.order (u :: more)) s)
    (outcomes schedule action (u :: more) s)
  have hcount := okCount_add_length_failures schedule action (u :: more) s
  unfold outcomes at herrors hcount ⊢
  unfold runBatch Ending.reply
  simp only [hunits, hsuccess, Bool.not_false, if_true]
  exact ⟨trivial, trivial, _, hcount, by rw [errorStream_failure h, herrors, summary_eq]⟩

/-- A batch that ran: its exit code tells whether a unit failed. -/
theorem told_of_ran {quiet : Bool} {r : Reply} (hunits : units s path = .ok us) (hne : us ≠ [])
    (hexit : r.exit = 0 ↔ failures (outcomes schedule action us s) = [])
    (hwell : r.exit = 0 → r.stderr = "" ∧
      r.stdout = if quiet then "" else success ++ " (" ++ toString us.length ++ " OK, 0 failed)\n")
    (hunwell : r.exit ≠ 0 → r.exit = 1 ∧ r.stdout = "" ∧
      ∃ n, n + (failures (outcomes schedule action us s)).length = us.length ∧
        r.stderr = String.join ((failures (outcomes schedule action us s)).map fun f => f.1 ++ ": " ++ f.2.message ++ "\n") ++
          ("[ERROR] " ++ (toString n ++ " OK, " ++ toString (failures (outcomes schedule action us s)).length ++ " failed") ++
            "\n")) :
    Told schedule quiet success path (.ok action) s r where
  exit_iff := by
    rw [hexit, failures_eq_nil_iff]
    constructor
    · exact fun hall => ⟨action, us, rfl, hunits, hne, hall⟩
    · rintro ⟨a, us', ha, hus, -, hall⟩
      cases ha
      cases Except.ok.inj (hunits.symm.trans hus)
      exact hall
  well h := ⟨(hwell h).1, us, hunits, (hwell h).2⟩
  unwell h := ⟨(hunwell h).1, (hunwell h).2.1⟩
  ran a us' ha hus _ := by
    cases ha
    cases Except.ok.inj (hunits.symm.trans hus)
    refine ⟨source_outcomes schedule action us s, fun h => ?_⟩
    obtain ⟨-, -, n, hsum, hstderr⟩ := hunwell h
    exact ⟨n, _, hsum, List.length_pos_iff.mpr (mt hexit.mpr h), rfl, hstderr⟩
  noAction e he := by cases he
  noUnits a e _ he := by cases hunits.symm.trans he
  empty a _ he := absurd (Except.ok.inj (hunits.symm.trans he)) hne

end Ran

theorem told_of_error (h : i.verbose = 0) (success path : String) (s : Store) (e : Error) :
    Told schedule i.quiet success path (.error e) s ((Ending.mk [] (.error e.message) s).reply i) := by
  rw [reply_of_early h rfl]
  refine told_of_early ?_ ?_ ?_ ?_
  · exact fun a us ha => by cases ha
  · rintro e' he
    rw [Except.error.inj he]
  · exact fun a e' ha => by cases ha
  · exact fun a ha => by cases ha

theorem told_of_runBatch (h : i.verbose = 0) (success path : String) (action : Action) (s : Store) :
    Told schedule i.quiet success path (.ok action) s ((runBatch schedule i.quiet success action path s).reply i) := by
  cases hunits : units s path with
  | error e =>
    have hreply : runBatch schedule i.quiet success action path s = ⟨[], .error e.message, s⟩ := by
      unfold runBatch
      rw [hunits]
    rw [hreply, reply_of_early h rfl]
    refine told_of_early ?_ ?_ ?_ ?_ <;> simp [hunits]
  | ok us =>
    by_cases hne : us = []
    · subst hne
      have hreply : runBatch schedule i.quiet success action path s =
          ⟨skipNotices s path, .error ("no .jack files found in " ++ path), s⟩ := by
        unfold runBatch
        rw [hunits]
      rw [hreply, reply_of_early h (lines_skipNotices s path)]
      refine told_of_early ?_ ?_ ?_ ?_ <;> simp [hunits]
    by_cases hwell : failures (outcomes schedule action us s) = []
    · obtain ⟨hexit, hstderr, hstdout⟩ := reply_of_well h success hunits hne hwell
      exact told_of_ran hunits hne (iff_of_true hexit hwell) (fun _ => ⟨hstderr, hstdout⟩) fun hexit' =>
        absurd hexit hexit'
    · obtain ⟨hexit, hstdout, hstderr⟩ := reply_of_unwell h success hunits hwell
      have hexit' : ((runBatch schedule i.quiet success action path s).reply i).exit ≠ 0 := by
        rw [hexit]
        exact Nat.succ_ne_zero 0
      exact told_of_ran hunits hne (iff_of_false hexit' hwell) (fun hzero => absurd hzero hexit') fun _ =>
        ⟨hexit, hstdout, hstderr⟩

/-- Without the verbose flag both subcommands that work on many units tell the truth about them, in
    whatever order the units have their turns. An analysis that finds no settings names the file
    that it looked for them in. -/
theorem batches_told {args : List String} (hread : read args = .ok i) (hverbose : i.verbose = 0) (schedule : Schedule)
    (s : Store) :
    (∀ path, i.task = .check path →
      Told schedule i.quiet "check success" path (.ok .check) s (runIn schedule args s)) ∧
    ∀ path format dir config tokens, i.task = .analyze path format dir config tokens →
      Told schedule i.quiet "compile success" path
        ((Settings.load s config).map fun loaded => .write (mergeSettings loaded format dir tokens)) s
        (runIn schedule args s) ∧
      ∀ e, Settings.load s config = .error e → Settings.Unsound s (config.getD Settings.defaultFile) e := by
  have hrun : runIn schedule args s = (i.run schedule s).reply i := by
    unfold runIn
    rw [hread]
  rw [hrun]
  constructor
  · intro path htask
    unfold Invocation.run
    rw [htask]
    exact told_of_runBatch hverbose "check success" path .check s
  · intro path format dir config tokens htask
    refine ⟨?_, fun e => Settings.unsound_of_load⟩
    unfold Invocation.run
    rw [htask]
    dsimp only
    cases Settings.load s config with
    | error e => exact told_of_error hverbose "compile success" path s e
    | ok loaded => exact told_of_runBatch hverbose "compile success" path _ s

/-- Of two units, the last of which has the first turn, one fails; the other alone is well; and
    settings that are none stop an analysis. -/
theorem batches_told_of_failing :
    let s := ofTexts [("C.toml", "="), ("B.jack", "class B"), ("A.jack", "class A \x7b\x7d")]
    let backwards : Schedule := ⟨List.reverse, fun us => us.reverse_perm⟩
    (runIn backwards ["check", "."] s).exit = 1 ∧ (runIn backwards ["check", "."] s).stderr =
        "./B.jack: line 1: expected '\x7b', found end of input\n[ERROR] 1 OK, 1 failed\n" ∧
      (run ["analyze", "A.jack"] s).exit = 0 ∧ (run ["analyze", "A.jack"] s).stderr = "" ∧
      (run ["analyze", "A.jack"] s).stdout = "compile success (1 OK, 0 failed)\n" ∧
      ∃ e, Settings.Unsound s "C.toml" e ∧
        (run ["analyze", "A.jack", "-c", "C.toml"] s).stderr = "[ERROR] " ++ e.message ++ "\n" := by
  intro s backwards
  have hunits : units s "." = .ok ["./A.jack", "./B.jack"] :=
    (units_of_sorted (l := []) (by decide +kernel) rfl (by decide +kernel)).trans
      (congrArg Except.ok (by decide +kernel))
  have hfile : units s "A.jack" = .ok ["A.jack"] := units_of_isFile (by decide +kernel)
  have hload : Settings.load s none = .ok default := by decide +kernel
  have hread : read ["analyze", "A.jack"] = .ok ⟨.analyze "A.jack" none none none false, 0, false⟩ := by decide +kernel
  have hnamed : read ["analyze", "A.jack", "-c", "C.toml"] =
      .ok ⟨.analyze "A.jack" none none (some "C.toml") false, 0, false⟩ := by decide +kernel
  have hcheck : Told backwards false "check success" "." (.ok .check) s (runIn backwards ["check", "."] s) :=
    (batches_told (i := ⟨.check ".", 0, false⟩) (by decide +kernel) rfl backwards s).1 "." rfl
  have hanalyze := ((batches_told hread rfl .inTurn s).2 "A.jack" none none none false rfl).1
  obtain ⟨hstopped, hunsound⟩ := (batches_told hnamed rfl .inTurn s).2 "A.jack" none none _ false rfl
  have hunwell : (runIn backwards ["check", "."] s).exit ≠ 0 := fun hzero => by
    obtain ⟨a, us, ha, hus, -, hall⟩ := hcheck.exit_iff.mp hzero
    cases ha
    cases Except.ok.inj (hunits.symm.trans hus)
    exact absurd (failures_eq_nil_iff.mpr hall) (by decide +kernel)
  have hwell : (run ["analyze", "A.jack"] s).exit = 0 := by
    refine hanalyze.exit_iff.mpr ⟨_, _, congrArg (Except.map _) hload, hfile, List.cons_ne_nil _ _, ?_⟩
    exact failures_eq_nil_iff.mp (by decide +kernel)
  have hfailures : failures (outcomes backwards .check ["./A.jack", "./B.jack"] s) =
      [("./B.jack", .parse ⟨7, 7⟩ 1 "end of input" "expected '\x7b'")] := by decide +kernel
  have hsettings : Settings.load s (some "C.toml") =
      .error (.config ("failed to parse C.toml: " ++ Settings.unsoundReason)) := by decide +kernel
  obtain ⟨n, m, hsum, -, hcount, hstderr⟩ := (hcheck.ran _ _ rfl hunits (List.cons_ne_nil _ _)).2 hunwell
  rw [hfailures] at hcount hstderr
  obtain rfl : m = 1 := hcount.symm
  obtain rfl : n = 1 := Nat.add_right_cancel hsum
  obtain ⟨hsilent, us, hus, hstdout⟩ := hanalyze.well hwell
  obtain rfl : ["A.jack"] = us := Except.ok.inj (hfile.symm.trans hus)
  exact ⟨(hcheck.unwell hunwell).1, hstderr.trans (by decide +kernel), hwell, hsilent, hstdout.trans (by decide +kernel),
    _, hunsound _ hsettings, (hstopped.noAction _ (congrArg (Except.map _) hsettings)).2⟩

end Command

end JackAnalyzer
