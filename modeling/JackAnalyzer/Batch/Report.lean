/-
  JackAnalyzer.Batch.Report — an action on every unit of a batch, and what is told of it. The
  units share nothing but the store; one that fails stops no other. Their turns come one by one
  in any order, as workers get to them; a report tells them in the order of the units.
  - `perm_inUnitOrder`: the turns, brought into the order of the units.
  - `okCount_add_failedCount`: every unit is counted once.
  - `isSuccess_iff`: a batch succeeds when no unit fails.
-/

import JackAnalyzer.Batch.Process
import JackAnalyzer.Batch.Units

namespace JackAnalyzer.Batch

inductive Action where
  /-- Scan and parse only. -/
  | check
  /-- Also write the artifacts. -/
  | write (settings : OutputSettings)
  deriving DecidableEq, Repr

def Action.run (action : Action) (source : String) (s : Store) : Effect :=
  match action with
  | .check =>
    match compileFile s source with
    | .ok _ => ⟨[], none, s⟩
    | .error e => ⟨[], some e, s⟩
  | .write settings => process settings source s

/-- One unit's turn: the store before it and what was done. -/
structure Turn where
  source : String
  before : Store
  effect : Effect

/-- The turns of all units, each on the store that the one before left. -/
def turns (action : Action) : List String → Store → List Turn
  | [], _ => []
  | source :: more, s =>
    let effect := action.run source s
    ⟨source, s, effect⟩ :: turns action more effect.store

def storeAfter (s : Store) (ts : List Turn) : Store := (ts.getLast?.map (·.effect.store)).getD s

/-- The order in which units come to their turns. -/
structure Schedule where
  order : List String → List String
  /-- Each has its turn. -/
  perm (us : List String) : (order us).Perm us

/-- One unit after the other. -/
def Schedule.inTurn : Schedule := ⟨id, .refl⟩

theorem Schedule.order_singleton (schedule : Schedule) (u : String) : schedule.order [u] = [u] :=
  List.perm_singleton.mp (schedule.perm [u])

/-- The turns in the order of the units: each unit has the first of its turns that is left. -/
def inUnitOrder : List String → List Turn → List Turn
  | [], _ => []
  | u :: us, ts =>
    match ts.find? (·.source == u) with
    | none => inUnitOrder us ts
    | some t => t :: inUnitOrder us (ts.eraseP (·.source == u))

/-- A unit and what became of it: the files written for it, or its failure. -/
structure Outcome where
  source : String
  result : Except Error (List String)

structure Report where
  outcomes : List Outcome

def Report.ofTurns (ts : List Turn) : Report := ⟨ts.map fun t => ⟨t.source, t.effect.result⟩⟩

/-- The report on units in their own order, whatever the order of their turns. -/
def Report.inOrder (us : List String) (ts : List Turn) : Report := .ofTurns (inUnitOrder us ts)

/-! ## The order of the units -/

theorem map_source_turns (action : Action) (us : List String) (s : Store) :
    (turns action us s).map Turn.source = us := by
  induction us generalizing s with
  | nil => rfl
  | cons u us ih => exact congrArg _ (ih _)

/-- No turn is lost, and each is told for its own unit. -/
theorem perm_inUnitOrder {us : List String} {ts : List Turn} (h : (ts.map Turn.source).Perm us) :
    (inUnitOrder us ts).Perm ts ∧ (inUnitOrder us ts).map Turn.source = us := by
  induction us generalizing ts with
  | nil =>
    obtain rfl := List.map_eq_nil_iff.mp h.eq_nil
    exact ⟨.refl _, rfl⟩
  | cons u us ih =>
    obtain ⟨t, ht⟩ : ∃ t, ts.find? (·.source == u) = some t := by
      obtain ⟨t, hmem, hsource⟩ := List.mem_map.mp (h.mem_iff.mpr List.mem_cons_self)
      exact Option.isSome_iff_exists.mp (List.find?_isSome.mpr ⟨t, hmem, beq_iff_eq.mpr hsource⟩)
    obtain ⟨hsource, front, rest, rfl, hfront⟩ := List.find?_eq_some_iff_append.mp ht
    have hleft : (front ++ t :: rest).eraseP (·.source == u) = front ++ rest := by
      rw [List.eraseP_append_right _ fun a ha => by simpa using hfront a ha, List.eraseP_cons, hsource, cond_true]
    obtain rfl : t.source = u := beq_iff_eq.mp hsource
    have hmiddle : (front ++ t :: rest).Perm (t :: (front ++ rest)) := List.perm_middle
    obtain ⟨hperm, hown⟩ := ih ((hmiddle.map Turn.source).symm.trans h).cons_inv
    rw [inUnitOrder, ht]
    dsimp only
    rw [hleft]
    exact ⟨(hperm.cons t).trans hmiddle.symm, congrArg _ hown⟩

namespace Outcome

def isOk (o : Outcome) : Bool :=
  match o.result with
  | .ok _ => true
  | .error _ => false

def failureLine? (o : Outcome) : Option String :=
  match o.result with
  | .ok _ => none
  | .error e => some (o.source ++ ": " ++ e.message)

end Outcome

namespace Report

def okCount (r : Report) : Nat := (r.outcomes.filter Outcome.isOk).length

def failedCount (r : Report) : Nat := r.outcomes.length - r.okCount

def isSuccess (r : Report) : Bool := r.failedCount == 0

def failureLines (r : Report) : List String := r.outcomes.filterMap Outcome.failureLine?

def summary (r : Report) : String := toString r.okCount ++ " OK, " ++ toString r.failedCount ++ " failed"

theorem okCount_add_failedCount (r : Report) : r.okCount + r.failedCount = r.outcomes.length := by
  have : r.okCount ≤ r.outcomes.length := List.length_filter_le _ _
  simp only [failedCount]; omega

theorem failureLine?_isSome (o : Outcome) : o.failureLine?.isSome = !o.isOk := by
  unfold Outcome.failureLine? Outcome.isOk
  split <;> rfl

theorem length_failureLines (r : Report) : r.failureLines.length = r.failedCount := by
  have h : ∀ os : List Outcome, (os.filterMap Outcome.failureLine?).length + (os.filter Outcome.isOk).length = os.length := by
    intro os
    induction os with
    | nil => rfl
    | cons o os ih =>
      have ho := failureLine?_isSome o
      cases hf : o.failureLine? with
      | none =>
        have : o.isOk = true := by simpa [hf] using ho
        simp [hf, this]; omega
      | some l =>
        have : o.isOk = false := by simpa [hf] using ho
        simp [hf, this]; omega
  have := h r.outcomes
  simp only [failureLines, failedCount, okCount]; omega

theorem isSuccess_iff (r : Report) : r.isSuccess = true ↔ r.failureLines = [] := by
  rw [isSuccess, beq_iff_eq, ← length_failureLines, List.length_eq_zero_iff]

end Report

end JackAnalyzer.Batch
