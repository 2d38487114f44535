/-
  JackAnalyzer.Proofs.Grammar.Conservation — calls one after another on one cursor: rules, in any
  order and any context, and questions for the end. Calls may fail in between; the next one goes
  on with what is left. Over every such run the tokens behind the cursor and those ahead of it
  are the tokens of the unit, the cursor never goes back, and a tree that a call answers has as
  its leaves the tokens that the call moved over.
  - `Rule.apply_ahead`: the cursor stops where the rule's run stopped.
  - `Call.conserves`: what one call keeps.
  - `session_conserves`: what a whole run of calls keeps.
-/

import JackAnalyzer.Grammar.Session

namespace JackAnalyzer.Grammar

/-! ## One rule -/

theorem Outcome.Covers.taken_add_length {us : List Token} {o : Outcome} (h : o.Covers us) :
    o.taken + o.rest.length = us.length := by
  have hlength := congrArg List.length h
  rwa [List.length_append, ← Tree.leavesAll_eq_flatMap] at hlength

theorem Rule.apply_cursor (rule : Rule) (c : Cursor) : (rule.apply c).2 = c.skip (rule.run c.ahead).taken := by
  unfold apply
  cases rule.run c.ahead <;> rfl

theorem Rule.taken_le (rule : Rule) (us : List Token) : (rule.run us).taken ≤ us.length := by
  have := (rule.run_leaves us).taken_add_length
  omega

theorem Rule.apply_ahead (rule : Rule) (c : Cursor) : (rule.apply c).2.ahead = (rule.run c.ahead).rest := by
  have hcov := rule.run_leaves c.ahead
  rw [apply_cursor]
  show c.ahead.drop (Tree.leavesAll (rule.run c.ahead).trees).length = (rule.run c.ahead).rest
  unfold Outcome.Covers at hcov
  conv => lhs; arg 2; rw [← hcov]
  rw [Tree.leavesAll_eq_flatMap, List.drop_left]

theorem Rule.apply_position (rule : Rule) (c : Cursor) :
    (rule.apply c).2.position = c.position + (rule.run c.ahead).taken := by
  rw [apply_cursor, Cursor.position_skip (rule.taken_le c.ahead)]

theorem Rule.apply_tokens (rule : Rule) (c : Cursor) : (rule.apply c).2.tokens = c.tokens := by
  rw [apply_cursor, Cursor.tokens_skip]

theorem Rule.apply_leaves {rule : Rule} {c : Cursor} {tree : Tree} (h : (rule.apply c).1 = .ok tree) :
    tree.leaves = c.ahead.take ((rule.apply c).2.position - c.position) := by
  have hcov := rule.run_leaves c.ahead
  rw [apply_position, Nat.add_sub_cancel_left]
  unfold apply at h
  cases hrun : rule.run c.ahead with
  | stop trees rest e =>
    rw [hrun] at h
    cases h
  | done children rest =>
    rw [hrun] at h hcov
    cases h
    have htaken : (Outcome.done children rest).taken = (children.flatMap Tree.leaves).length := by
      rw [← Tree.leavesAll_eq_flatMap]
      rfl
    unfold Outcome.Covers at hcov
    rw [Tree.leaves_node, htaken, ← hcov]
    exact List.take_left.symm

/-! ## Calls one after another -/

/-- What may be called on a cursor: a rule, or the question whether nothing is left. -/
inductive Call where
  | rule (rule : Rule)
  | finish
  deriving DecidableEq, Repr

/-- The answer to a call, for a rule its tree, and the cursor behind it. -/
def Call.answer : Call → Cursor → Except Error (Option Tree) × Cursor
  | rule r, c => ((r.apply c).1.map some, (r.apply c).2)
  | finish, c => ((Grammar.finish c).map fun _ => none, c)

structure Visit where
  call : Call
  before : Cursor
  answer : Except Error (Option Tree)
  after : Cursor

/-- The calls of a run, each at the cursor that the last one left. -/
def visits (c : Cursor) : List Call → List Visit
  | [] => []
  | call :: calls => ⟨call, c, (call.answer c).1, (call.answer c).2⟩ :: visits (call.answer c).2 calls

def cursorAfter (c : Cursor) (calls : List Call) : Cursor := calls.foldl (fun c call => (call.answer c).2) c

/-- What a call on a unit keeps. -/
structure Visit.Conserves (ts : List Token) (v : Visit) : Prop where
  /-- What is ahead are the tokens of the unit without those passed, in front of the call and behind it. -/
  aheadBefore : v.before.ahead = ts.drop v.before.position
  aheadAfter : v.after.ahead = ts.drop v.after.position
  /-- The cursor does not go back, nor past the end. -/
  forward : v.before.position ≤ v.after.position
  within : v.after.position ≤ ts.length
  /-- The question for the end moves nothing. -/
  finish : v.call = .finish → v.after = v.before
  /-- A tree has as its leaves the tokens between the two cursors. -/
  leaves : ∀ tree, v.answer = .ok (some tree) →
    tree.leaves = (ts.drop v.before.position).take (v.after.position - v.before.position)

theorem Call.answer_tokens (call : Call) (c : Cursor) : (call.answer c).2.tokens = c.tokens := by
  cases call with
  | rule r => exact r.apply_tokens c
  | finish => rfl

theorem Call.answer_forward (call : Call) (c : Cursor) : c.position ≤ (call.answer c).2.position := by
  cases call with
  | rule r =>
    show c.position ≤ (r.apply c).2.position
    rw [r.apply_position]
    omega
  | finish => exact Nat.le_refl _

theorem Call.answer_leaves {call : Call} {c : Cursor} {tree : Tree} (h : (call.answer c).1 = .ok (some tree)) :
    tree.leaves = c.ahead.take ((call.answer c).2.position - c.position) := by
  cases call with
  | rule r =>
    have hrule : (r.apply c).1 = .ok tree := by
      simp only [answer] at h
      cases ha : (r.apply c).1 with
      | error e =>
        rw [ha] at h
        cases h
      | ok tree' =>
        rw [ha] at h
        cases h
        rfl
    exact Rule.apply_leaves hrule
  | finish =>
    simp only [answer] at h
    cases hf : Grammar.finish c <;> rw [hf] at h <;> cases h

theorem Call.conserves (call : Call) {ts : List Token} {c : Cursor} (hc : c.tokens = ts) :
    Visit.Conserves ts ⟨call, c, (call.answer c).1, (call.answer c).2⟩ := by
  have hnext : (call.answer c).2.tokens = ts := by rw [call.answer_tokens, hc]
  constructor
  case aheadBefore => rw [← hc]; exact c.ahead_eq_drop
  case aheadAfter => rw [← hnext]; exact (call.answer c).2.ahead_eq_drop
  case forward => exact call.answer_forward c
  case within => rw [← hnext]; exact (call.answer c).2.position_le_length
  case finish =>
    intro hfinish
    dsimp only at hfinish
    subst hfinish
    rfl
  case leaves =>
    intro tree htree
    rw [← hc, ← c.ahead_eq_drop]
    exact Call.answer_leaves htree

/-! ## A whole run -/

theorem tokens_cursorAfter (calls : List Call) : ∀ c : Cursor, (cursorAfter c calls).tokens = c.tokens := by
  induction calls with
  | nil => exact fun c => rfl
  | cons call calls ih =>
    intro c
    exact (ih (call.answer c).2).trans (call.answer_tokens c)

/-- Each call of a run is answered at a cursor of the same unit, not in front of the first. -/
theorem exists_cursor_of_mem_visits (calls : List Call) : ∀ {c : Cursor}, ∀ v ∈ visits c calls,
    ∃ call d, d.tokens = c.tokens ∧ c.position ≤ d.position ∧ v = ⟨call, d, (call.answer d).1, (call.answer d).2⟩ := by
  induction calls with
  | nil =>
    intro c v hv
    cases hv
  | cons call calls ih =>
    intro c v hv
    rcases List.mem_cons.mp hv with rfl | hv
    · exact ⟨call, c, rfl, Nat.le_refl _, rfl⟩
    · obtain ⟨call', d, hd, hle, hv⟩ := ih v hv
      exact ⟨call', d, hd.trans (call.answer_tokens c), Nat.le_trans (call.answer_forward c) hle, hv⟩

theorem pairwise_visits (calls : List Call) : ∀ c : Cursor,
    (visits c calls).Pairwise fun v w => v.after.position ≤ w.before.position := by
  induction calls with
  | nil => exact fun c => .nil
  | cons call calls ih =>
    intro c
    refine List.pairwise_cons.mpr ⟨fun w hw => ?_, ih _⟩
    obtain ⟨_, d, -, hle, rfl⟩ := exists_cursor_of_mem_visits calls w hw
    exact hle

/-- No run of calls on the tokens of a unit loses a token, takes one twice or changes their
    order: this holds of each call, later calls go on behind earlier ones, and behind all of them
    the tokens not passed are still ahead. -/
theorem session_conserves (ts : List Token) (calls : List Call) :
    (∀ v ∈ visits (.ofTokens ts) calls, v.Conserves ts) ∧
      ((visits (.ofTokens ts) calls).Pairwise fun v w => v.after.position ≤ w.before.position) ∧
      (cursorAfter (.ofTokens ts) calls).ahead = ts.drop (cursorAfter (.ofTokens ts) calls).position := by
  have hc : (Cursor.ofTokens ts).tokens = ts := Cursor.tokens_ofTokens ts
  refine ⟨fun v hv => ?_, pairwise_visits calls _, ?_⟩
  · obtain ⟨call, c, hcursor, -, rfl⟩ := exists_cursor_of_mem_visits calls v hv
    exact call.conserves (hcursor.trans hc)
  · have hend := (cursorAfter (.ofTokens ts) calls).ahead_eq_drop
    rwa [tokens_cursorAfter, hc] at hend

/-- A statement fails in front of its third token, and a term goes on with that token. -/
theorem session_conserves_behind_failure :
    let token (k : Token.Kind) (text : String) : Token := ⟨k, text, default, 1⟩
    let one := token (.integerConstant 1) "1"
    let ts := [token (.keyword .letKw) "let", token .identifier "x", one, token (.symbol .semicolon) ";"]
    let calls : List Call := [.rule .letStatement, .rule .term, .finish]
    ∃ v ∈ visits (.ofTokens ts) calls, v.before.position = 2 ∧ v.after.position = 3 ∧
      v.answer = .ok (some (.node .term [.leaf one])) ∧ v.Conserves ts := by
  intro token one ts calls
  let c := ((Call.rule .letStatement).answer (.ofTokens ts)).2
  let v : Visit := ⟨.rule .term, c, ((Call.rule .term).answer c).1, ((Call.rule .term).answer c).2⟩
  have hv : v ∈ visits (.ofTokens ts) calls := List.mem_cons_of_mem _ List.mem_cons_self
  exact ⟨v, hv, by decide +kernel, by decide +kernel, rfl, (session_conserves ts calls).1 v hv⟩

end JackAnalyzer.Grammar
