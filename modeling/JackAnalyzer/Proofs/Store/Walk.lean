/-
  JackAnalyzer.Proofs.Store.Walk — where paths lead in a store without links. There a walk is
  the names of a path taken one by one from directories, and what a later store keeps of the
  directories on the way, it keeps of the walk.
  - `resolve_eq_ok_iff`: a path leads somewhere exactly where its names do.
  - `Keeps.resolve`: what has been reached is reached again.
-/

import JackAnalyzer.Store.Files

namespace JackAnalyzer.Store

/-- Nothing in the store is a link. -/
def LinkFree (s : Store) : Prop := ∀ l target, s.get? l ≠ some (.link target)

def IsEntryName (name : String) : Prop := name ≠ "" ∧ name ≠ "." ∧ name ≠ ".." ∧ name.utf8ByteSize ≤ nameLimit

/-- Names lead from one location to another. Each is taken from a directory, and what a name
    leads to is there. -/
inductive Leads (s : Store) : Location → List String → Location → Prop
  | done (dir : Location) : Leads s dir [] dir
  | stay {dir l : Location} {name : String} {rest : List String} :
      s.get? dir = some .directory → name = "" ∨ name = "." → Leads s dir rest l → Leads s dir (name :: rest) l
  | up {dir l : Location} {rest : List String} :
      s.get? dir = some .directory → Leads s dir.dropLast rest l → Leads s dir (".." :: rest) l
  | down {dir l : Location} {name : String} {rest : List String} :
      s.get? dir = some .directory → IsEntryName name → (s.get? (dir ++ [name])).isSome →
      Leads s (dir ++ [name]) rest l → Leads s dir (name :: rest) l

theorem exists_of_bind_eq_ok {α β : Type} {x : Except Failure α} {f : α → Except Failure β} {b : β}
    (h : (x >>= f) = .ok b) : ∃ a, x = .ok a ∧ f a = .ok b := by
  cases x with
  | error e => cases h
  | ok a => exact ⟨a, rfl, h⟩

/-! ## Walks -/

section Walk

variable {s : Store} {follow : Location → List String → Except Failure Location}

theorem enter_eq_ok_iff {dir : Location} : s.enter dir = .ok () ↔ s.get? dir = some .directory := by
  unfold enter
  split <;> simp_all

theorem walkWith_cons {aim : Aim} {dir : Location} {name : String} {rest : List String}
    (hdir : s.get? dir = some .directory) :
    walkWith s aim follow dir (name :: rest) =
      if name = "" || name = "." then walkWith s aim follow dir rest
      else if name = ".." then walkWith s aim follow dir.dropLast rest
      else if aim = .target && rest = [""] then .error .isDirectory
      else s.child? dir name >>= fun e =>
        match e with
        | none => if aim = .target && rest = [] then .ok (dir ++ [name]) else .error .notFound
        | some (.link target) => follow (startOf target dir) (steps target ++ rest)
        | some _ => walkWith s aim follow (dir ++ [name]) rest := by
  rw [walkWith, enter_eq_ok_iff.mpr hdir]
  rfl

theorem child?_eq_ok {dir : Location} {name : String} {e : Option Entry} (h : s.child? dir name = .ok e) :
    name.utf8ByteSize ≤ nameLimit ∧ s.get? (dir ++ [name]) = e := by
  unfold child? at h
  split at h
  · cases h
  · rename_i hlength
    exact ⟨Nat.le_of_not_lt hlength, Except.ok.inj h⟩

theorem walkWith_enter {aim : Aim} {dir l : Location} {name : String} {rest : List String}
    (h : walkWith s aim follow dir (name :: rest) = .ok l) : s.get? dir = some .directory := by
  rw [walkWith] at h
  obtain ⟨_, hdir, -⟩ := exists_of_bind_eq_ok h
  exact enter_eq_ok_iff.mp hdir

theorem walkWith_down (hs : s.LinkFree) {aim : Aim} {dir : Location} {name : String} {rest : List String}
    (hdir : s.get? dir = some .directory) (hname : IsEntryName name) (hthere : (s.get? (dir ++ [name])).isSome)
    (hslash : aim = .target → rest ≠ [""]) :
    walkWith s aim follow dir (name :: rest) = walkWith s aim follow (dir ++ [name]) rest := by
  obtain ⟨hempty, hdot, hdots, hlength⟩ := hname
  obtain ⟨e, he⟩ := Option.isSome_iff_exists.mp hthere
  have hchild : s.child? dir name = .ok (some e) := by rw [child?, if_neg (Nat.not_lt.mpr hlength), he]
  rw [walkWith_cons hdir, if_neg (by simp [hempty, hdot]), if_neg hdots, if_neg (by simpa using hslash), hchild]
  cases e with
  | link target => exact absurd he (hs _ _)
  | file content => rfl
  | directory => rfl

/-- Where names lead, a walk goes; to write a file, if no slash stands behind them. -/
theorem walkWith_of_leads (hs : s.LinkFree) {aim : Aim} {dir l : Location} {ns : List String} (h : s.Leads dir ns l)
    (hslash : aim = .target → "" ∉ ns) : walkWith s aim follow dir ns = .ok l := by
  induction h with
  | done dir => rfl
  | stay hdir hname _ ih =>
    rw [walkWith_cons hdir, if_pos (by simpa using hname), ih fun haim => List.not_mem_of_not_mem_cons (hslash haim)]
  | up hdir _ ih =>
    rw [walkWith_cons hdir, if_neg (by decide), if_pos rfl, ih fun haim => List.not_mem_of_not_mem_cons (hslash haim)]
  | down hdir hname hthere _ ih =>
    have hrest := fun haim => List.not_mem_of_not_mem_cons (hslash haim)
    rw [walkWith_down hs hdir hname hthere fun haim hnil => hrest haim (by simp [hnil]), ih hrest]

/-- Names in front lead a walk on, as long as one is left that is not the slash at the end. -/
theorem walkWith_append_of_leads (hs : s.LinkFree) {aim : Aim} {dir l : Location} {ns ms : List String}
    (h : s.Leads dir ns l) (hms : ms ≠ []) (hslash : ms ≠ [""]) :
    walkWith s aim follow dir (ns ++ ms) = walkWith s aim follow l ms := by
  induction h with
  | done dir => rfl
  | stay hdir hname _ ih => rw [List.cons_append, walkWith_cons hdir, if_pos (by simpa using hname), ih]
  | up hdir _ ih => rw [List.cons_append, walkWith_cons hdir, if_neg (by decide), if_pos rfl, ih]
  | @down dir l name rest hdir hname hthere _ ih =>
    have hrest : rest ++ ms ≠ [""] := by
      intro heq
      rcases List.append_eq_singleton_iff.mp heq with ⟨-, h⟩ | ⟨-, h⟩
      · exact hslash h
      · exact hms h
    rw [List.cons_append, walkWith_down hs hdir hname hthere fun _ => hrest, ih]

/-- Names behind others are taken where those lead, and where those lead nowhere the walk ends. -/
theorem walkWith_append (hs : s.LinkFree) (ns ms : List String) : ∀ dir, walkWith s .present follow dir (ns ++ ms) =
    walkWith s .present follow dir ns >>= fun l => walkWith s .present follow l ms := by
  induction ns with
  | nil => exact fun dir => rfl
  | cons name ns ih =>
    intro dir
    by_cases hdir : s.get? dir = some .directory
    · rw [List.cons_append, walkWith_cons hdir, walkWith_cons hdir]
      by_cases hidle : (decide (name = "") || decide (name = ".")) = true
      · rw [if_pos hidle, if_pos hidle, ih]
      rw [if_neg hidle, if_neg hidle]
      by_cases hdots : name = ".."
      · rw [if_pos hdots, if_pos hdots, ih]
      rw [if_neg hdots, if_neg hdots, if_neg (by simp), if_neg (by simp)]
      cases hchild : s.child? dir name with
      | error f => rfl
      | ok e =>
        cases e with
        | none => simp [bind, Except.bind]
        | some e =>
          cases e with
          | link target => exact absurd (child?_eq_ok hchild).2 (hs _ _)
          | file content => exact ih _
          | directory => exact ih _
    · cases henter : s.enter dir with
      | ok u => exact absurd (enter_eq_ok_iff.mp henter) hdir
      | error f =>
        rw [List.cons_append, walkWith, walkWith, henter]
        rfl

/-- Where a walk goes: where the names lead, or, for a file to be written, to a new name in the
    directory that the names in front of it lead to. -/
def Reaches (s : Store) (aim : Aim) (dir : Location) (ns : List String) (l : Location) : Prop :=
  s.Leads dir ns l ∨ aim = .target ∧ ∃ front name above, ns = front ++ [name] ∧ s.Leads dir front above ∧
    s.get? above = some .directory ∧ IsEntryName name ∧ l = above ++ [name]

theorem Reaches.cons {aim : Aim} {dir next l : Location} {name : String} {rest : List String}
    (hstep : ∀ ns l, s.Leads next ns l → s.Leads dir (name :: ns) l) (h : s.Reaches aim next rest l) :
    s.Reaches aim dir (name :: rest) l := by
  rcases h with h | ⟨haim, front, last, above, rfl, hfront, hrest⟩
  · exact Or.inl (hstep rest l h)
  · exact Or.inr ⟨haim, name :: front, last, above, rfl, hstep front above hfront, hrest⟩

/-- A walk goes nowhere else. -/
theorem reaches_of_walkWith (hs : s.LinkFree) {aim : Aim} {dir l : Location} {ns : List String}
    (h : walkWith s aim follow dir ns = .ok l) : s.Reaches aim dir ns l := by
  induction ns generalizing dir with
  | nil =>
    obtain rfl := Except.ok.inj h
    exact Or.inl (.done dir)
  | cons name rest ih =>
    have hdir := walkWith_enter h
    rw [walkWith_cons hdir] at h
    split at h
    · rename_i hidle
      exact (ih h).cons fun ns l => .stay hdir (by simpa using hidle)
    rename_i hidle
    split at h
    · rename_i hdots
      exact (ih h).cons fun ns l hl => hdots ▸ .up hdir hl
    rename_i hdots
    -- a file to be written with a slash behind its name
    split at h
    · cases h
    obtain ⟨e, hchild, hrest⟩ := exists_of_bind_eq_ok h
    obtain ⟨hlength, he⟩ := child?_eq_ok hchild
    have hname : IsEntryName name := by
      simp only [Bool.or_eq_true, decide_eq_true_eq, not_or] at hidle
      exact ⟨hidle.1, hidle.2, hdots, hlength⟩
    cases e with
    | none =>
      dsimp only at hrest
      split at hrest
      · rename_i hlast
        simp only [Bool.and_eq_true, decide_eq_true_eq] at hlast
        obtain ⟨haim, rfl⟩ := hlast
        exact Or.inr ⟨haim, [], name, dir, rfl, .done dir, hdir, hname, (Except.ok.inj hrest).symm⟩
      · cases hrest
    | some e =>
      cases e with
      | link target => exact absurd he (hs _ _)
      | file content => exact (ih hrest).cons fun ns l => .down hdir hname (by rw [he]; rfl)
      | directory => exact (ih hrest).cons fun ns l => .down hdir hname (by rw [he]; rfl)

theorem walk_eq_ok_iff (hs : s.LinkFree) {n : Nat} {dir l : Location} {ns : List String} :
    s.walk .present n dir ns = .ok l ↔ s.Leads dir ns l := by
  have hwalk : ∃ follow, s.walk .present n = walkWith s .present follow := by
    cases n <;> exact ⟨_, rfl⟩
  obtain ⟨follow, hwalk⟩ := hwalk
  rw [hwalk]
  refine ⟨fun h => ?_, fun h => walkWith_of_leads hs h nofun⟩
  rcases reaches_of_walkWith hs h with h | ⟨haim, -⟩
  · exact h
  · cases haim

end Walk

/-! ## Paths -/

section Resolve

variable {s : Store}

/-- A path leads to something that is there exactly where its names do. -/
theorem resolve_eq_ok_iff (hs : s.LinkFree) {path : String} {l : Location} :
    s.resolve .present path = .ok l ↔ admitted path = .ok () ∧ s.Leads (startOf path s.here) (steps path) l := by
  unfold resolve
  cases admitted path with
  | error e => simp [bind, Except.bind]
  | ok u => simp only [bind, Except.bind, walk_eq_ok_iff hs, true_and]

theorem steps_eq (path : String) : steps path = names path ∨ steps path = names path ++ [""] := by
  unfold steps
  split
  · exact Or.inr rfl
  · exact Or.inl (List.append_nil _)

theorem reaches_of_resolve (hs : s.LinkFree) {path : String} {l : Location} (h : s.resolve .target path = .ok l) :
    admitted path = .ok () ∧ s.Reaches .target (startOf path s.here) (steps path) l := by
  obtain ⟨_, hadmitted, h⟩ := exists_of_bind_eq_ok h
  exact ⟨hadmitted, reaches_of_walkWith hs h⟩

end Resolve

/-! ## Later stores -/

/-- What a later store keeps for a walk: directories stay directories, and nothing is removed. -/
structure Keeps (s t : Store) : Prop where
  here : t.here = s.here
  directory (l : Location) : s.get? l = some .directory → t.get? l = some .directory
  isSome (l : Location) : (s.get? l).isSome → (t.get? l).isSome

theorem Leads.keeps {s t : Store} {dir l : Location} {ns : List String} (h : s.Leads dir ns l) (hk : s.Keeps t) :
    t.Leads dir ns l := by
  induction h with
  | done dir => exact .done dir
  | stay hdir hname _ ih => exact .stay (hk.directory _ hdir) hname ih
  | up hdir _ ih => exact .up (hk.directory _ hdir) ih
  | down hdir hname hthere _ ih => exact .down (hk.directory _ hdir) hname (hk.isSome _ hthere) ih

theorem Keeps.resolve {s t : Store} (hk : s.Keeps t) (hs : s.LinkFree) (ht : t.LinkFree) {path : String} {l : Location}
    (h : s.resolve .present path = .ok l) : t.resolve .present path = .ok l := by
  obtain ⟨hadmitted, hl⟩ := (resolve_eq_ok_iff hs).mp h
  exact (resolve_eq_ok_iff ht).mpr ⟨hadmitted, by rw [hk.here]; exact hl.keeps hk⟩

/-! ## Rows of names -/

section Rows

variable {s : Store} {dir l : Location}

theorem Leads.unique (hs : s.LinkFree) {m : Location} {ns : List String} (hl : s.Leads dir ns l)
    (hm : s.Leads dir ns m) : l = m :=
  Except.ok.inj (((walk_eq_ok_iff hs (n := 0)).mpr hl).symm.trans ((walk_eq_ok_iff hs).mpr hm))

theorem Leads.append {above : Location} {front rest : List String} (hfront : s.Leads dir front above)
    (hrest : s.Leads above rest l) : s.Leads dir (front ++ rest) l := by
  induction hfront with
  | done dir => exact hrest
  | stay hdir hname _ ih => exact .stay hdir hname (ih hrest)
  | up hdir _ ih => exact .up hdir (ih hrest)
  | down hdir hname hthere _ ih => exact .down hdir hname hthere (ih hrest)

theorem Leads.exists_above {front rest : List String} (h : s.Leads dir (front ++ rest) l) :
    ∃ above, s.Leads dir front above ∧ s.Leads above rest l := by
  induction front generalizing dir with
  | nil => exact ⟨dir, .done dir, h⟩
  | cons name front ih =>
    cases h with
    | stay hdir hname hl =>
      obtain ⟨above, hfront, hrest⟩ := ih hl
      exact ⟨above, .stay hdir hname hfront, hrest⟩
    | up hdir hl =>
      obtain ⟨above, hfront, hrest⟩ := ih hl
      exact ⟨above, .up hdir hfront, hrest⟩
    | down hdir hname hthere hl =>
      obtain ⟨above, hfront, hrest⟩ := ih hl
      exact ⟨above, .down hdir hname hthere hfront, hrest⟩

theorem Leads.directory_of_ne_nil {ns : List String} (h : s.Leads dir ns l) (hne : ns ≠ []) :
    s.get? dir = some .directory := by
  cases h with
  | done dir => exact absurd rfl hne
  | stay hdir _ _ => exact hdir
  | up hdir _ => exact hdir
  | down hdir _ _ _ => exact hdir

theorem Leads.single {name : String} (hdot : name ≠ "." ∧ name ≠ ".." ∧ name ≠ "") (h : s.Leads dir [name] l) :
    s.get? dir = some .directory ∧ name.utf8ByteSize ≤ nameLimit ∧ l = dir ++ [name] := by
  cases h with
  | stay hdir hname hl =>
    rcases hname with rfl | rfl
    · exact absurd rfl hdot.2.2
    · exact absurd rfl hdot.1
  | up hdir hl => exact absurd rfl hdot.2.1
  | down hdir hname hthere hl =>
    cases hl
    exact ⟨hdir, hname.2.2.2, rfl⟩

theorem Leads.stays {name : String} (hname : name = "") (h : s.Leads dir [name] l) : l = dir := by
  cases h with
  | stay hdir _ hl =>
    cases hl
    rfl
  | up hdir hl => exact absurd hname (by decide)
  | down hdir hentry => exact absurd hname hentry.1

/-- A path leads where its names do without the empty one at the end. -/
theorem leads_of_resolve (hs : s.LinkFree) {path : String} (h : s.resolve .present path = .ok l) :
    s.Leads (startOf path s.here) (names path) l := by
  obtain ⟨-, hl⟩ := (resolve_eq_ok_iff hs).mp h
  rcases steps_eq path with hsteps | hsteps
  · rwa [hsteps] at hl
  · rw [hsteps] at hl
    obtain ⟨above, hnames, hlast⟩ := hl.exists_above
    rwa [hlast.stays rfl]

end Rows

end JackAnalyzer.Store
