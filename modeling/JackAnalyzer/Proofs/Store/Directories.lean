/-
  JackAnalyzer.Proofs.Store.Directories — making a directory and those above it, a second time.
  What was made is found again. What could not be made cannot be made then either, and for the
  same reason, unless two dots in the path lead back out of what was made for it.
  - `isDirectory_of_makeDirs`: where it succeeds the directory is there afterwards.
  - `makeDirs_again`: where it fails it fails again, in the same way.
-/

import Mathlib.Data.List.Induction
import JackAnalyzer.Proofs.Store.Parents

namespace JackAnalyzer

namespace Store

open JackAnalyzer.Path

/-! ## Where things stand -/

/-- Whatever is there stands in a directory, and relative paths start from one. -/
structure Grounded (s : Store) : Prop where
  start : s.get? s.here = some .directory
  above : ∀ m ∈ s.entries, s.get? m.1.dropLast = some .directory

instance decidableGrounded (s : Store) : Decidable s.Grounded :=
  decidable_of_iff (s.get? s.here = some .directory ∧ ∀ m ∈ s.entries, s.get? m.1.dropLast = some .directory)
    ⟨fun h => ⟨h.1, h.2⟩, fun h => ⟨h.1, h.2⟩⟩

section Grounds

variable {s t : Store} {dir l : Location} {ns : List String}

theorem Grounded.get?_startOf (hg : s.Grounded) (path : String) : s.get? (startOf path s.here) = some .directory := by
  unfold startOf
  split
  · rfl
  · exact hg.start

theorem Grounded.get?_dropLast (hg : s.Grounded) (h : (s.get? l).isSome) : s.get? l.dropLast = some .directory := by
  by_cases hl : l = []
  · subst hl
    rfl
  · rw [get?, if_neg hl, Option.isSome_iff_exists] at h
    obtain ⟨e, he⟩ := h
    obtain ⟨front, rest, hentries, -⟩ := List.lookup_eq_some_iff.mp he
    exact hg.above (l, e) (by rw [hentries]; exact List.mem_append_right _ List.mem_cons_self)

theorem Grounded.directory_of_below (hg : s.Grounded) {below : Location} (hne : below ≠ [])
    (h : (s.get? (l ++ below)).isSome) : s.get? l = some .directory := by
  induction below using List.reverseRecOn with
  | nil => exact absurd rfl hne
  | append_singleton below name ih =>
    have habove := hg.get?_dropLast h
    rw [← List.append_assoc, List.dropLast_concat] at habove
    by_cases hbelow : below = []
    · rwa [hbelow, List.append_nil] at habove
    · exact ih hbelow (by rw [habove]; rfl)

theorem Leads.exists_below (h : s.Leads dir ns l) (hdots : ".." ∉ ns) : ∃ below, l = dir ++ below := by
  induction h with
  | done dir => exact ⟨[], (List.append_nil dir).symm⟩
  | stay _ _ _ ih => exact ih (List.not_mem_of_not_mem_cons hdots)
  | up _ _ _ => exact absurd List.mem_cons_self hdots
  | down _ _ _ _ ih =>
    obtain ⟨below, hbelow⟩ := ih (List.not_mem_of_not_mem_cons hdots)
    exact ⟨_, by rw [hbelow, List.append_assoc]⟩

theorem Leads.isSome (h : s.Leads dir ns l) (hdots : ".." ∉ ns) (hdir : (s.get? dir).isSome) : (s.get? l).isSome := by
  induction h with
  | done dir => exact hdir
  | stay _ _ _ ih => exact ih (List.not_mem_of_not_mem_cons hdots) hdir
  | up _ _ _ => exact absurd List.mem_cons_self hdots
  | down _ _ hthere _ ih => exact ih (List.not_mem_of_not_mem_cons hdots) hthere

/-- Where names without two dots lead to what was there before directories were made, they led
    to it before. -/
theorem Leads.before (hg : s.Grounded) {dirs : Location → Prop} (ha : s.Alters t (fun _ => False) dirs)
    (h : t.Leads dir ns l) (hdots : ".." ∉ ns) (hthere : (s.get? l).isSome) : s.Leads dir ns l := by
  have hsame {k : Location} (hk : (s.get? k).isSome) : t.get? k = s.get? k := ha.get?_eq (fun hf => hf) hk
  induction h with
  | done dir => exact .done dir
  | @stay dir l name rest hdir hname hrest ih =>
    have hleads := ih (List.not_mem_of_not_mem_cons hdots) hthere
    obtain ⟨below, rfl⟩ := hrest.exists_below (List.not_mem_of_not_mem_cons hdots)
    refine .stay ?_ hname hleads
    by_cases hbelow : below = []
    · rw [hbelow, List.append_nil] at hthere
      rwa [← hsame hthere]
    · exact hg.directory_of_below hbelow hthere
  | up _ _ _ => exact absurd List.mem_cons_self hdots
  | @down dir l name rest hdir hname _ hrest ih =>
    have hleads := ih (List.not_mem_of_not_mem_cons hdots) hthere
    obtain ⟨below, rfl⟩ := hrest.exists_below (List.not_mem_of_not_mem_cons hdots)
    rw [List.append_assoc] at hthere
    have hfront : s.get? dir = some .directory := hg.directory_of_below (by simp) hthere
    rw [← List.append_assoc] at hthere
    refine .down hfront hname ?_ hleads
    by_cases hbelow : below = []
    · rwa [hbelow, List.append_nil] at hthere
    · rw [hg.directory_of_below hbelow hthere]
      rfl

end Grounds

/-! ## Where the names of a path lead -/

/-- What stands at the names of a path, or why they lead nowhere. -/
def reach (s : Store) (path : String) : Except Failure Location :=
  s.walk .present linkLimit (startOf path s.here) (names path)

section Making

variable {s t : Store} (hs : s.LinkFree) {path : String}

include hs

theorem walk_append (n : Nat) (ns ms : List String) (dir : Location) :
    s.walk .present n dir (ns ++ ms) = s.walk .present n dir ns >>= fun l => s.walk .present n l ms := by
  cases n <;> exact walkWith_append hs ns ms dir

omit hs in
theorem walk_of_not_directory {n : Nat} {dir : Location} {ns : List String} (hne : ns ≠ [])
    (hthere : (s.get? dir).isSome) (h : s.get? dir ≠ some .directory) :
    s.walk .present n dir ns = .error .notDirectory := by
  obtain ⟨name, rest, rfl⟩ := List.exists_cons_of_ne_nil hne
  have henter : s.enter dir = .error .notDirectory := by
    unfold enter
    split <;> simp_all
  cases n <;> rw [walk, walkWith, henter] <;> rfl

theorem isDirectory_iff : s.isDirectory path = true ↔
    admitted path = .ok () ∧ ∃ l, s.reach path = .ok l ∧ s.get? l = some .directory := by
  have hat : s.isDirectory path = true ↔ ∃ l, s.resolve .present path = .ok l ∧ s.get? l = some .directory := by
    unfold isDirectory at?
    cases s.resolve .present path with
    | error f => simp
    | ok l =>
      cases h : s.get? l with
      | none => simp [h]
      | some e => cases e <;> simp [h]
  rw [hat]
  simp only [reach, walk_eq_ok_iff hs]
  constructor
  · rintro ⟨l, hl, hdir⟩
    exact ⟨((resolve_eq_ok_iff hs).mp hl).1, l, leads_of_resolve hs hl, hdir⟩
  · rintro ⟨hadmitted, l, hl, hdir⟩
    refine ⟨l, (resolve_eq_ok_iff hs).mpr ⟨hadmitted, ?_⟩, hdir⟩
    rcases steps_eq path with hsteps | hsteps
    · rwa [hsteps]
    · rw [hsteps]
      exact hl.append (.stay hdir (Or.inl rfl) (.done _))

omit hs in
theorem Keeps.isDirectory (hk : s.Keeps t) (hs : s.LinkFree) (ht : t.LinkFree) (h : s.isDirectory path = true) :
    t.isDirectory path = true := by
  obtain ⟨hadmitted, l, hl, hdir⟩ := (isDirectory_iff hs).mp h
  refine (isDirectory_iff ht).mpr ⟨hadmitted, l, (walk_eq_ok_iff ht).mpr ?_, hk.directory l hdir⟩
  rw [hk.here]
  exact ((walk_eq_ok_iff hs).mp hl).keeps hk

theorem ensureDir_of_place {e : Failure} (hreach : ∀ l, s.reach path ≠ .ok l) (h : s.place path = .error e) :
    s.ensureDir path = .error e := by
  have hmake : s.makeDir path = .error e := by rw [makeDir, make, h]; rfl
  have hnot : ¬ s.isDirectory path = true := by
    rw [isDirectory_iff hs]
    rintro ⟨-, l, hl, -⟩
    exact hreach l hl
  rw [ensureDir, hmake]
  exact if_neg hnot

/-- Where the names in front of the last do not lead to a directory, that is why none is made. -/
theorem ensureDir_of_front {front : List String} {name : String} {e : Failure} (hadmitted : admitted path = .ok ())
    (hnames : names path = front ++ [name]) (h : s.walk .present linkLimit (startOf path s.here) front = .error e) :
    s.ensureDir path = .error e := by
  refine ensureDir_of_place hs (fun l hl => ?_) ?_
  · rw [reach, hnames, walk_append hs, h] at hl
    cases hl
  · rw [place, hadmitted, hnames]
    simp [bind, Except.bind, h]

/-- One name that leads nowhere, though the directory may hold it. -/
theorem walk_single_eq_error {n : Nat} {above : Location} {name : String} {e : Failure}
    (h : s.walk .present n above [name] = .error e) (he : e ≠ .notFound) :
    s.enter above = .error e ∨
      s.enter above = .ok () ∧ name ≠ "." ∧ name ≠ ".." ∧ s.child? above name = .error e := by
  obtain ⟨follow, hwalk⟩ : ∃ follow, s.walk .present n = walkWith s .present follow := by
    cases n <;> exact ⟨_, rfl⟩
  rw [hwalk] at h
  cases henter : s.enter above with
  | error f =>
    rw [walkWith, henter] at h
    obtain rfl := Except.error.inj h
    exact Or.inl rfl
  | ok u =>
    rw [walkWith_cons (enter_eq_ok_iff.mp henter)] at h
    split at h
    · cases h
    rename_i hidle
    split at h
    · cases h
    rename_i hdots
    rw [if_neg (by simp)] at h
    refine Or.inr ⟨rfl, fun hdot => hidle (by simp [hdot]), hdots, ?_⟩
    cases hchild : s.child? above name with
    | error f =>
      rw [hchild] at h
      obtain rfl := Except.error.inj h
      rfl
    | ok entry =>
      rw [hchild] at h
      cases entry with
      | none => exact absurd (Except.error.inj h).symm he
      | some entry =>
        cases entry with
        | link target => exact absurd (child?_eq_ok hchild).2 (hs _ _)
        | file content => cases h
        | directory => cases h

/-- What stands in the way of the names of a path is why no directory is made there. -/
theorem ensureDir_of_reach {e : Failure} (hadmitted : admitted path = .ok ()) (h : s.reach path = .error e)
    (he : e ≠ .notFound) : s.ensureDir path = .error e := by
  rcases List.eq_nil_or_concat' (names path) with hnil | ⟨front, name, hnames⟩
  · rw [reach, hnil] at h
    cases h
  cases hfront : s.walk .present linkLimit (startOf path s.here) front with
  | error f =>
    rw [reach, hnames, walk_append hs, hfront] at h
    obtain rfl := Except.error.inj h
    exact ensureDir_of_front hs hadmitted hnames hfront
  | ok above =>
    refine ensureDir_of_place hs (fun l hl => by rw [h] at hl; cases hl) ?_
    rw [reach, hnames, walk_append hs, hfront] at h
    rw [place, hadmitted, hnames]
    rcases walk_single_eq_error hs h he with henter | ⟨henter, hdot, hdots, hchild⟩
    · simp [bind, Except.bind, hfront, henter]
    · simp [bind, Except.bind, hfront, henter, hdot, hdots, hchild]

theorem ensureDir_of_isDirectory (h : s.isDirectory path = true) : s.ensureDir path = .ok s := by
  cases hmake : s.makeDir path with
  | error e => rw [ensureDir, hmake]; exact if_pos h
  | ok t =>
    -- nothing was at the place where one was made
    obtain ⟨-, l, hl, hdir⟩ := (isDirectory_iff hs).mp h
    obtain ⟨k, hk, hnone⟩ := exists_of_bind_eq_ok hmake
    obtain ⟨-, above, name, hnames, hfront, -, hname, rfl⟩ := place_eq_ok hs hk
    rw [reach, walk_eq_ok_iff hs, hnames] at hl
    obtain ⟨above', hfront', hlast⟩ := hl.exists_above
    obtain rfl := hfront.unique hs hfront'
    obtain ⟨-, -, rfl⟩ := hlast.single ⟨hname.2.1, hname.2.2.1, hname.1⟩
    rw [hdir] at hnone
    cases hnone

theorem isDirectory_of_ensureDir (h : s.ensureDir path = .ok t) : t.isDirectory path = true := by
  unfold ensureDir at h
  split at h
  · rename_i hmake
    obtain rfl := Except.ok.inj h
    obtain ⟨l, hl, hdir, -⟩ := alters_of_makeDir hs hmake
    unfold isDirectory at?
    rw [hl]
    dsimp only
    rw [hdir]
  · split at h
    · rename_i hdir
      exact Except.ok.inj h ▸ hdir
    · cases h

theorem ensureDir_of_admitted {e : Failure} (h : admitted path = .error e) : s.ensureDir path = .error e := by
  have hnot : ¬ s.isDirectory path = true := by
    rw [isDirectory_iff hs, h]
    exact fun hx => nomatch hx.1
  have hmake : s.makeDir path = .error e := by
    rw [makeDir, make, place, h]
    rfl
  rw [ensureDir, hmake]
  exact if_neg hnot

theorem admitted_of_ensureDir (hne : path ≠ "") (h : s.ensureDir path = .error .notFound) :
    admitted path = .ok () := by
  cases hadmitted : admitted path with
  | ok u => rfl
  | error e =>
    rw [ensureDir_of_admitted hs hadmitted] at h
    obtain rfl := Except.error.inj h
    -- only the empty path is refused as one that is not there
    unfold admitted at hadmitted
    rw [if_neg (show ¬ path.isEmpty = true by simpa using hne)] at hadmitted
    split at hadmitted
    · cases hadmitted
    · split at hadmitted <;> cases hadmitted

theorem isDirectory_parent (hne : parent path ≠ "") (h : s.isDirectory path = true) :
    s.isDirectory (parent path) = true := by
  obtain ⟨hadmitted, l, hl, -⟩ := (isDirectory_iff hs).mp h
  obtain ⟨front, name, hnames⟩ := names_parent hne
  rw [reach, walk_eq_ok_iff hs, hnames, startOf_parent hne] at hl
  obtain ⟨above, habove, hrest⟩ := hl.exists_above
  refine (isDirectory_iff hs).mpr ⟨admitted_parent hadmitted hne, above, (walk_eq_ok_iff hs).mpr habove, ?_⟩
  exact hrest.directory_of_ne_nil (by simp)

end Making

section Missing

variable {s t : Store} {path : String}

theorem ensureDir_of_reach_parent (hs : s.LinkFree) (hadmitted : admitted path = .ok ()) (hne : parent path ≠ "")
    {e : Failure} (h : s.reach (parent path) = .error e) : s.ensureDir path = .error e := by
  obtain ⟨front, name, hnames⟩ := names_parent hne
  rw [← List.append_assoc] at hnames
  refine ensureDir_of_front hs hadmitted hnames ?_
  rw [reach] at h
  rw [walk_append hs, startOf_parent hne, h]
  rfl

/-- Where a directory cannot be made because what is above it is missing, and those above are not
    made either, no file has come in the way. -/
theorem exists_reach_parent_error (hs : s.LinkFree) (hg : s.Grounded) {dirs : Location → Prop}
    (hmade : s.Alters t (fun _ => False) dirs) (hadmitted : admitted path = .ok ()) (hne : parent path ≠ "")
    (hdots : ".." ∉ names (parent path)) (hmissing : s.ensureDir path = .error .notFound)
    (hnot : ¬ t.isDirectory (parent path) = true) : ∃ e, t.reach (parent path) = .error e := by
  have ht := hmade.linkFree hs
  cases hreach : t.reach (parent path) with
  | error e => exact ⟨e, rfl⟩
  | ok l =>
    have hnodir : t.get? l ≠ some .directory := fun hdir =>
      hnot ((isDirectory_iff ht).mpr ⟨admitted_parent hadmitted hne, l, hreach, hdir⟩)
    -- a file there was there before, and so was the way to it
    have hleads := (walk_eq_ok_iff ht).mp hreach
    rw [hmade.here] at hleads
    have hthere := hleads.isSome hdots (by rw [hmade.keeps.directory _ (hg.get?_startOf _)]; rfl)
    have hsame : t.get? l = s.get? l := by
      rcases hmade.get? l with hsame | ⟨hf, -⟩ | ⟨-, -, hdir⟩
      · exact hsame
      · exact hf.elim
      · exact absurd hdir hnodir
    rw [hsame] at hthere hnodir
    have hbefore : s.reach (parent path) = .ok l := (walk_eq_ok_iff hs).mpr (hleads.before hg hmade hdots hthere)
    obtain ⟨front, name, hnames⟩ := names_parent hne
    have hblocked : s.reach path = .error .notDirectory := by
      rw [reach] at hbefore ⊢
      rw [hnames, startOf_parent hne, walk_append hs, hbefore]
      exact walk_of_not_directory (by simp) hthere hnodir
    rw [ensureDir_of_reach hs hadmitted hblocked nofun] at hmissing
    cases hmissing

end Missing

/-! ## Directories and those above them -/

section MakeDirs

variable {s t : Store} {path : String} {n : Nat} {e : Failure}

theorem makeDirsWithin_of_made (n : Nat) (hne : path ≠ "") (h : s.ensureDir path = .ok t) :
    makeDirsWithin (n + 1) s path = (none, t) := by
  simp [makeDirsWithin, hne, h]

theorem makeDirsWithin_of_error (n : Nat) (hne : path ≠ "") (h : s.ensureDir path = .error e) (he : e ≠ .notFound) :
    makeDirsWithin (n + 1) s path = (some e, s) := by
  cases e <;> first | exact absurd rfl he | simp [makeDirsWithin, hne, h]

theorem makeDirsWithin_of_parent_error (hne : path ≠ "") (h : s.ensureDir path = .error .notFound)
    (hparent : makeDirsWithin n s (parent path) = (some e, t)) : makeDirsWithin (n + 1) s path = (some e, t) := by
  simp [makeDirsWithin, hne, h, hparent]

theorem makeDirsWithin_of_parent (hne : path ≠ "") (h : s.ensureDir path = .error .notFound)
    (hparent : makeDirsWithin n s (parent path) = (none, t)) : makeDirsWithin (n + 1) s path =
      match t.ensureDir path with
      | .ok u => (none, u)
      | .error e => (some e, t) := by
  cases hmake : t.ensureDir path <;> simp [makeDirsWithin, hne, h, hparent, hmake]

/-- How it ends well: in the end the directory was there or could be made. -/
theorem exists_of_makeDirsWithin (hs : s.LinkFree) (hne : path ≠ "") (h : makeDirsWithin n s path = (none, t)) :
    ∃ u : Store, u.LinkFree ∧ u.ensureDir path = .ok t := by
  cases n with
  | zero => cases h
  | succ n =>
    cases hmake : s.ensureDir path with
    | ok u =>
      rw [makeDirsWithin_of_made n hne hmake] at h
      exact ⟨s, hs, hmake.trans (congrArg Except.ok (Prod.mk.inj h).2)⟩
    | error e =>
      by_cases he : e = .notFound
      · subst he
        have hlinks := (alters_of_makeDirsWithin hs (n := n) (parent path)).linkFree hs
        cases hparent : makeDirsWithin n s (parent path) with
        | mk failure u =>
          rw [hparent] at hlinks
          cases failure with
          | some e =>
            rw [makeDirsWithin_of_parent_error hne hmake hparent] at h
            cases h
          | none =>
            rw [makeDirsWithin_of_parent hne hmake hparent] at h
            split at h
            · rename_i hu
              exact ⟨u, hlinks, hu.trans (congrArg Except.ok (Prod.mk.inj h).2)⟩
            · cases h
      · rw [makeDirsWithin_of_error n hne hmake he] at h
        cases h

/-- How it ends in a failure: something other than what is missing above is in the way, or those
    above cannot be made, or they can but then it cannot. -/
theorem makeDirsWithin_error (h : makeDirsWithin (n + 1) s path = (some e, t)) : path ≠ "" ∧
    (t = s ∧ s.ensureDir path = .error e ∧ e ≠ .notFound ∨ s.ensureDir path = .error .notFound ∧
      (makeDirsWithin n s (parent path) = (some e, t) ∨
        makeDirsWithin n s (parent path) = (none, t) ∧ t.ensureDir path = .error e)) := by
  have hne : path ≠ "" := by
    rintro rfl
    cases h
  refine ⟨hne, ?_⟩
  cases hmake : s.ensureDir path with
  | ok u =>
    rw [makeDirsWithin_of_made n hne hmake] at h
    cases h
  | error e' =>
    by_cases he : e' = .notFound
    · subst he
      refine Or.inr ⟨rfl, ?_⟩
      cases hparent : makeDirsWithin n s (parent path) with
      | mk failure u =>
        cases failure with
        | some e' => exact Or.inl ((makeDirsWithin_of_parent_error hne hmake hparent).symm.trans h)
        | none =>
          rw [makeDirsWithin_of_parent hne hmake hparent] at h
          split at h
          · cases h
          · rename_i hu
            obtain ⟨hfailure, rfl⟩ := Prod.mk.inj h
            exact Or.inr ⟨rfl, hu.trans (congrArg Except.error (Option.some.inj hfailure))⟩
    · rw [makeDirsWithin_of_error n hne hmake he] at h
      obtain ⟨hfailure, rfl⟩ := Prod.mk.inj h
      obtain rfl := Option.some.inj hfailure
      exact Or.inl ⟨rfl, rfl, he⟩

theorem isDirectory_of_makeDirsWithin (hs : s.LinkFree) (hne : path ≠ "") (h : makeDirsWithin n s path = (none, t)) :
    t.isDirectory path = true := by
  obtain ⟨u, hu, hmade⟩ := exists_of_makeDirsWithin hs hne h
  exact isDirectory_of_ensureDir hu hmade

theorem makeDirsWithin_of_isDirectory (hs : s.LinkFree) (n : Nat) (h : path = "" ∨ s.isDirectory path = true) :
    makeDirsWithin (n + 1) s path = (none, s) := by
  rcases h with rfl | h
  · rfl
  · rw [makeDirsWithin, ensureDir_of_isDirectory hs h]
    exact ite_self _

/-- What could not be made is not there, nor was it when it could not be made. -/
theorem not_isDirectory_of_makeDirsWithin (hs : s.LinkFree) (hn : path.length < n)
    (h : makeDirsWithin n s path = (some e, t)) : ¬ t.isDirectory path = true := by
  have hlinks := (alters_of_makeDirsWithin hs (n := n) path).linkFree hs
  rw [h] at hlinks
  induction n generalizing path with
  | zero => exact absurd hn (Nat.not_lt_zero _)
  | succ n ih =>
    intro hdir
    obtain ⟨hne, ⟨rfl, hmake, -⟩ | ⟨-, hparent | ⟨-, hmake⟩⟩⟩ := makeDirsWithin_error h
    · cases hmake.symm.trans (ensureDir_of_isDirectory hs hdir)
    · have hlength : (parent path).length < n := by
        have := length_parent_lt hne
        omega
      by_cases hnone : parent path = ""
      · obtain ⟨m, rfl⟩ := Nat.exists_eq_succ_of_ne_zero (Nat.ne_zero_of_lt hlength)
        rw [hnone] at hparent
        cases hparent
      · exact ih hlength hparent (isDirectory_parent hlinks hnone hdir)
    · cases hmake.symm.trans (ensureDir_of_isDirectory hlinks hdir)

/-- Behind those above it, which are there now, a directory is missed as it was missed then. -/
theorem makeDirsWithin_of_made_parent (hs : s.LinkFree) (hne : path ≠ "")
    (hparent : makeDirsWithin n s (parent path) = (none, t)) (hmake : t.ensureDir path = .error e) :
    makeDirsWithin (n + 1) t path = (some e, t) := by
  by_cases he : e = .notFound
  · subst he
    have hlinks := (alters_of_makeDirsWithin hs (n := n) (parent path)).linkFree hs
    rw [hparent] at hlinks
    have hthere : makeDirsWithin n t (parent path) = (none, t) := by
      cases n with
      | zero => cases hparent
      | succ n =>
        refine makeDirsWithin_of_isDirectory hlinks n ?_
        by_cases hnone : parent path = ""
        · exact Or.inl hnone
        · exact Or.inr (isDirectory_of_makeDirsWithin hs hnone hparent)
    rw [makeDirsWithin_of_parent hne hmake hthere, hmake]
  · exact makeDirsWithin_of_error n hne hmake he

/-- Where those above it cannot be made, that is why the directory cannot be made again. -/
theorem makeDirsWithin_of_stuck_parent (hs : s.LinkFree) (hg : s.Grounded) {dirs : Location → Prop}
    (hmade : s.Alters t (fun _ => False) dirs) (hne : path ≠ "") (hparent : parent path ≠ "")
    (hdots : ".." ∉ names (parent path)) (hmissing : s.ensureDir path = .error .notFound)
    (hagain : makeDirsWithin (n + 1) t (parent path) = (some e, t)) :
    makeDirsWithin (n + 2) t path = (some e, t) := by
  have ht := hmade.linkFree hs
  have hadmitted := admitted_of_ensureDir hs hne hmissing
  have hnot : ¬ t.isDirectory (parent path) = true := by
    intro hdir
    rw [makeDirsWithin_of_isDirectory ht n (Or.inr hdir)] at hagain
    cases hagain
  obtain ⟨e', he'⟩ := exists_reach_parent_error hs hg hmade hadmitted hparent hdots hmissing hnot
  have hmake := ensureDir_of_reach_parent ht hadmitted hparent he'
  by_cases hnone : e' = .notFound
  · subst hnone
    exact makeDirsWithin_of_parent_error hne hmake hagain
  · -- what is in the way is in the way of the parent too
    have hblocked := ensureDir_of_reach ht (admitted_parent hadmitted hparent) he' hnone
    rw [makeDirsWithin_of_error n hparent hblocked hnone] at hagain
    obtain rfl : e' = e := Option.some.inj (Prod.mk.inj hagain).1
    exact makeDirsWithin_of_error _ hne hmake hnone

/-- What is in the way is in the way again, behind the directories that were made before it. -/
theorem makeDirsWithin_again (hs : s.LinkFree) (hg : s.Grounded) (hdots : ".." ∉ names path)
    (h : makeDirsWithin n s path = (some e, t)) : makeDirsWithin n t path = (some e, t) := by
  induction n generalizing path with
  | zero =>
    obtain ⟨-, rfl⟩ := Prod.mk.inj h
    exact h
  | succ n ih =>
    obtain ⟨hne, ⟨rfl, -⟩ | ⟨hmissing, hparent | ⟨hparent, hmake⟩⟩⟩ := makeDirsWithin_error h
    · exact h
    · cases n with
      | zero =>
        obtain ⟨-, rfl⟩ := Prod.mk.inj hparent
        exact h
      | succ n =>
        have hparent_ne : parent path ≠ "" := by
          intro hnone
          rw [hnone] at hparent
          cases hparent
        obtain ⟨front, name, hnames⟩ := names_parent hparent_ne
        have hdots' : ".." ∉ names (parent path) := fun hmem => hdots (hnames ▸ List.mem_append_left _ hmem)
        have hmade := alters_of_makeDirsWithin hs (n := n + 1) (parent path)
        rw [hparent] at hmade
        exact makeDirsWithin_of_stuck_parent hs hg hmade hne hparent_ne hdots' hmissing (ih hdots' hparent)
    · exact makeDirsWithin_of_made_parent hs hne hparent hmake

theorem isDirectory_of_makeDirs (hs : s.LinkFree) (h : s.makeDirs path = (none, t)) :
    path = "" ∨ t.isDirectory path = true :=
  Classical.or_iff_not_imp_left.mpr fun hne => isDirectory_of_makeDirsWithin hs hne h

theorem not_isDirectory_of_makeDirs (hs : s.LinkFree) (h : s.makeDirs path = (some e, t)) :
    path ≠ "" ∧ ¬ t.isDirectory path = true :=
  ⟨(makeDirsWithin_error h).1, not_isDirectory_of_makeDirsWithin hs (Nat.lt_succ_self _) h⟩

theorem makeDirs_of_isDirectory (hs : s.LinkFree) (h : path = "" ∨ s.isDirectory path = true) :
    s.makeDirs path = (none, s) :=
  makeDirsWithin_of_isDirectory hs _ h

theorem makeDirs_again (hs : s.LinkFree) (hg : s.Grounded) (hdots : ".." ∉ names path)
    (h : s.makeDirs path = (some e, t)) : t.makeDirs path = (some e, t) :=
  makeDirsWithin_again hs hg hdots h

end MakeDirs

/-! ## Directories that names lead to -/

section Leading

variable {s : Store} (hs : s.LinkFree) (hg : s.Grounded) {path : String}

include hg

theorem exists_leads_empty : ∃ above, s.Leads (startOf "" s.here) (names "") above ∧ s.get? above = some .directory :=
  ⟨_, .done _, hg.get?_startOf ""⟩

include hs

theorem exists_leads_parent {l : Location} (h : s.resolve .present path = .ok l) :
    ∃ above, s.Leads (startOf (parent path) s.here) (names (parent path)) above ∧ s.get? above = some .directory := by
  by_cases hne : parent path = ""
  · rw [hne]
    exact exists_leads_empty hg
  · have hleads := leads_of_resolve hs h
    obtain ⟨front, name, hnames⟩ := names_parent hne
    rw [hnames, startOf_parent hne] at hleads
    obtain ⟨above, habove, hrest⟩ := hleads.exists_above
    exact ⟨above, habove, hrest.directory_of_ne_nil (by simp)⟩

theorem exists_fileName_of_resolve {l : Location} (h : s.resolve .present path = .ok l)
    (hfile : s.get? l ≠ some .directory) :
    ∃ above name, l = above ++ [name] ∧ fileName? path = some name.toList := by
  have hleads := ((resolve_eq_ok_iff hs).mp h).2
  rcases List.eq_nil_or_concat' (steps path) with hnil | ⟨front, name, hsteps⟩
  · rw [hnil] at hleads
    cases hleads
    exact absurd (hg.get?_startOf path) hfile
  · rw [hsteps] at hleads
    obtain ⟨above, -, hlast⟩ := hleads.exists_above
    cases hlast with
    | stay hdir _ hl =>
      cases hl
      exact absurd hdir hfile
    | up hdir hl =>
      cases hl
      exact absurd (hg.get?_dropLast (by rw [hdir]; rfl)) hfile
    | down _ hname _ hl =>
      cases hl
      exact ⟨above, name, rfl, fileName?_of_steps hsteps hname.1 hname.2.1 hname.2.2.1⟩

end Leading

end Store

end JackAnalyzer
