/-
  JackAnalyzer.Proofs.Store.Alters — what is different in a store after files were written and
  directories made, and that nothing else is. The store has no links, so what was written to a
  path is what is read from it, for as long as no other path to the same place is written.
  - `alters_of_write`, `alters_of_makeDirs`: what the two operations do.
-/

import Mathlib.Data.List.Basic
import Mathlib.Logic.Function.Iterate
import JackAnalyzer.Proofs.Store.Walk

namespace JackAnalyzer.Store

/-- All that is different in a later store: files at `files`, where no directory was, and
    directories at `dirs`, where nothing was. -/
structure Alters (s t : Store) (files dirs : Location → Prop) : Prop where
  here : t.here = s.here
  get? (l : Location) : t.get? l = s.get? l ∨
    (files l ∧ s.get? l ≠ some .directory ∧ ∃ content, t.get? l = some (.file content)) ∨
    dirs l ∧ s.get? l = none ∧ t.get? l = some .directory

namespace Alters

variable {s t u : Store} {files dirs files' dirs' : Location → Prop}

theorem refl (s : Store) (files dirs : Location → Prop) : s.Alters s files dirs := ⟨rfl, fun _ => Or.inl rfl⟩

theorem imp (h : s.Alters t files dirs) (hf : ∀ l, files l → files' l) (hd : ∀ l, dirs l → dirs' l) :
    s.Alters t files' dirs' where
  here := h.here
  get? l := by
    rcases h.get? l with hl | ⟨hl, hrest⟩ | ⟨hl, hrest⟩
    · exact Or.inl hl
    · exact Or.inr (Or.inl ⟨hf l hl, hrest⟩)
    · exact Or.inr (Or.inr ⟨hd l hl, hrest⟩)

theorem trans (h : s.Alters t files dirs) (h' : t.Alters u files dirs) : s.Alters u files dirs where
  here := h'.here.trans h.here
  get? l := by
    rcases h'.get? l with hu | ⟨hf, ht, content, hu⟩ | ⟨hd, ht, hu⟩
    · rw [hu]
      exact h.get? l
    · rcases h.get? l with hs | ⟨-, hs, -⟩ | ⟨-, -, hs⟩
      · exact Or.inr (Or.inl ⟨hf, hs ▸ ht, content, hu⟩)
      · exact Or.inr (Or.inl ⟨hf, hs, content, hu⟩)
      · exact absurd hs ht
    · rcases h.get? l with hs | ⟨-, -, content, hs⟩ | ⟨-, -, hs⟩
      · exact Or.inr (Or.inr ⟨hd, hs ▸ ht, hu⟩)
      · rw [hs] at ht
        cases ht
      · rw [hs] at ht
        cases ht

theorem keeps (h : s.Alters t files dirs) : s.Keeps t where
  here := h.here
  directory l hl := by
    rcases h.get? l with hsame | ⟨-, hnot, -⟩ | ⟨-, hnone, -⟩
    · rw [hsame, hl]
    · exact absurd hl hnot
    · rw [hl] at hnone
      cases hnone
  isSome l hl := by
    rcases h.get? l with hsame | ⟨-, -, content, hfile⟩ | ⟨-, -, hdir⟩
    · rwa [hsame]
    · rw [hfile]
      rfl
    · rw [hdir]
      rfl

theorem linkFree (h : s.Alters t files dirs) (hs : s.LinkFree) : t.LinkFree := by
  intro l target hlink
  rcases h.get? l with hsame | ⟨-, -, content, hfile⟩ | ⟨-, -, hdir⟩
  · exact hs l target (hsame ▸ hlink)
  · rw [hfile] at hlink
    cases hlink
  · rw [hdir] at hlink
    cases hlink

theorem resolve (h : s.Alters t files dirs) (hs : s.LinkFree) {path : String} {l : Location}
    (hl : s.resolve .present path = .ok l) : t.resolve .present path = .ok l :=
  h.keeps.resolve hs (h.linkFree hs) hl

theorem get?_eq (h : s.Alters t files dirs) {l : Location} (hl : ¬ files l) (hsome : (s.get? l).isSome) :
    t.get? l = s.get? l := by
  rcases h.get? l with hsame | ⟨hf, -⟩ | ⟨-, hnone, -⟩
  · exact hsame
  · exact absurd hf hl
  · rw [hnone] at hsome
    cases hsome

end Alters

/-- The places of paths. -/
def At (t : Store) (paths : List String) (l : Location) : Prop := ∃ p ∈ paths, t.resolve .present p = .ok l

section At

variable {s t : Store} {files dirs : Location → Prop} {paths paths' : List String}

theorem At.mono (h : paths ⊆ paths') {l : Location} (hl : t.At paths l) : t.At paths' l := by
  obtain ⟨p, hp, hpl⟩ := hl
  exact ⟨p, h hp, hpl⟩

theorem Alters.at_later (h : s.Alters t files dirs) (hs : s.LinkFree) {l : Location} (hl : s.At paths l) :
    t.At paths l := by
  obtain ⟨p, hp, hpl⟩ := hl
  exact ⟨p, hp, h.resolve hs hpl⟩

/-- Paths that lead to no common place, whatever the store holds. -/
def Apart (p q : String) : Prop :=
  ∀ (s : Store) (l : Location), s.LinkFree → s.resolve .present p = .ok l → s.resolve .present q ≠ .ok l

theorem not_at_of_apart (ht : t.LinkFree) {path : String} {l : Location} (h : ∀ p ∈ paths, Apart path p)
    (hl : t.resolve .present path = .ok l) : ¬ t.At paths l :=
  fun ⟨p, hp, hpl⟩ => h p hp t l ht hl hpl

end At

/-! ## One change -/

section One

variable {s t : Store} {l : Location}

theorem ne_nil_of_get?_ne (h : s.get? l ≠ some .directory) : l ≠ [] := by
  rintro rfl
  exact h rfl

theorem alters_put_file (h : s.get? l ≠ some .directory) (content : ByteArray) :
    s.Alters (s.put l (.file content)) (· = l) fun _ => False where
  here := rfl
  get? k := by
    by_cases hk : k = l
    · subst hk
      exact Or.inr (Or.inl ⟨rfl, h, content, get?_put_self s (ne_nil_of_get?_ne h) _⟩)
    · exact Or.inl (get?_put_of_ne s hk _)

theorem alters_put_directory (h : s.get? l = none) :
    s.Alters (s.put l .directory) (fun _ => False) (· = l) where
  here := rfl
  get? k := by
    have hl : l ≠ [] := ne_nil_of_get?_ne (by rw [h]; exact fun hn => nomatch hn)
    by_cases hk : k = l
    · subst hk
      exact Or.inr (Or.inr ⟨rfl, h, get?_put_self s hl _⟩)
    · exact Or.inl (get?_put_of_ne s hk _)

end One

/-! ## Writing -/

/-- What is reached for a file to be written is reached when the file is there. -/
theorem Reaches.leads {s t : Store} {dir l : Location} {ns : List String} (h : s.Reaches .target dir ns l)
    (hk : s.Keeps t) (hl : (t.get? l).isSome) : t.Leads dir ns l := by
  rcases h with h | ⟨-, front, name, above, rfl, hfront, hdir, hname, rfl⟩
  · exact h.keeps hk
  · exact (hfront.keeps hk).append (.down (hk.directory _ hdir) hname hl (.done _))

/-- Writing to a path changes the file there, and nothing else. -/
theorem alters_of_write {s t : Store} (hs : s.LinkFree) {path : String} {content : ByteArray}
    (h : s.write path content = .ok t) : ∃ l, t.resolve .present path = .ok l ∧ t.get? l = some (.file content) ∧
      s.Alters t (· = l) fun _ => False := by
  obtain ⟨l, hl, h⟩ := exists_of_bind_eq_ok h
  have hplace : s.get? l ≠ some .directory ∧ t = s.put l (.file content) := by
    split at h
    · cases h
    · rename_i hnot
      exact ⟨hnot, (Except.ok.inj h).symm⟩
  obtain ⟨hnot, rfl⟩ := hplace
  have halters := alters_put_file hnot content
  have hfile := get?_put_self s (ne_nil_of_get?_ne hnot) (.file content)
  obtain ⟨hadmitted, hreaches⟩ := reaches_of_resolve hs hl
  refine ⟨l, (resolve_eq_ok_iff (halters.linkFree hs)).mpr ⟨hadmitted, ?_⟩, hfile, halters⟩
  exact hreaches.leads halters.keeps (by rw [hfile]; rfl)

theorem readText_eq_ok_iff {s : Store} {path text : String} : s.readText path = .ok text ↔
    ∃ l content, s.resolve .present path = .ok l ∧ s.get? l = some (.file content) ∧
      Text.ofBytes? content = some text := by
  constructor
  · intro h
    obtain ⟨l, hl, h⟩ := exists_of_bind_eq_ok h
    split at h
    · rename_i content hfile
      refine ⟨l, content, hl, hfile, ?_⟩
      cases htext : Text.ofBytes? content with
      | none => simp [htext] at h
      | some other => simpa [htext] using h
    · cases h
    · cases h
  · rintro ⟨l, content, hl, hfile, htext⟩
    simp only [readText, hl, bind, Except.bind, hfile, htext, Option.elim]

theorem readText_eq_ok_iff_at? {s : Store} {path text : String} :
    s.readText path = .ok text ↔ s.at? path = some (.file text.toUTF8) := by
  rw [readText_eq_ok_iff, at?]
  constructor
  · rintro ⟨l, content, hl, hfile, htext⟩
    rw [hl, ← Text.eq_toUTF8_of_ofBytes? htext]
    exact hfile
  · intro h
    cases hl : s.resolve .present path with
    | error f =>
      rw [hl] at h
      cases h
    | ok l =>
      rw [hl] at h
      exact ⟨l, _, rfl, h, Text.ofBytes?_toUTF8 text⟩

theorem Alters.readText {s t : Store} {path text : String} {paths : List String} {dirs : Location → Prop}
    (h : s.Alters t (t.At paths) dirs) (hs : s.LinkFree) (hapart : ∀ p ∈ paths, Apart path p)
    (hread : s.readText path = .ok text) : t.readText path = .ok text := by
  obtain ⟨l, content, hl, hfile, htext⟩ := readText_eq_ok_iff.mp hread
  have hlater := h.resolve hs hl
  have hkept := (h.get?_eq (not_at_of_apart (h.linkFree hs) hapart hlater) (by rw [hfile]; rfl)).trans hfile
  exact readText_eq_ok_iff.mpr ⟨l, content, hlater, hkept, htext⟩

/-! ## Making directories -/

theorem ne_empty_of_mem_names {path name : String} (h : name ∈ names path) : name ≠ "" := by
  obtain ⟨cs, hcs, rfl⟩ := List.mem_map.mp h
  have hne := (List.mem_filter.mp hcs).2
  rintro hempty
  have hnil : cs = [] := by simpa using congrArg String.toList hempty
  subst hnil
  cases hne

/-- A place for a new entry is in a directory that the names in front of the last lead to. -/
theorem place_eq_ok {s : Store} (hs : s.LinkFree) {path : String} {l : Location} (h : s.place path = .ok l) :
    admitted path = .ok () ∧ ∃ above name, names path = (names path).dropLast ++ [name] ∧
      s.Leads (startOf path s.here) (names path).dropLast above ∧ s.get? above = some .directory ∧ IsEntryName name ∧
      l = above ++ [name] := by
  obtain ⟨_, hadmitted, h⟩ := exists_of_bind_eq_ok h
  refine ⟨hadmitted, ?_⟩
  split at h
  · cases h
  rename_i name hlast
  obtain ⟨above, hwalk, h⟩ := exists_of_bind_eq_ok h
  obtain ⟨_, henter, h⟩ := exists_of_bind_eq_ok h
  split at h
  · cases h
  rename_i hdots
  simp only [Bool.or_eq_true, decide_eq_true_eq, not_or] at hdots
  obtain ⟨_, hchild, h⟩ := exists_of_bind_eq_ok h
  exact ⟨above, name, (List.dropLast_append_getLast? name hlast).symm, (walk_eq_ok_iff hs).mp hwalk,
    enter_eq_ok_iff.mp henter,
    ⟨ne_empty_of_mem_names (List.mem_of_getLast? hlast), hdots.1, hdots.2, (child?_eq_ok hchild).1⟩,
    (Except.ok.inj h).symm⟩

theorem alters_of_makeDir {s t : Store} (hs : s.LinkFree) {path : String} (h : s.makeDir path = .ok t) :
    ∃ l, t.resolve .present path = .ok l ∧ t.get? l = some .directory ∧ s.Alters t (fun _ => False) (· = l) := by
  obtain ⟨l, hl, h⟩ := exists_of_bind_eq_ok h
  split at h
  · cases h
  rename_i hnone
  obtain rfl := Except.ok.inj h
  have halters := alters_put_directory hnone
  have hthere : (s.put l .directory).get? l = some .directory :=
    get?_put_self s (ne_nil_of_get?_ne (by rw [hnone]; exact fun hn => nomatch hn)) _
  obtain ⟨hadmitted, above, name, hnames, hleads, hdir, hname, rfl⟩ := place_eq_ok hs hl
  have hall : (s.put (above ++ [name]) .directory).Leads (startOf path s.here) (names path) (above ++ [name]) := by
    rw [hnames]
    exact (hleads.keeps halters.keeps).append
      (.down (halters.keeps.directory _ hdir) hname (by rw [hthere]; rfl) (.done _))
  refine ⟨_, (resolve_eq_ok_iff (halters.linkFree hs)).mpr ⟨hadmitted, ?_⟩, hthere, halters⟩
  rcases steps_eq path with hsteps | hsteps
  · rw [hsteps]
    exact hall
  · rw [hsteps]
    exact hall.append (.stay hthere (Or.inl rfl) (.done _))

/-- A directory and those above it, by path. -/
def AtOrAbove (t : Store) (path : String) (l : Location) : Prop :=
  ∃ n, t.resolve .present (Path.parent^[n] path) = .ok l

theorem AtOrAbove.of_parent {t : Store} {path : String} {l : Location} (h : t.AtOrAbove (Path.parent path) l) :
    t.AtOrAbove path l := by
  obtain ⟨n, hn⟩ := h
  exact ⟨n + 1, by rwa [Function.iterate_succ_apply]⟩

theorem alters_of_ensureDir {s t : Store} (hs : s.LinkFree) {path : String} (h : s.ensureDir path = .ok t) :
    s.Alters t (fun _ => False) (t.AtOrAbove path) := by
  unfold ensureDir at h
  split at h
  · rename_i hmade
    obtain rfl := Except.ok.inj h
    obtain ⟨l, hl, -, halters⟩ := alters_of_makeDir hs hmade
    exact halters.imp (fun _ hf => hf) fun k hk => ⟨0, hk ▸ hl⟩
  · split at h
    · obtain rfl := Except.ok.inj h
      exact .refl _ _ _
    · cases h

/-- Directories that are made stand at the path or above it, whether or not all of them could be
    made. -/
theorem alters_of_makeDirsWithin {n : Nat} {s : Store} (hs : s.LinkFree) (path : String) :
    s.Alters (makeDirsWithin n s path).2 (fun _ => False) ((makeDirsWithin n s path).2.AtOrAbove path) := by
  induction n generalizing s path with
  | zero => exact .refl _ _ _
  | succ n ih =>
    unfold makeDirsWithin
    split
    · exact .refl _ _ _
    split
    · rename_i hmade
      exact alters_of_ensureDir hs hmade
    -- the directory above is missing, so it is made first, and stays even if this one fails
    · have hparent := ih hs (Path.parent path)
      split
      · rename_i e t hrest
        rw [hrest] at hparent
        exact hparent.imp (fun _ hf => hf) fun l hl => hl.of_parent
      · rename_i t hrest
        rw [hrest] at hparent
        split
        · rename_i u hmade
          have hlast := alters_of_ensureDir (hparent.linkFree hs) hmade
          refine .trans (hparent.imp (fun _ hf => hf) fun l hl => ?_) hlast
          obtain ⟨m, hm⟩ := hl.of_parent
          exact ⟨m, hlast.resolve (hparent.linkFree hs) hm⟩
        · exact hparent.imp (fun _ hf => hf) fun l hl => hl.of_parent
    · exact .refl _ _ _

theorem alters_of_makeDirs {s : Store} (hs : s.LinkFree) (path : String) :
    s.Alters (s.makeDirs path).2 (fun _ => False) ((s.makeDirs path).2.AtOrAbove path) :=
  alters_of_makeDirsWithin hs path

/-! ## Stores without links -/

theorem LinkFree.put {s : Store} (hs : s.LinkFree) (l : Location) {e : Entry} (he : ∀ target, e ≠ .link target) :
    (s.put l e).LinkFree := by
  intro k target h
  by_cases hk : k = l
  · subst hk
    by_cases hroot : k = []
    · rw [get?, if_pos hroot] at h
      cases h
    · rw [get?_put_self s hroot] at h
      exact he _ (Option.some.inj h)
  · rw [get?_put_of_ne s hk] at h
    exact hs k target h

theorem linkFree_empty (here : Location) : (empty here).LinkFree := by
  refine List.foldlRecOn (motive := LinkFree) _ _ ?_ fun s hs n _ => hs.put _ fun _ h => nomatch h
  intro l target h
  simp [get?] at h

/-- A store that starts at the root and holds texts there, by name. -/
def ofTexts (texts : List (String × String)) : Store :=
  texts.foldl (fun s f => s.put [f.1] (.file f.2.toUTF8)) (empty [])

theorem linkFree_ofTexts (texts : List (String × String)) : (ofTexts texts).LinkFree :=
  List.foldlRecOn (motive := LinkFree) _ _ (linkFree_empty []) fun _ hs _ _ => hs.put _ fun _ h => nomatch h

end JackAnalyzer.Store
