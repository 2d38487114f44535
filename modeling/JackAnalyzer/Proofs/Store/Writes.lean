/-
  JackAnalyzer.Proofs.Store.Writes — files written in a directory by plain names. Whether it can
  be done, and where the file stands then, depends on the directories of the store alone and not
  on what its files hold, so files that stand in several places can be written in any order.
  - `resolve_join`: where a name in a directory leads.
  - `writeText_join`: a file is written alike in all stores that have the same directories.
  - `get?_putFiles_of_mem`, `get?_putFiles_of_notMem`: what stands where afterwards.
-/

import JackAnalyzer.Proofs.Store.Directories

namespace JackAnalyzer

namespace Store

open JackAnalyzer.Path

/-! ## Names in a directory -/

section Join

variable {s t : Store} {dir name : String} {above : Location}

theorem resolve_join (hs : s.LinkFree) (aim : Aim) (hn : IsPlain name)
    (hleads : s.Leads (startOf dir s.here) (names dir) above) (hdir : s.get? above = some .directory) :
    s.resolve aim (join dir name) = admitted (join dir name) >>= fun _ =>
      if nameLimit < name.utf8ByteSize then .error .nameTooLong
      else if aim = .present ∧ s.get? (above ++ [name]) = none then .error .notFound
      else .ok (above ++ [name]) := by
  have hwalk : s.walk aim linkLimit (startOf dir s.here) (names dir ++ [name]) =
      if nameLimit < name.utf8ByteSize then .error .nameTooLong
      else if aim = .present ∧ s.get? (above ++ [name]) = none then .error .notFound
      else .ok (above ++ [name]) := by
    obtain ⟨follow, hfollow⟩ : ∃ follow, s.walk aim linkLimit = walkWith s aim follow := ⟨_, rfl⟩
    rw [hfollow, walkWith_append_of_leads hs hleads (by simp) (by simpa using hn.ne_empty), walkWith_cons hdir,
      if_neg (by simp [hn.ne_empty, hn.ne_dot]), if_neg hn.ne_dots, if_neg (by simp), child?]
    split
    · rfl
    · cases hchild : s.get? (above ++ [name]) with
      | none => cases aim <;> simp [bind, Except.bind]
      | some e =>
        cases e with
        | link target => exact absurd hchild (hs _ _)
        | file content => simp [bind, Except.bind, walkWith]
        | directory => simp [bind, Except.bind, walkWith]
  rw [resolve, steps_join hn, startOf_join hn, hwalk]

/-- Names that lead to a directory lead there wherever the same directories are. -/
theorem Leads.of_directories (hdirs : ∀ l, s.get? l = some .directory → t.get? l = some .directory) {dir l : Location}
    {ns : List String} (h : s.Leads dir ns l) (hl : s.get? l = some .directory) : t.Leads dir ns l := by
  induction h with
  | done dir => exact .done dir
  | stay hdir hname _ ih => exact .stay (hdirs _ hdir) hname (ih hl)
  | up hdir _ ih => exact .up (hdirs _ hdir) (ih hl)
  | @down dir l name rest hdir hname _ hrest ih =>
    have hnext : s.get? (dir ++ [name]) = some .directory := by
      by_cases hnil : rest = []
      · subst hnil
        cases hrest
        exact hl
      · exact hrest.directory_of_ne_nil hnil
    exact .down (hdirs _ hdir) hname (by rw [hdirs _ hnext]; rfl) (ih hl)

section Later

variable (hs : s.LinkFree) (ht : t.LinkFree) (hn : IsPlain name) (hhere : t.here = s.here)
variable (hleads : s.Leads (startOf dir s.here) (names dir) above) (hdir : s.get? above = some .directory)
variable (hdirs : ∀ l, s.get? l = some .directory → t.get? l = some .directory)

include hs ht hn hhere hleads hdir hdirs

theorem resolve_join_eq (hsame : t.get? (above ++ [name]) = none ↔ s.get? (above ++ [name]) = none) :
    t.resolve .present (join dir name) = s.resolve .present (join dir name) := by
  have hleads' := hleads.of_directories hdirs hdir
  rw [← hhere] at hleads'
  rw [resolve_join ht .present hn hleads' (hdirs _ hdir), resolve_join hs .present hn hleads hdir]
  simp only [hsame]

theorem readText_join_eq (hsame : t.get? (above ++ [name]) = s.get? (above ++ [name])) :
    t.readText (join dir name) = s.readText (join dir name) := by
  rw [readText, readText, resolve_join_eq hs ht hn hhere hleads hdir hdirs (by rw [hsame])]
  cases hl : s.resolve .present (join dir name) with
  | error f => rfl
  | ok l =>
    rw [resolve_join hs .present hn hleads hdir] at hl
    obtain ⟨_, -, hl⟩ := exists_of_bind_eq_ok hl
    split at hl
    · cases hl
    split at hl
    · cases hl
    obtain rfl := Except.ok.inj hl
    simp only [bind, Except.bind, hsame]

end Later

end Join

/-! ## Files at locations -/

def putFiles (s : Store) (files : List (Location × ByteArray)) : Store :=
  files.foldl (fun s f => s.put f.1 (.file f.2)) s

section PutFiles

variable {s t : Store} {files files' : List (Location × ByteArray)} {l : Location}

theorem putFiles_append (s : Store) (files files' : List (Location × ByteArray)) :
    s.putFiles (files ++ files') = (s.putFiles files).putFiles files' :=
  List.foldl_append

theorem get?_putFiles_of_notMem (h : l ∉ files.map Prod.fst) : (s.putFiles files).get? l = s.get? l := by
  induction files generalizing s with
  | nil => rfl
  | cons f files ih =>
    rw [List.map_cons, List.mem_cons, not_or] at h
    exact (ih h.2).trans (get?_put_of_ne s h.1 _)

theorem get?_putFiles_of_mem (hnodup : (files.map Prod.fst).Nodup) (hl : l ≠ []) {content : ByteArray}
    (h : (l, content) ∈ files) : (s.putFiles files).get? l = some (.file content) := by
  induction files generalizing s with
  | nil => cases h
  | cons f files ih =>
    obtain ⟨hnot, hnodup⟩ := List.nodup_cons.mp hnodup
    rcases List.mem_cons.mp h with rfl | h
    · exact (get?_putFiles_of_notMem hnot).trans (get?_put_self s hl _)
    · exact ih hnodup h

theorem alters_putFiles (h : ∀ f ∈ files, s.get? f.1 ≠ some .directory) :
    s.Alters (s.putFiles files) (· ∈ files.map Prod.fst) fun _ => False := by
  induction files generalizing s with
  | nil => exact .refl _ _ _
  | cons f files ih =>
    have hone := alters_put_file (h f List.mem_cons_self) f.2
    have hrest := ih (s := s.put f.1 (.file f.2)) fun g hg hdir => by
      rcases hone.get? g.1 with hsame | ⟨-, -, content, hfile⟩ | ⟨hf, -⟩
      · exact h g (List.mem_cons_of_mem _ hg) (hsame ▸ hdir)
      · rw [hfile] at hdir
        cases hdir
      · exact hf
    refine .trans (hone.imp ?_ fun _ hd => hd) (hrest.imp ?_ fun _ hd => hd)
    · rintro _ rfl
      exact List.mem_cons_self
    · exact fun l hl => List.mem_cons_of_mem _ hl

theorem Alters.directory_iff {places : Location → Prop} (h : s.Alters t places fun _ => False) :
    t.get? l = some .directory ↔ s.get? l = some .directory := by
  refine ⟨fun hdir => ?_, h.keeps.directory l⟩
  rcases h.get? l with hsame | ⟨-, -, content, hfile⟩ | ⟨hf, -⟩
  · exact hsame ▸ hdir
  · rw [hfile] at hdir
    cases hdir
  · exact hf.elim

end PutFiles

/-! ## Writing a file -/

/-- A file in a directory can be written in no store with the same directories, for one reason, or
    it can in all, and then stands in its place. -/
theorem writeText_join {s : Store} (hs : s.LinkFree) {dir name : String} {above : Location} (hn : IsPlain name)
    (hleads : s.Leads (startOf dir s.here) (names dir) above) (hdir : s.get? above = some .directory) (text : String) :
    (∃ f, ∀ t places, s.Alters t places (fun _ => False) → t.writeText (join dir name) text = .error f) ∨
    s.get? (above ++ [name]) ≠ some .directory ∧ ∀ t places, s.Alters t places (fun _ => False) →
      t.writeText (join dir name) text = .ok (t.put (above ++ [name]) (.file text.toUTF8)) := by
  -- a path to be written is resolved alike in all of them
  have hresolve (t : Store) {places : Location → Prop} (h : s.Alters t places fun _ => False) :
      t.resolve .target (join dir name) = admitted (join dir name) >>= fun _ =>
        if nameLimit < name.utf8ByteSize then .error .nameTooLong else .ok (above ++ [name]) := by
    have hleads' := hleads.keeps h.keeps
    rw [← h.here] at hleads'
    rw [resolve_join (h.linkFree hs) .target hn hleads' (h.keeps.directory _ hdir)]
    simp
  cases hadmitted : admitted (join dir name) with
  | error f =>
    refine Or.inl ⟨f, fun t places h => ?_⟩
    rw [writeText, write, hresolve t h, hadmitted]
    rfl
  | ok u =>
    by_cases hlength : nameLimit < name.utf8ByteSize
    · refine Or.inl ⟨.nameTooLong, fun t places h => ?_⟩
      rw [writeText, write, hresolve t h, hadmitted]
      simp [bind, Except.bind, hlength]
    · by_cases hthere : s.get? (above ++ [name]) = some .directory
      · refine Or.inl ⟨.isDirectory, fun t places h => ?_⟩
        rw [writeText, write, hresolve t h, hadmitted]
        simp [bind, Except.bind, hlength, h.directory_iff.mpr hthere]
      · refine Or.inr ⟨hthere, fun t places h => ?_⟩
        have hnot : t.get? (above ++ [name]) ≠ some .directory := fun hdir => hthere (h.directory_iff.mp hdir)
        rw [writeText, write, hresolve t h, hadmitted]
        simp only [bind, Except.bind, if_neg hlength]
        rfl

theorem writeText_of_resolve {s : Store} (hs : s.LinkFree) {dir name : String} {l : Location} (hn : IsPlain name)
    (h : s.resolve .present (join dir name) = .ok l) (hfile : s.get? l ≠ some .directory) (text : String) :
    s.writeText (join dir name) text = .ok (s.put l (.file text.toUTF8)) := by
  obtain ⟨above, hleads, hdir, hlength, rfl⟩ := exists_above_of_resolve_join hn hs h
  obtain ⟨hadmitted, -⟩ := (resolve_eq_ok_iff hs).mp h
  rw [writeText, write, resolve_join hs .target hn hleads hdir, hadmitted]
  simp only [bind, Except.bind, if_neg (Nat.not_lt.mpr hlength), reduceCtorEq, false_and, if_false]
  rfl

end Store

end JackAnalyzer
