/-
  JackAnalyzer.Proofs.Store.Paths — the text of a path below a directory. A name that holds no
  slash is one more name behind those of the directory, wherever that leads; so two names are
  two places. The directory and the name can be told from the text again.
  - `apart_join`: two names lead to no common place.
  - `parent_join`, `stem_join`: the directory and the name, told from the text.
-/

import JackAnalyzer.Artifact
import JackAnalyzer.Proofs.Store.Alters

namespace JackAnalyzer

namespace Path

/-! ## Segments -/

theorem segments_append (a b : List Char) : segments (a ++ '/' :: b) = segments a ++ segments b := by
  induction a with
  | nil => simp [segments]
  | cons c a ih =>
    obtain ⟨x, xs, hx⟩ := List.exists_cons_of_ne_nil (segments_ne_nil a)
    by_cases hc : c = '/'
    · simp [segments, hc, ih]
    · simp [segments, hc, ih, hx]

theorem segments_of_notMem {n : List Char} (h : '/' ∉ n) : segments n = [n] := by
  induction n with
  | nil => rfl
  | cons c n ih =>
    rw [List.mem_cons, not_or] at h
    rw [segments, if_neg (Ne.symm h.1), ih h.2]

theorem notMem_of_mem_segments {n cs : List Char} (h : n ∈ segments cs) : '/' ∉ n := by
  induction cs generalizing n with
  | nil => simp_all [segments]
  | cons c cs ih =>
    obtain ⟨x, xs, hx⟩ := List.exists_cons_of_ne_nil (segments_ne_nil cs)
    rw [hx] at ih
    rw [segments] at h
    split at h
    · rw [hx] at h
      rcases List.mem_cons.mp h with rfl | h
      · simp
      · exact ih h
    · rename_i hc
      rw [hx] at h
      rcases List.mem_cons.mp h with rfl | h
      · simpa using ⟨Ne.symm hc, ih List.mem_cons_self⟩
      · exact ih (List.mem_cons_of_mem _ h)

/-- A name that stands for itself in a directory. -/
structure IsPlain (name : String) : Prop where
  slash : '/' ∉ name.toList
  ne_empty : name ≠ ""
  ne_dot : name ≠ "."
  ne_dots : name ≠ ".."

/-- The text in front of a name below a directory: it ends in a slash. -/
def frontOf (dir : String) : List Char := if dir.toList.getLast? = some '/' then dir.toList else dir.toList ++ ['/']

theorem toList_join {dir : String} (h : dir ≠ "") (name : String) :
    (join dir name).toList = frontOf dir ++ name.toList := by
  have hempty : dir.isEmpty = false := by simpa using h
  unfold join frontOf
  rw [hempty]
  split
  · simp_all
  · split <;> simp

theorem join_injective {dir : String} (h : dir ≠ "") : Function.Injective (join dir) := by
  intro name other heq
  have htext := congrArg String.toList heq
  rw [toList_join h, toList_join h] at htext
  exact String.toList_injective (List.append_cancel_left htext)

theorem exists_frontOf (dir : String) : ∃ front, frontOf dir = front ++ ['/'] := by
  unfold frontOf
  split
  · rename_i h
    exact List.getLast?_eq_some_iff.mp h
  · exact ⟨_, rfl⟩

end Path

namespace Store

open JackAnalyzer.Path

/-! ## The names of a joined path -/

theorem names_append (path : String) (a b : List Char) (h : path.toList = a ++ '/' :: b) :
    names path = names (String.ofList a) ++ names (String.ofList b) := by
  simp [names, h, segments_append]

theorem names_of_plain {name : String} (hn : IsPlain name) : names name = [name] := by
  have hne : name.toList ≠ [] := fun h => hn.ne_empty (by simpa using h)
  simp [names, segments_of_notMem hn.slash, hne]

theorem names_eq_of_frontOf {dir : String} {front : List Char} (h : frontOf dir = front ++ ['/']) :
    names dir = names (String.ofList front) := by
  unfold frontOf at h
  split at h
  · rw [names_append dir front [] h]
    simp [names, segments]
  · obtain rfl := List.append_cancel_right h
    rw [String.ofList_toList]

section Join

variable {dir name : String} (hn : IsPlain name)

include hn

theorem names_join : names (join dir name) = names dir ++ [name] := by
  by_cases hdir : dir = ""
  · subst hdir
    exact names_of_plain hn
  · obtain ⟨front, hfront⟩ := exists_frontOf dir
    have htext : (join dir name).toList = front ++ '/' :: name.toList := by simp [toList_join hdir, hfront]
    rw [names_append _ _ _ htext, names_eq_of_frontOf hfront, String.ofList_toList, names_of_plain hn]

theorem getLast?_join : (join dir name).toList.getLast? ≠ some '/' := by
  have hne : name.toList ≠ [] := fun h => hn.ne_empty (by simpa using h)
  have hlast : name.toList.getLast? ≠ some '/' := fun h => hn.slash (List.mem_of_getLast? h)
  by_cases hdir : dir = ""
  · subst hdir
    exact hlast
  · rwa [toList_join hdir, List.getLast?_append, Option.or_of_isSome (by simpa using hne)]

theorem steps_join : steps (join dir name) = names dir ++ [name] := by
  rw [steps, if_neg (getLast?_join hn), names_join hn, List.append_nil]

theorem startOf_join (above : Location) : startOf (join dir name) above = startOf dir above := by
  by_cases hdir : dir = ""
  · subst hdir
    exact if_neg fun h => hn.slash (List.mem_of_head? h)
  · have hne : dir.toList ≠ [] := fun h => hdir (by simpa using h)
    have hhead : (frontOf dir ++ name.toList).head? = dir.toList.head? := by
      unfold frontOf
      split
      · rw [List.head?_append, Option.or_of_isSome (by simpa using hne)]
      · rw [List.append_assoc, List.head?_append, Option.or_of_isSome (by simpa using hne)]
    rw [startOf, startOf, toList_join hdir, hhead]

/-- A joined path leads to the name in the directory. -/
theorem exists_above_of_resolve_join {s : Store} (hs : s.LinkFree) {l : Location}
    (h : s.resolve .present (join dir name) = .ok l) :
    ∃ above, s.Leads (startOf dir s.here) (names dir) above ∧ s.get? above = some .directory ∧
      name.utf8ByteSize ≤ nameLimit ∧ l = above ++ [name] := by
  obtain ⟨-, hleads⟩ := (resolve_eq_ok_iff hs).mp h
  rw [steps_join hn, startOf_join hn] at hleads
  obtain ⟨above, hdir, hname⟩ := hleads.exists_above
  obtain ⟨hthere, hlength, hl⟩ := hname.single ⟨hn.ne_dot, hn.ne_dots, hn.ne_empty⟩
  exact ⟨above, hdir, hthere, hlength, hl⟩

end Join

/-- Two names lead to no common place, in one directory or in two. -/
theorem apart_join {dir dir' name other : String} (hn : IsPlain name) (ho : IsPlain other) (h : name ≠ other) :
    Apart (join dir name) (join dir' other) := by
  intro s l hs hp hq
  obtain ⟨above, -, -, -, rfl⟩ := exists_above_of_resolve_join hn hs hp
  obtain ⟨above', -, -, -, hl⟩ := exists_above_of_resolve_join ho hs hq
  exact h (List.singleton_inj.mp (List.append_inj' hl rfl).2)

end Store

/-! ## The directory and the name of a joined path -/

namespace Path

theorem splitLead_of_ne {c d : Char} (hc : c ≠ '/') (hd : c ≠ '.' ∨ d ≠ '/') (cs : List Char) :
    splitLead (c :: d :: cs) = ([], c :: d :: cs) := by
  unfold splitLead
  split <;> simp_all

/-- What stands behind the last slash is the last segment, and all else is told from what stands
    in front of it. -/
theorem exists_cut (front : List Char) : ∃ lead ss, ∀ n : List Char, '/' ∉ n →
    (splitLead (front ++ '/' :: n)).1 = lead ∧ segments (splitLead (front ++ '/' :: n)).2 = ss ++ [n] := by
  have hcut (front : List Char) {n : List Char} (hn : '/' ∉ n) :
      segments (front ++ '/' :: n) = segments front ++ [n] := by
    rw [segments_append, segments_of_notMem hn]
  -- the lead is told from the first two characters, which may be those of the slash in front of `n`
  cases front with
  | nil => exact ⟨['/'], [], fun n hn => ⟨rfl, segments_of_notMem hn⟩⟩
  | cons c front =>
    by_cases hc : c = '/'
    · subst hc
      exact ⟨['/'], segments front, fun n hn => ⟨rfl, hcut front hn⟩⟩
    cases front with
    | nil =>
      by_cases hdot : c = '.'
      · subst hdot
        exact ⟨['.'], [[]], fun n hn => ⟨rfl, hcut [] hn⟩⟩
      · refine ⟨[], segments [c], fun n hn => ?_⟩
        rw [List.singleton_append, splitLead_of_ne hc (Or.inl hdot)]
        exact ⟨rfl, hcut [c] hn⟩
    | cons d front =>
      by_cases hdot : c = '.' ∧ d = '/'
      · obtain ⟨rfl, rfl⟩ := hdot
        exact ⟨['.'], segments ('/' :: front), fun n hn => ⟨rfl, hcut ('/' :: front) hn⟩⟩
      · refine ⟨[], segments (c :: d :: front), fun n hn => ?_⟩
        rw [List.cons_append, List.cons_append, splitLead_of_ne hc (Classical.not_and_iff_not_or_not.mp hdot)]
        exact ⟨rfl, hcut (c :: d :: front) hn⟩

theorem trimEnd_append_singleton {n : List Char} (hn : isIdle n = false) (ss : List (List Char)) :
    trimEnd (ss ++ [n]) = ss ++ [n] := by
  simp [trimEnd, hn]

section Join

variable {dir : String} (hdir : dir ≠ "")

include hdir

theorem exists_cut_join : ∃ lead ss, ∀ name, IsPlain name →
    (splitLead (join dir name).toList).1 = lead ∧
      trimEnd (segments (splitLead (join dir name).toList).2) = ss ++ [name.toList] := by
  obtain ⟨front, hfront⟩ := exists_frontOf dir
  obtain ⟨lead, ss, h⟩ := exists_cut front
  refine ⟨lead, ss, fun name hn => ?_⟩
  have htext : (join dir name).toList = front ++ '/' :: name.toList := by simp [toList_join hdir, hfront]
  have hidle : isIdle name.toList = false := by
    have hempty : name.toList ≠ [] := fun h => hn.ne_empty (by simpa using h)
    have hdot : name.toList ≠ ['.'] := fun h => hn.ne_dot (String.toList_injective h)
    simp [isIdle, hempty, hdot]
  obtain ⟨hlead, hsegments⟩ := h name.toList hn.slash
  rw [htext, hsegments]
  exact ⟨hlead, trimEnd_append_singleton hidle ss⟩

theorem parent_join {name other : String} (hn : IsPlain name) (ho : IsPlain other) :
    parent (join dir name) = parent (join dir other) := by
  obtain ⟨lead, ss, h⟩ := exists_cut_join hdir
  have hparent {name : String} (hn : IsPlain name) :
      parent (join dir name) = String.ofList (lead ++ joinSegments (trimEnd ss)) := by
    obtain ⟨hlead, hsegments⟩ := h name hn
    simp only [parent, hlead, hsegments]
    split
    · rename_i hnil
      exact absurd hnil (by simp)
    · rw [List.dropLast_concat]
  rw [hparent hn, hparent ho]

theorem stem_join {name : String} (hn : IsPlain name) :
    stem (join dir name) = String.ofList (splitExtension name.toList).1 := by
  obtain ⟨lead, ss, h⟩ := exists_cut_join hdir
  have hdots : name.toList ≠ ['.', '.'] := fun h => hn.ne_dots (String.toList_injective h)
  have hname : fileName? (join dir name) = some name.toList := by
    rw [fileName?, (h name hn).2, List.getLast?_concat]
    exact if_neg hdots
  rw [stem, hname]
  rfl

end Join

/-! ## Extensions -/

theorem exists_cut_at_dot {name : List Char} (h : (name.reverse.takeWhile (· ≠ '.')).length ≠ name.length) :
    ∃ before, name = before ++ '.' :: (name.reverse.takeWhile (· ≠ '.')).reverse := by
  have hparts := List.takeWhile_append_dropWhile (p := (· ≠ '.')) (l := name.reverse)
  cases hrest : name.reverse.dropWhile (· ≠ '.') with
  | nil =>
    rw [hrest, List.append_nil] at hparts
    rw [hparts, List.length_reverse] at h
    exact absurd rfl h
  | cons c rest =>
    have hc := List.head?_dropWhile_not (· ≠ '.') name.reverse
    rw [hrest] at hc hparts
    obtain rfl : c = '.' := by simpa using hc
    exact ⟨rest.reverse, by simpa using (congrArg List.reverse hparts).symm⟩

/-- A name with an extension is what stands before it, a dot and the extension. -/
theorem eq_of_splitExtension {name after : List Char} (h : (splitExtension name).2 = some after) :
    name = (splitExtension name).1 ++ '.' :: after := by
  unfold splitExtension at h ⊢
  dsimp only at h ⊢
  split at h
  · cases h
  rename_i hcut
  rw [if_neg hcut]
  simp only [List.length_reverse, Bool.or_eq_true, decide_eq_true_eq, not_or] at hcut
  obtain ⟨before, hname⟩ := exists_cut_at_dot hcut.1
  obtain rfl := Option.some.inj h
  have hbefore (after : List Char) (h : name = before ++ '.' :: after) :
      name.take (name.length - after.length - 1) = before := by
    have hlength : name.length = before.length + (after.length + 1) := by rw [h, List.length_append, List.length_cons]
    rw [h, List.take_left' (by rw [← h]; omega)]
  rwa [hbefore _ hname]

theorem front_ne_nil_of_splitExtension {name after : List Char} (h : (splitExtension name).2 = some after) :
    (splitExtension name).1 ≠ [] := by
  unfold splitExtension at h ⊢
  dsimp only at h ⊢
  split at h
  · cases h
  rename_i hcut
  rw [if_neg hcut]
  simp only [Bool.or_eq_true, decide_eq_true_eq, not_or, List.isEmpty_iff] at hcut
  exact hcut.2

/-- A name is cut at a dot with something before it and no dot behind it. -/
theorem splitExtension_append {front after : List Char} (hfront : front ≠ []) (hafter : '.' ∉ after) :
    splitExtension (front ++ '.' :: after) = (front, some after) := by
  have hbehind : ((front ++ '.' :: after).reverse.takeWhile (· ≠ '.')).reverse = after := by
    have hall : ∀ c ∈ after.reverse, decide (c ≠ '.') = true := by
      intro c hc
      exact decide_eq_true fun hdot => hafter (hdot ▸ List.mem_reverse.mp hc)
    rw [List.reverse_append, List.reverse_cons, List.append_assoc, List.takeWhile_append_of_pos hall,
      List.singleton_append, List.takeWhile_cons_of_neg (by simp), List.append_nil, List.reverse_reverse]
  have hlength : (front ++ '.' :: after).length = front.length + (after.length + 1) := by
    rw [List.length_append, List.length_cons]
  have hbefore : (front ++ '.' :: after).take ((front ++ '.' :: after).length - after.length - 1) = front :=
    List.take_left' (by omega)
  unfold splitExtension
  simp only [hbehind, hbefore]
  rw [if_neg]
  simp only [Bool.or_eq_true, decide_eq_true_eq, not_or, List.isEmpty_iff]
  exact ⟨by omega, hfront⟩

theorem splitExtension_subset (name : List Char) : (splitExtension name).1 ⊆ name := by
  unfold splitExtension
  dsimp only
  split
  · exact List.Subset.refl name
  · exact List.take_subset _ _

theorem slash_notMem_stem (path : String) : '/' ∉ (stem path).toList := by
  intro h
  rw [stem, String.toList_ofList] at h
  cases hname : fileName? path with
  | none => simp [hname] at h
  | some name =>
    rw [hname] at h
    have hmem : name ∈ trimEnd (segments (splitLead path.toList).2) := by
      unfold fileName? at hname
      split at hname
      · cases hname
      · rename_i last hlast
        split at hname
        · cases hname
        · exact Option.some.inj hname ▸ List.mem_of_getLast? hlast
    have hsegment : name ∈ segments (splitLead path.toList).2 :=
      List.mem_reverse.mp ((List.dropWhile_subset _) (List.mem_reverse.mp hmem))
    exact notMem_of_mem_segments hsegment (splitExtension_subset name h)

theorem IsPlain.of_extension {name front ext : String} (h : name = front ++ "." ++ ext) (hname : '/' ∉ name.toList)
    (hext : 1 < ext.length) : IsPlain name := by
  have hlength : 2 < name.length := by
    rw [h, String.length_append, String.length_append]
    have : ".".length = 1 := rfl
    omega
  refine ⟨hname, ?_, ?_, ?_⟩ <;> rintro rfl <;> revert hlength <;> decide

end Path

end JackAnalyzer
