/-
  JackAnalyzer.Proofs.Store.Parents — the text of a path cut before the last of its segments that
  names something. What stands in front is the parent: the path begins as it does, starts where
  it does, and has its names and more behind them.
  - `exists_cut_parent`: a path is its parent, a slash and a text that names something.
  - `names_parent`: the names of a path are those of its parent and others behind them.
  - `fileName?_of_steps`: the last of its names is its file name.
-/

import JackAnalyzer.Proofs.Store.Paths

namespace JackAnalyzer

namespace Path

/-! ## The parent of a path -/

theorem splitLead_append (cs : List Char) : (splitLead cs).1 ++ (splitLead cs).2 = cs := by
  unfold splitLead
  split <;> rfl

theorem joinSegments_append {ss rs : List (List Char)} (hs : ss ≠ []) (hr : rs ≠ []) :
    joinSegments (ss ++ rs) = joinSegments ss ++ '/' :: joinSegments rs := by
  induction ss with
  | nil => exact absurd rfl hs
  | cons s ss ih =>
    cases ss with
    | nil =>
      obtain ⟨r, rs, rfl⟩ := List.exists_cons_of_ne_nil hr
      rfl
    | cons s' ss =>
      show s ++ '/' :: joinSegments (s' :: ss ++ rs) = s ++ '/' :: joinSegments (s' :: ss) ++ '/' :: joinSegments rs
      rw [ih (List.cons_ne_nil _ _)]
      simp

theorem segments_joinSegments {ss : List (List Char)} (hne : ss ≠ []) (h : ∀ s ∈ ss, '/' ∉ s) :
    segments (joinSegments ss) = ss := by
  induction ss with
  | nil => exact absurd rfl hne
  | cons s ss ih =>
    have hs := segments_of_notMem (h s List.mem_cons_self)
    cases ss with
    | nil => exact hs
    | cons s' ss =>
      show segments (s ++ '/' :: joinSegments (s' :: ss)) = _
      rw [segments_append, hs, ih (List.cons_ne_nil _ _) fun r hr => h r (List.mem_cons_of_mem _ hr)]
      rfl

theorem exists_eq_trimEnd_append (ss : List (List Char)) : ∃ rs, ss = trimEnd ss ++ rs := by
  refine ⟨(ss.reverse.takeWhile isIdle).reverse, ?_⟩
  rw [trimEnd, ← List.reverse_append, List.takeWhile_append_dropWhile, List.reverse_reverse]

theorem isIdle_of_trimEnd {ss xs : List (List Char)} {x : List Char} (h : trimEnd ss = xs ++ [x]) :
    isIdle x = false := by
  have hx := List.head?_dropWhile_not isIdle ss.reverse
  have hdrop : ss.reverse.dropWhile isIdle = x :: xs.reverse := by
    simpa [trimEnd] using congrArg List.reverse h
  rw [hdrop] at hx
  simpa using hx

theorem parent_of_trimEnd_eq_nil {path : String} (h : trimEnd (segments (splitLead path.toList).2) = []) :
    parent path = "" := by
  simp only [parent, h]

theorem toList_parent {path : String} {ss : List (List Char)} {s : List Char}
    (h : trimEnd (segments (splitLead path.toList).2) = ss ++ [s]) :
    (parent path).toList = (splitLead path.toList).1 ++ joinSegments (trimEnd ss) := by
  simp only [parent, h]
  split
  · rename_i hnil
    exact absurd hnil (by simp)
  · rw [List.dropLast_concat, String.toList_ofList]

theorem exists_segments_parent {path : String} (h : parent path ≠ "") : ∃ xs ys,
    segments (splitLead path.toList).2 = xs ++ ys ∧
      (parent path).toList = (splitLead path.toList).1 ++ joinSegments xs ∧ ∃ y ∈ ys, isIdle y = false := by
  rcases List.eq_nil_or_concat' (trimEnd (segments (splitLead path.toList).2)) with hnil | ⟨xs, x, hx⟩
  · exact absurd (parent_of_trimEnd_eq_nil hnil) h
  · obtain ⟨idle, hidle⟩ := exists_eq_trimEnd_append (segments (splitLead path.toList).2)
    obtain ⟨idle', hidle'⟩ := exists_eq_trimEnd_append xs
    refine ⟨trimEnd xs, idle' ++ x :: idle, ?_, toList_parent hx, x, by simp, isIdle_of_trimEnd hx⟩
    rw [← List.append_assoc, ← hidle']
    simpa [hx] using hidle

theorem splitLead_cases (cs : List Char) : splitLead cs = ([], cs) ∨ (∃ b, cs = '/' :: b ∧ splitLead cs = (['/'], b)) ∨
    cs = ['.'] ∧ splitLead cs = (['.'], []) ∨ ∃ b, cs = '.' :: '/' :: b ∧ splitLead cs = (['.'], '/' :: b) := by
  unfold splitLead
  split <;> simp

/-- A path is its parent, a slash and a text that names something; the parent at the root is the
    slash itself. -/
theorem exists_cut_parent {path : String} (h : parent path ≠ "") : ∃ rest, (∃ y ∈ segments rest, isIdle y = false) ∧
    (path.toList = (parent path).toList ++ '/' :: rest ∨ (parent path).toList = ['/'] ∧ path.toList = '/' :: rest) := by
  obtain ⟨xs, ys, hsegments, hparent, y, hy, hidle⟩ := exists_segments_parent h
  have hys : ys ≠ [] := List.ne_nil_of_mem hy
  by_cases hxs : xs = []
  · -- all that stands in front is the lead
    subst hxs
    rw [List.nil_append] at hsegments
    rw [joinSegments, List.append_nil] at hparent
    subst hsegments
    rcases splitLead_cases path.toList with hlead | ⟨b, hb, hlead⟩ | ⟨-, hlead⟩ | ⟨b, hb, hlead⟩ <;>
      rw [hlead] at hparent hy
    · exact absurd (by simpa using hparent) h
    · exact ⟨b, ⟨y, hy, hidle⟩, Or.inr ⟨hparent, hb⟩⟩
    · obtain rfl : y = [] := by simpa [segments] using hy
      cases hidle
    · refine ⟨b, ⟨y, ?_, hidle⟩, Or.inl (by rw [hparent, hb]; rfl)⟩
      rcases List.mem_cons.mp (show y ∈ [] :: segments b from hy) with rfl | hy
      · cases hidle
      · exact hy
  · have hslash : ∀ s ∈ ys, '/' ∉ s := fun s hs =>
      notMem_of_mem_segments (hsegments ▸ List.mem_append_right xs hs)
    refine ⟨joinSegments ys, ⟨y, by rwa [segments_joinSegments hys hslash], hidle⟩, Or.inl ?_⟩
    rw [hparent, List.append_assoc, ← joinSegments_append hxs hys, ← hsegments, joinSegments_segments, splitLead_append]

theorem exists_eq_parent_append {path : String} (h : parent path ≠ "") :
    ∃ more, more ≠ "" ∧ path = parent path ++ more := by
  obtain ⟨rest, ⟨y, hy, hidle⟩, htext | ⟨hroot, htext⟩⟩ := exists_cut_parent h
  · exact ⟨String.ofList ('/' :: rest), by simp, String.toList_injective (by simpa using htext)⟩
  · refine ⟨String.ofList rest, fun hnil => ?_, String.toList_injective (by simp [hroot, htext])⟩
    obtain rfl : rest = [] := by simpa using hnil
    obtain rfl : y = [] := by simpa [segments] using hy
    cases hidle

theorem length_parent_lt {path : String} (h : path ≠ "") : (parent path).length < path.length := by
  by_cases hparent : parent path = ""
  · rw [hparent]
    exact Nat.pos_of_ne_zero fun hzero => h (String.length_eq_zero_iff.mp hzero)
  · obtain ⟨more, hmore, heq⟩ := exists_eq_parent_append hparent
    have hpos : more.length ≠ 0 := fun hzero => hmore (String.length_eq_zero_iff.mp hzero)
    have hlength := congrArg String.length heq
    rw [String.length_append] at hlength
    omega

/-! ## The last segment -/

theorem getLast?_of_segments {cs : List Char} {ss : List (List Char)} (h : segments cs = ss ++ [[]]) :
    cs = [] ∨ cs.getLast? = some '/' := by
  have htext := joinSegments_segments cs
  rw [h] at htext
  by_cases hss : ss = []
  · subst hss
    exact Or.inl htext.symm
  · rw [joinSegments_append hss (by simp)] at htext
    exact Or.inr (by rw [← htext, List.getLast?_append]; rfl)

theorem getLast?_segments_splitLead {cs s : List Char} (hidle : isIdle s = false)
    (h : (segments cs).getLast? = some s) : (segments (splitLead cs).2).getLast? = some s := by
  have hcons (t : List Char) {b : List Char} (hb : (t :: segments b).getLast? = some s) :
      (segments b).getLast? = some s := by
    rwa [List.getLast?_cons_of_ne_nil (segments_ne_nil b)] at hb
  rcases splitLead_cases cs with hlead | ⟨b, rfl, hlead⟩ | ⟨rfl, -⟩ | ⟨b, rfl, hlead⟩
  · rwa [hlead]
  · rw [hlead]
    exact hcons [] h
  · obtain rfl : ['.'] = s := by simpa [segments] using h
    cases hidle
  · rw [hlead, show segments ('/' :: b) = [] :: segments b from rfl]
    have hrest := hcons ['.'] (b := b) (by simpa [segments] using h)
    rw [List.getLast?_cons_of_ne_nil (segments_ne_nil b), hrest]

end Path

namespace Store

open JackAnalyzer.Path

theorem startOf_parent {path : String} (h : parent path ≠ "") (above : Location) :
    startOf path above = startOf (parent path) above := by
  have hne : (parent path).toList ≠ [] := fun hnil => h (by simpa using hnil)
  have hhead : path.toList.head? = (parent path).toList.head? := by
    obtain ⟨rest, -, htext | ⟨hroot, htext⟩⟩ := exists_cut_parent h
    · rw [htext, List.head?_append, Option.or_of_isSome (by simpa using hne)]
    · rw [htext, hroot]
      rfl
  rw [startOf, startOf, hhead]

/-- The names of a path are those of its parent and others behind them. -/
theorem names_parent {path : String} (h : parent path ≠ "") : ∃ front name,
    names path = names (parent path) ++ (front ++ [name]) := by
  obtain ⟨rest, ⟨y, hy, hidle⟩, htext⟩ := exists_cut_parent h
  have hne : names (String.ofList rest) ≠ [] := by
    have hsome : y ≠ [] := by
      rintro rfl
      cases hidle
    refine List.ne_nil_of_mem (a := String.ofList y) (List.mem_map_of_mem (List.mem_filter.mpr ⟨?_, ?_⟩))
    rotate_left
    · simpa using hsome
    rwa [String.toList_ofList]
  obtain ⟨front, name, hrest⟩ := List.eq_nil_or_concat' (names (String.ofList rest)) |>.resolve_left hne
  refine ⟨front, name, ?_⟩
  rw [← hrest]
  rcases htext with htext | ⟨hroot, htext⟩
  · rw [names_append path _ _ htext, String.ofList_toList]
  · have hnone : names (parent path) = [] := by
      rw [names, hroot]
      rfl
    rw [names_append path [] rest htext, hnone]
    rfl

theorem admitted_eq_ok_iff {path : String} : admitted path = .ok () ↔
    '\x00' ∉ path.toList ∧ path ≠ "" ∧ path.utf8ByteSize ≤ pathLimit := by
  unfold admitted
  split
  · simp_all
  · split
    · simp_all
    · split <;> simp_all

theorem admitted_of_append {path more : String} (hne : path ≠ "") (h : admitted (path ++ more) = .ok ()) :
    admitted path = .ok () := by
  obtain ⟨hnul, -, hsize⟩ := admitted_eq_ok_iff.mp h
  rw [String.toList_append, List.mem_append, not_or] at hnul
  rw [String.utf8ByteSize_append] at hsize
  exact admitted_eq_ok_iff.mpr ⟨hnul.1, hne, by omega⟩

theorem admitted_parent {path : String} (hpath : admitted path = .ok ()) (h : parent path ≠ "") :
    admitted (parent path) = .ok () := by
  obtain ⟨more, -, heq⟩ := exists_eq_parent_append h
  exact admitted_of_append h (heq ▸ hpath)

theorem admitted_of_join {dir name : String} (hne : dir ≠ "") (h : admitted (join dir name) = .ok ()) :
    admitted dir = .ok () := by
  rw [join, if_neg (by simpa using hne)] at h
  split at h
  · exact admitted_of_append hne h
  · exact admitted_of_append hne (String.append_assoc ▸ h)

/-- A path whose names end in one that stands for itself, with no slash behind it, has that for
    its file name. -/
theorem fileName?_of_steps {path : String} {front : List String} {name : String} (h : steps path = front ++ [name])
    (hne : name ≠ "") (hdot : name ≠ ".") (hdots : name ≠ "..") : fileName? path = some name.toList := by
  have hslash : path.toList.getLast? ≠ some '/' := by
    intro hslash
    rw [steps, if_pos hslash] at h
    exact hne (List.singleton_inj.mp (List.append_inj' h rfl).2).symm
  rw [steps, if_neg hslash, List.append_nil] at h
  obtain ⟨ss, last, hsegments⟩ := (List.eq_nil_or_concat' (segments path.toList)).resolve_left (segments_ne_nil _)
  have hlast : last = name.toList := by
    by_cases hnil : last = []
    · subst hnil
      rcases getLast?_of_segments hsegments with hempty | hend
      · rw [names, hempty] at h
        exact absurd h (by simp [segments])
      · exact absurd hend hslash
    · rw [names, hsegments, List.filter_append, List.map_append] at h
      have hsingle := (List.append_inj' h (by simp [hnil])).2
      have hname : String.ofList last = name := by simpa [hnil] using hsingle
      rw [← hname, String.toList_ofList]
  subst hlast
  have hidle : isIdle name.toList = false := by
    have hempty : name.toList ≠ [] := fun hnil => hne (by simpa using hnil)
    have hdot' : name.toList ≠ ['.'] := fun heq => hdot (String.toList_injective heq)
    simp [isIdle, hempty, hdot']
  have hbody := getLast?_segments_splitLead hidle (by rw [hsegments, List.getLast?_concat])
  obtain ⟨ss', hss'⟩ := List.getLast?_eq_some_iff.mp hbody
  rw [fileName?, hss', trimEnd_append_singleton hidle, List.getLast?_concat]
  exact if_neg fun heq => hdots (String.toList_injective heq)

end Store

end JackAnalyzer
