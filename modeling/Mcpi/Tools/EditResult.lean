import Mcpi.Tools.EditGroups

/-!
# The result of the edits

Edits that succeed replace what they matched and nothing else: all matches at once where every old text is found
as it is, and else the matches of whole lines in their normalized copy.
-/

namespace Mcpi.Tools.EditDiff

open scoped List

variable {nfkc : Nfkc} {base content newContent : Text} {edits : List Edit} {unsorted : List MatchedEdit}
  {result : AppliedEditsResult}

/-! ## Edits and their matches -/

/-- Where the text sought is found. -/
def foundAt (nfkc : Nfkc) (base : Text) (edit : Edit) : Nat :=
  (Search.indexOf (sought nfkc base edit.oldText) base).getD 0

/-- The edit of a match. -/
def editOf (edits : List Edit) (matched : MatchedEdit) : Edit := edits.getD matched.editIndex ⟨[], []⟩

/-- A match of an edit is where its text is found. -/
structure MatchOf (nfkc : Nfkc) (base : Text) (edit : Edit) (matched : MatchedEdit) : Prop where
  found : Search.indexOf (sought nfkc base edit.oldText) base = some matched.matchIndex
  length : matched.matchLength = (sought nfkc base edit.oldText).length
  newText : matched.newText = edit.newText

theorem MatchOf.foundAt_eq {edit : Edit} {matched : MatchedEdit} (h : MatchOf nfkc base edit matched) :
    foundAt nfkc base edit = matched.matchIndex := by
  rw [foundAt, h.found, Option.getD_some]

theorem Applied.getElem? (h : Applied nfkc content edits result unsorted) (k : Nat) :
    (edits[k]?).map (fun edit => matchEdit nfkc (replacementBase nfkc content edits) (edit, k)) =
      (unsorted[k]?).map some := by
  have hk := congrArg (fun list => list[k]?) h.matched
  simp only [List.getElem?_map, List.getElem?_zipIdx, Nat.zero_add, Option.map_map] at hk
  exact hk

theorem Applied.matchOf (h : Applied nfkc content edits result unsorted) :
    ∀ matched ∈ unsorted, editOf edits matched ∈ edits ∧
      MatchOf nfkc (replacementBase nfkc content edits) (editOf edits matched) matched := by
  intro matched hmatched
  obtain ⟨k, hk, rfl⟩ := List.mem_iff_getElem.mp hmatched
  have hget := h.getElem? k
  rw [List.getElem?_eq_getElem hk, Option.map_some, Option.map_eq_some_iff] at hget
  obtain ⟨edit, hedit, hmatch⟩ := hget
  have hin := List.mem_of_getElem? hedit
  rw [matchEdit] at hmatch
  cases hfound : fuzzyFindText nfkc (replacementBase nfkc content edits) edit.oldText with
  | none =>
    rw [hfound] at hmatch
    cases hmatch
  | some found =>
    rw [hfound] at hmatch
    obtain ⟨-, hmatch⟩ := Option.ite_none_left_eq_some.mp hmatch
    have heq := Option.some.inj hmatch
    obtain ⟨hindex, hlength⟩ := found_sought (replacementBase_cases hin hfound) hfound
    have hof : editOf edits unsorted[k] = edit := by
      rw [editOf, ← heq, List.getD_eq_getElem?_getD, hedit, Option.getD_some]
    rw [hof, ← heq]
    exact ⟨hin, hindex, hlength, rfl⟩

/-- The matches are those of the edits, in their order. -/
theorem Applied.map_editOf (h : Applied nfkc content edits result unsorted) : unsorted.map (editOf edits) = edits := by
  apply List.ext_getElem?
  intro k
  have hget := h.getElem? k
  cases hmatched : unsorted[k]? with
  | none =>
    rw [hmatched, Option.map_none, Option.map_eq_none_iff] at hget
    rw [List.getElem?_map, hmatched, Option.map_none, hget]
  | some matched =>
    rw [hmatched, Option.map_some, Option.map_eq_some_iff] at hget
    obtain ⟨edit, hedit, hmatch⟩ := hget
    have hnumber : matched.editIndex = k := by
      rw [matchEdit] at hmatch
      split at hmatch
      · cases hmatch
      · dsimp only at hmatch
        split at hmatch
        · cases hmatch
        · rw [← Option.some.inj hmatch]
    rw [List.getElem?_map, hmatched, Option.map_some, editOf, hnumber, List.getD_eq_getElem?_getD, hedit,
      Option.getD_some]

/-- Sorted matches, none of which overlaps the next. -/
theorem apart_of_findOverlap {sorted : List MatchedEdit}
    (hsorted : sorted.Pairwise fun a b => a.matchIndex ≤ b.matchIndex) (h : findOverlap sorted = none) :
    sorted.Pairwise fun a b => a.matchIndex + a.matchLength ≤ b.matchIndex := by
  induction sorted with
  | nil => exact List.Pairwise.nil
  | cons first others ih =>
    obtain ⟨hfirst, hothers⟩ := List.pairwise_cons.mp hsorted
    cases others with
    | nil => exact List.pairwise_singleton _ _
    | cons second others =>
      rw [findOverlap] at h
      split at h
      · cases h
      next hapart =>
        refine List.pairwise_cons.mpr ⟨fun m hm => ?_, ih hothers h⟩
        have hsecond : second.matchIndex ≤ m.matchIndex := by
          rcases List.mem_cons.mp hm with rfl | hin
          · exact Nat.le_refl _
          · exact (List.pairwise_cons.mp hothers).1 m hin
        omega

theorem applyReplacements_eq (text : Text) (replacements : List MatchedEdit) (offset : Nat) :
    applyReplacements text replacements offset = Weave.replaceAll (fun m : MatchedEdit => m.matchIndex - offset)
      MatchedEdit.matchLength MatchedEdit.newText replacements text := rfl

/-- Matches inside a part of the base content cut it into gaps and old texts, and are replaced there. -/
theorem applyReplacements_weave {offset stop : Nat} {replacements : List MatchedEdit}
    (hmatch : ∀ m ∈ replacements, MatchOf nfkc base (editOf edits m) m)
    (hapart : replacements.Pairwise fun a b => a.matchIndex + a.matchLength ≤ b.matchIndex)
    (hinside : ∀ m ∈ replacements, offset ≤ m.matchIndex ∧ m.matchIndex + m.matchLength ≤ stop)
    (hstop : stop ≤ base.length) :
    ∃ parts last, (base.take stop).drop offset = Weave.weave (fun edit => sought nfkc base edit.oldText) parts last ∧
      parts.map Prod.snd = replacements.map (editOf edits) ∧
      Weave.Placed (foundAt nfkc base) (fun edit => sought nfkc base edit.oldText) offset parts ∧
      applyReplacements ((base.take stop).drop offset) replacements offset = Weave.weave Edit.newText parts last := by
  have hdisjoint : Weave.Disjoint MatchedEdit.matchIndex
      (fun m => sought nfkc base (editOf edits m).oldText) offset replacements := by
    apply Weave.Disjoint.of_pairwise
    · refine hapart.imp_of_mem fun {a b} ha hb hab => ?_
      rwa [← (hmatch a ha).length]
    · exact fun m hm => (hinside m hm).1
  have hdrop : ∀ m ∈ replacements, ((base.take stop).drop offset).drop (m.matchIndex - offset) =
      (base.drop m.matchIndex).take (stop - m.matchIndex) := by
    intro m hm
    have hfrom := (hinside m hm).1
    rw [List.drop_drop, Nat.add_sub_cancel' hfrom, List.drop_take]
  obtain ⟨parts, last, hweave, hmap, hplaced⟩ := Weave.exists_weave hdisjoint (fun m hm => by
      rw [hdrop m hm, List.prefix_take_iff]
      refine ⟨(Search.indexOf_eq_some.mp (hmatch m hm).found).1, ?_⟩
      rw [← (hmatch m hm).length]
      have hto := (hinside m hm).2
      omega)
    (fun m hm => by
      rw [List.length_drop, List.length_take]
      have hto := hinside m hm
      omega)
  have hin : ∀ gap ∈ parts, gap.2 ∈ replacements := by
    intro gap hgap
    rw [← hmap]
    exact List.mem_map_of_mem hgap
  have hreplaced : Weave.replaceAll (fun m : MatchedEdit => m.matchIndex - offset) MatchedEdit.matchLength
      MatchedEdit.newText (parts.map Prod.snd)
      ([] ++ Weave.weave (fun m => sought nfkc base (editOf edits m).oldText) parts last) =
        [] ++ Weave.weave MatchedEdit.newText parts last :=
    Weave.replaceAll_weave MatchedEdit.matchLength (fun gap hgap => (hmatch gap.2 (hin gap hgap)).length) []
      (Weave.Placed.sub (by rwa [List.length_nil, Nat.zero_add]))
  refine ⟨parts.map fun gap => (gap.1, editOf edits gap.2), last, ?_, ?_, ?_, ?_⟩
  · rw [hweave, Weave.weave_map]
  · rw [List.map_map, ← hmap, List.map_map]
    rfl
  · apply Weave.Placed.map
    exact hplaced.congr (fun gap hgap => (hmatch gap.2 (hin gap hgap)).foundAt_eq.symm) fun _ _ => rfl
  · rw [Weave.weave_map, applyReplacements_eq, hweave, ← hmap]
    rw [List.nil_append, List.nil_append] at hreplaced
    rw [hreplaced]
    exact Weave.weave_congr fun gap hgap => (hmatch gap.2 (hin gap hgap)).newText

/-! ## What the result is -/

/-- The content with all old texts, at the places where they are found, replaced at once. -/
def ReplacedAtOnce (content : Text) (edits : List Edit) (newContent : Text) : Prop :=
  ∃ parts last, parts.map Prod.snd ~ edits ∧ content = Weave.weave Edit.oldText parts last ∧
    Weave.Placed (fun edit => (Search.indexOf edit.oldText content).getD 0) Edit.oldText 0 parts ∧
    newContent = Weave.weave Edit.newText parts last

/-- Lines that are kept, the lines after them that edits touch, and the normalized text of these in parts. -/
structure LineRange where
  kept : List Text
  touched : List Text
  parts : List (Text × Edit)
  last : Text

/-- The parts of each range are where the texts are found, counted from `n` on in the normalized copy. -/
def PlacedRanges (nfkc : Nfkc) (base : Text) : (n : Nat) → List LineRange → Prop
  | _, [] => True
  | n, range :: ranges =>
    Weave.Placed (foundAt nfkc base) (fun edit => sought nfkc base edit.oldText)
      (n + (normalizeForFuzzyMatch nfkc range.kept.flatten).length) range.parts ∧
    PlacedRanges nfkc base (n + (normalizeForFuzzyMatch nfkc (range.kept ++ range.touched).flatten).length) ranges

/-- Between ranges the lines are those of the content; a range is the normalized text of its lines with the old
texts in it replaced. -/
def ReplacedInLines (nfkc : Nfkc) (content : Text) (edits : List Edit) (newContent : Text) : Prop :=
  ∃ (ranges : List LineRange) (rest : List Text),
    splitLinesWithEndings content = ranges.flatMap (fun range => range.kept ++ range.touched) ++ rest ∧
    (∀ range ∈ ranges, normalizeForFuzzyMatch nfkc range.touched.flatten =
      Weave.weave (fun edit => sought nfkc (normalizeForFuzzyMatch nfkc content) edit.oldText) range.parts range.last) ∧
    PlacedRanges nfkc (normalizeForFuzzyMatch nfkc content) 0 ranges ∧
    ranges.flatMap (fun range => range.parts.map Prod.snd) ~ edits ∧
    newContent = ranges.flatMap (fun range => range.kept.flatten ++ Weave.weave Edit.newText range.parts range.last) ++
      rest.flatten

theorem Applied.disjoint (h : Applied nfkc content edits result unsorted) : (sortByIndex unsorted).Pairwise
    fun a b => a.matchIndex + a.matchLength ≤ b.matchIndex :=
  apart_of_findOverlap (sortByIndex_pairwise unsorted) h.apart

theorem Applied.inside (h : Applied nfkc content edits result unsorted) : ∀ m ∈ unsorted,
    m.matchIndex + m.matchLength ≤ (replacementBase nfkc content edits).length := by
  intro m hm
  have hmatch := (h.matchOf m hm).2
  have hsplit := congrArg List.length (Search.split_of_indexOf hmatch.found)
  have hle := (Search.indexOf_eq_some.mp hmatch.found).2.1
  rw [List.length_append, List.length_append, List.length_take, List.length_drop] at hsplit
  rw [hmatch.length]
  omega

/-- The sorted matches are those of the edits, in another order. -/
theorem Applied.sorted_perm (h : Applied nfkc content edits result unsorted) :
    (sortByIndex unsorted).map (editOf edits) ~ edits := by
  have hperm := (sortByIndex_perm unsorted).map (editOf edits)
  rwa [h.map_editOf] at hperm

theorem sought_of_found {oldText : Text} (h : (Search.indexOf oldText base).isSome) :
    sought nfkc base oldText = oldText := by
  rw [sought, if_pos h]

theorem usesFuzzyMatch_eq_false (h : ∀ edit ∈ edits, (Search.indexOf edit.oldText content).isSome) :
    usesFuzzyMatch nfkc content edits = false := by
  apply List.any_eq_false.mpr
  intro edit hedit
  obtain ⟨index, hindex⟩ := Option.isSome_iff_exists.mp (h edit hedit)
  rw [fuzzyFindText, hindex]
  exact Bool.false_ne_true

theorem Applied.replacedAtOnce (h : Applied nfkc content edits result unsorted)
    (hexact : ∀ edit ∈ edits, (Search.indexOf edit.oldText content).isSome) :
    ReplacedAtOnce content edits result.newContent := by
  have hfuzzy : usesFuzzyMatch nfkc content edits = false := usesFuzzyMatch_eq_false hexact
  have hbase : replacementBase nfkc content edits = content := replacementBase_of_exact hfuzzy
  have hmatch := fun m hm => h.matchOf m (mem_sortByIndex.mp hm)
  have hinside := fun m hm => h.inside m (mem_sortByIndex.mp hm)
  rw [hbase] at hmatch hinside
  obtain ⟨parts, last, hweave, hmap, hplaced, hreplaced⟩ := applyReplacements_weave (fun m hm => (hmatch m hm).2)
    h.disjoint (fun m hm => ⟨Nat.zero_le _, hinside m hm⟩) (Nat.le_refl _)
  rw [List.take_length, List.drop_zero] at hweave hreplaced
  have hin : ∀ gap ∈ parts, sought nfkc content gap.2.oldText = gap.2.oldText := by
    intro gap hgap
    apply sought_of_found
    apply hexact
    apply h.sorted_perm.mem_iff.mp
    rw [← hmap]
    exact List.mem_map_of_mem hgap
  refine ⟨parts, last, ?_, ?_, ?_, ?_⟩
  · rw [hmap]
    exact h.sorted_perm
  · exact hweave.trans (Weave.weave_congr hin)
  · apply hplaced.congr _ hin
    intro gap hgap
    rw [foundAt, hin gap hgap]
  · rw [h.exactly hfuzzy, hbase, hreplaced]

theorem overlay_ranges {originalLines lines : List Text} (hended : originalLines.Pairwise fun line _ => Ended line)
    (hlines : lines = originalLines.map (normalizeForFuzzyMatch nfkc)) {groups : List Group} {n : Nat}
    (hmatch : ∀ group ∈ groups, ∀ m ∈ group.replacements, MatchOf nfkc lines.flatten (editOf edits m) m)
    (hok : ∀ group ∈ groups, GroupOk lines group) (hfrom : ∀ group ∈ groups, n ≤ group.startLine)
    (hapart : groups.Pairwise fun group later => group.endLine ≤ later.startLine) :
    ∃ (ranges : List LineRange) (rest : List Text),
      originalLines.drop n = ranges.flatMap (fun range => range.kept ++ range.touched) ++ rest ∧
      (∀ range ∈ ranges, normalizeForFuzzyMatch nfkc range.touched.flatten =
        Weave.weave (fun edit => sought nfkc lines.flatten edit.oldText) range.parts range.last) ∧
      PlacedRanges nfkc lines.flatten (lineOffset lines n) ranges ∧
      ranges.flatMap (fun range => range.parts.map Prod.snd) = (groups.flatMap Group.replacements).map (editOf edits) ∧
      overlay originalLines lines.flatten (spansFrom 0 lines) n groups =
        ranges.flatMap (fun range => range.kept.flatten ++ Weave.weave Edit.newText range.parts range.last) ++
          rest.flatten := by
  induction groups generalizing n with
  | nil => exact ⟨[], originalLines.drop n, rfl, nofun, trivial, rfl, rfl⟩
  | cons group groups ih =>
    obtain ⟨hgroup, hgroups⟩ := List.pairwise_cons.mp hapart
    have hthis := hok group (by simp)
    have hn := hfrom group (by simp)
    have hle : group.startLine ≤ group.endLine := Nat.le_of_lt hthis.nonempty
    have hstopLength : lineOffset lines group.endLine ≤ lines.flatten.length := by
      rw [← lineOffset_length]
      exact lineOffset_mono lines hthis.inText
    obtain ⟨parts, last, hweave, hmap, hplaced, hreplaced⟩ :=
      applyReplacements_weave (hmatch group (by simp)) hthis.apart hthis.inside hstopLength
    obtain ⟨ranges, rest, hparts, hnormal, hranges, hall, hoverlay⟩ := ih
      (fun g hg => hmatch g (List.mem_cons_of_mem _ hg)) (fun g hg => hok g (List.mem_cons_of_mem _ hg)) hgroup
      hgroups
    -- the lines of the content in a range are normalized to those of the copy
    have hnormalize : ∀ a b, normalizeForFuzzyMatch nfkc ((originalLines.take b).drop a).flatten =
        ((lines.take b).drop a).flatten := by
      intro a b
      rw [normalizeForFuzzyMatch_flatten, List.map_drop, List.map_take, ← hlines]
      exact hended.sublist ((List.drop_sublist _ _).trans (List.take_sublist _ _))
    refine ⟨⟨(originalLines.take group.startLine).drop n, (originalLines.take group.endLine).drop group.startLine,
      parts, last⟩ :: ranges, rest, ?_, ?_, ⟨?_, ?_⟩, ?_, ?_⟩
    · rw [List.flatMap_cons, slice_append _ hn hle, List.append_assoc, ← hparts,
        slice_append_rest _ (Nat.le_trans hn hle)]
    · intro range hrange
      rcases List.mem_cons.mp hrange with rfl | hother
      · rw [hnormalize, ← slice_flatten lines hle]
        exact hweave
      · exact hnormal range hother
    · rw [hnormalize, lineOffset_slice lines hn]
      exact hplaced
    · rw [slice_append _ hn hle, hnormalize, lineOffset_slice lines (Nat.le_trans hn hle)]
      exact hranges
    · rw [List.flatMap_cons, hall, hmap, List.flatMap_cons, List.map_append]
    · rw [overlay]
      rw [hthis.startOffset, hthis.stopOffset, hreplaced, hoverlay, List.flatMap_cons]
      simp only [List.append_assoc]

theorem Applied.replacedInLines (h : Applied nfkc content edits result unsorted)
    (hfuzzy : usesFuzzyMatch nfkc content edits = true) : ReplacedInLines nfkc content edits result.newContent := by
  have hbase : replacementBase nfkc content edits = normalizeForFuzzyMatch nfkc content :=
    replacementBase_of_fuzzy hfuzzy
  have hlines := h.overLines hfuzzy
  have hmatch := fun m hm => (h.matchOf m (mem_sortByIndex.mp hm)).2
  rw [hbase] at hlines hmatch
  rw [applyReplacementsPreservingUnchangedLines_eq, sortByIndex_sortByIndex] at hlines
  split at hlines
  · cases hlines
  next hcount =>
    have hkept := splitLines_normalizeForFuzzyMatch
      ((length_pieces_normalizeForFuzzyMatch nfkc content).mp (not_not.mp hcount))
    cases hgroups : (sortByIndex unsorted).foldlM
        (groupReplacement (getLineSpans (normalizeForFuzzyMatch nfkc content))) [] with
    | error message =>
      rw [hgroups] at hlines
      cases hlines
    | ok groups =>
      rw [hgroups] at hlines
      have hnew : overlay (splitLinesWithEndings content) (normalizeForFuzzyMatch nfkc content)
          (getLineSpans (normalizeForFuzzyMatch nfkc content)) 0 groups.reverse = result.newContent :=
        Except.ok.inj hlines
      have hgrouped : Grouped (splitLinesWithEndings (normalizeForFuzzyMatch nfkc content))
          ([] ++ sortByIndex unsorted) groups :=
        (grouped_nil _).run nofun h.disjoint hgroups
      have hflatten : (splitLinesWithEndings (normalizeForFuzzyMatch nfkc content)).flatten =
          normalizeForFuzzyMatch nfkc content := Separated.flatten_pieces newline _
      obtain ⟨ranges, rest, hparts, hnormal, hranges, hall, hoverlay⟩ := overlay_ranges (pairwise_ended content) hkept
        (fun group hgroup m hm => by
          rw [hflatten]
          apply hmatch
          rw [← List.nil_append (sortByIndex unsorted), ← hgrouped.all]
          exact List.mem_flatMap.mpr ⟨group, hgroup, hm⟩)
        (fun group hgroup => hgrouped.ok group (List.mem_reverse.mp hgroup))
        (fun group _ => Nat.zero_le group.startLine) (List.pairwise_reverse.mpr hgrouped.apart)
      rw [hflatten] at hnormal hranges hoverlay
      rw [lineOffset_zero] at hranges
      refine ⟨ranges, rest, hparts, hnormal, hranges, ?_, hnew.symm.trans hoverlay⟩
      rw [hall, hgrouped.all]
      exact h.sorted_perm

end Mcpi.Tools.EditDiff
