import Mcpi.Tools.EditDiff

/-!
# The lines that a replacement touches

Where the lines of a text begin, and which of them a replacement of a part of the text touches.
-/

namespace Mcpi.Tools.EditDiff

open scoped List

variable {lines : List Text} {replacement : MatchedEdit} {startLine endLine i k : Nat}

/-- Where line `k` begins. -/
def lineOffset (lines : List Text) (k : Nat) : Nat := (lines.take k).flatten.length

@[simp] theorem lineOffset_zero (lines : List Text) : lineOffset lines 0 = 0 := by
  rw [lineOffset, List.take_zero, List.flatten_nil, List.length_nil]

theorem lineOffset_length (lines : List Text) : lineOffset lines lines.length = lines.flatten.length := by
  rw [lineOffset, List.take_length]

theorem lineOffset_cons_succ (line : Text) (lines : List Text) (k : Nat) :
    lineOffset (line :: lines) (k + 1) = line.length + lineOffset lines k := by
  rw [lineOffset, List.take_succ_cons, List.flatten_cons, List.length_append, lineOffset]

theorem lineOffset_le_succ (lines : List Text) (k : Nat) : lineOffset lines k ≤ lineOffset lines (k + 1) := by
  rw [lineOffset, lineOffset, List.take_add_one, List.flatten_append, List.length_append]
  exact Nat.le_add_right _ _

theorem lineOffset_mono (lines : List Text) : Monotone (lineOffset lines) :=
  monotone_nat_of_le_succ (lineOffset_le_succ lines)

theorem length_spansFrom (offset : Nat) (lines : List Text) : (spansFrom offset lines).length = lines.length := by
  induction lines generalizing offset with
  | nil => rfl
  | cons line lines ih => rw [spansFrom, List.length_cons, ih, List.length_cons]

theorem getElem?_spansFrom (offset : Nat) (lines : List Text) (k : Nat) : (spansFrom offset lines)[k]? =
    lines[k]?.map fun _ => ⟨offset + lineOffset lines k, offset + lineOffset lines (k + 1)⟩ := by
  induction lines generalizing offset k with
  | nil => rfl
  | cons line lines ih =>
    cases k with
    | zero =>
      rw [spansFrom, List.getElem?_cons_zero, List.getElem?_cons_zero, Option.map_some,
        lineOffset_cons_succ, lineOffset_zero, lineOffset_zero]
      rfl
    | succ k =>
      rw [spansFrom, List.getElem?_cons_succ, List.getElem?_cons_succ, ih, lineOffset_cons_succ, lineOffset_cons_succ]
      simp only [Nat.add_assoc]

theorem getElem_spansFrom (hk : k < (spansFrom 0 lines).length) :
    (spansFrom 0 lines)[k] = ⟨lineOffset lines k, lineOffset lines (k + 1)⟩ := by
  have hline : k < lines.length := by rwa [length_spansFrom] at hk
  have hget := getElem?_spansFrom 0 lines k
  rw [List.getElem?_eq_getElem hk, List.getElem?_eq_getElem hline, Option.map_some, Nat.zero_add, Nat.zero_add] at hget
  exact Option.some.inj hget

theorem exists_line (h : i < lines.flatten.length) :
    ∃ k < lines.length, lineOffset lines k ≤ i ∧ i < lineOffset lines (k + 1) := by
  induction lines generalizing i with
  | nil => exact absurd h (Nat.not_lt_zero _)
  | cons line lines ih =>
    by_cases hfirst : i < line.length
    · refine ⟨0, Nat.succ_pos _, ?_, ?_⟩
      · rw [lineOffset_zero]
        exact Nat.zero_le _
      · rw [lineOffset_cons_succ, lineOffset_zero]
        exact hfirst
    · rw [List.flatten_cons, List.length_append] at h
      have hrest : i - line.length < lines.flatten.length := by omega
      obtain ⟨k, hk, hstart, hstop⟩ := ih hrest
      refine ⟨k + 1, Nat.succ_lt_succ hk, ?_, ?_⟩
      · rw [lineOffset_cons_succ]
        omega
      · rw [lineOffset_cons_succ]
        omega

/-- The lines from `startLine` up to `endLine` are those that a replacement touches. -/
structure Touches (lines : List Text) (replacement : MatchedEdit) (startLine endLine : Nat) : Prop where
  first : lineOffset lines startLine ≤ replacement.matchIndex
  second : replacement.matchIndex < lineOffset lines (startLine + 1)
  nonempty : startLine < endLine
  inText : endLine ≤ lines.length
  last : replacement.matchIndex + replacement.matchLength ≤ lineOffset lines endLine
  least : ∀ k, startLine < k → k < endLine → lineOffset lines k < replacement.matchIndex + replacement.matchLength

theorem touches_of_getReplacementLineRange
    (h : getReplacementLineRange (spansFrom 0 lines) replacement = .ok (startLine, endLine)) :
    Touches lines replacement startLine endLine := by
  unfold getReplacementLineRange at h
  dsimp only at h
  split at h
  · cases h
  next found hfound =>
    split at h
    · cases h
    next more hmore =>
      cases h
      obtain ⟨hlt, hin, -⟩ := List.findIdx?_eq_some_iff_getElem.mp hfound
      obtain ⟨hltMore, hstop, hbefore⟩ := List.findIdx?_eq_some_iff_getElem.mp hmore
      rw [getElem_spansFrom, Bool.and_eq_true, decide_eq_true_eq, decide_eq_true_eq] at hin
      rw [List.getElem_drop, getElem_spansFrom, decide_eq_true_eq] at hstop
      rw [List.length_drop, length_spansFrom] at hltMore
      refine ⟨hin.1, hin.2, by omega, by omega, hstop, fun k hk hkend => ?_⟩
      have hnot := hbefore (k - startLine - 1) (by omega)
      rw [List.getElem_drop, getElem_spansFrom, decide_eq_true_eq, Nat.not_le] at hnot
      rwa [show startLine + (k - startLine - 1) + 1 = k by omega] at hnot

theorem exists_getReplacementLineRange (hindex : replacement.matchIndex < lines.flatten.length)
    (hstop : replacement.matchIndex + replacement.matchLength ≤ lines.flatten.length) :
    ∃ startLine endLine, getReplacementLineRange (spansFrom 0 lines) replacement = .ok (startLine, endLine) := by
  obtain ⟨line, hline, hfrom, hto⟩ := exists_line hindex
  have hspan : line < (spansFrom 0 lines).length := by rwa [length_spansFrom]
  unfold getReplacementLineRange
  dsimp only
  split
  next hnone =>
    have hno := List.findIdx?_eq_none_iff.mp hnone _ (List.getElem_mem hspan)
    rw [getElem_spansFrom, Bool.and_eq_false_iff, decide_eq_false_iff_not, decide_eq_false_iff_not] at hno
    dsimp only at hno
    omega
  next found hfound =>
    obtain ⟨hlt, -, -⟩ := List.findIdx?_eq_some_iff_getElem.mp hfound
    split
    next hnone =>
      -- the last line ends where the text does
      have hlast : (spansFrom 0 lines).length - 1 < (spansFrom 0 lines).length := by omega
      have hmem : (spansFrom 0 lines)[(spansFrom 0 lines).length - 1] ∈ (spansFrom 0 lines).drop found :=
        List.mem_drop_iff_getElem.mpr ⟨(spansFrom 0 lines).length - 1 - found, by omega, by
          congr 1
          omega⟩
      have hno := List.findIdx?_eq_none_iff.mp hnone _ hmem
      rw [getElem_spansFrom, decide_eq_false_iff_not] at hno
      rw [show (spansFrom 0 lines).length - 1 + 1 = lines.length by
        rw [length_spansFrom] at hlast ⊢
        omega, lineOffset_length] at hno
      exact absurd hstop hno
    · exact ⟨_, _, rfl⟩

/-- Where every replacement is inside the text, their lines are grouped. -/
theorem exists_groups (replacements : List MatchedEdit) (groups : List Group)
    (h : ∀ replacement ∈ replacements, replacement.matchIndex < lines.flatten.length ∧
      replacement.matchIndex + replacement.matchLength ≤ lines.flatten.length) :
    ∃ result, replacements.foldlM (groupReplacement (spansFrom 0 lines)) groups = .ok result := by
  induction replacements generalizing groups with
  | nil => exact ⟨groups, rfl⟩
  | cons replacement replacements ih =>
    obtain ⟨hindex, hstop⟩ := h replacement (by simp)
    obtain ⟨startLine, endLine, hrange⟩ := exists_getReplacementLineRange hindex hstop
    have hgroup : ∃ next, groupReplacement (spansFrom 0 lines) groups replacement = .ok next := by
      rw [groupReplacement, hrange]
      cases groups with
      | nil => exact ⟨_, rfl⟩
      | cons current others =>
        dsimp only [bind, Except.bind]
        split <;> exact ⟨_, rfl⟩
    obtain ⟨next, hnext⟩ := hgroup
    obtain ⟨result, hresult⟩ := ih next fun r hr => h r (List.mem_cons_of_mem _ hr)
    refine ⟨result, ?_⟩
    rw [List.foldlM_cons, hnext]
    exact hresult

/-! ## Sorted replacements -/

instance : Std.Total fun a b : MatchedEdit => a.matchIndex ≤ b.matchIndex :=
  ⟨fun a b => Nat.le_total a.matchIndex b.matchIndex⟩

instance : IsTrans MatchedEdit fun a b => a.matchIndex ≤ b.matchIndex := ⟨fun _ _ _ => Nat.le_trans⟩

theorem sortByIndex_perm (edits : List MatchedEdit) : sortByIndex edits ~ edits := List.perm_insertionSort _ _

theorem mem_sortByIndex {edits : List MatchedEdit} {edit : MatchedEdit} : edit ∈ sortByIndex edits ↔ edit ∈ edits :=
  (sortByIndex_perm edits).mem_iff

theorem sortByIndex_pairwise (edits : List MatchedEdit) :
    (sortByIndex edits).Pairwise fun a b => a.matchIndex ≤ b.matchIndex :=
  List.pairwise_insertionSort _ edits

theorem sortByIndex_sortByIndex (edits : List MatchedEdit) : sortByIndex (sortByIndex edits) = sortByIndex edits :=
  (sortByIndex_pairwise edits).insertionSort_eq

/-- What the line-preserving replacement does once the lines of the two contents have been counted. -/
theorem applyReplacementsPreservingUnchangedLines_eq (content base : Text) (replacements : List MatchedEdit) :
    applyReplacementsPreservingUnchangedLines content base replacements =
      if (splitLinesWithEndings content).length ≠ (splitLinesWithEndings base).length then .error lineCountError
      else ((sortByIndex replacements).foldlM (groupReplacement (getLineSpans base)) []).map fun groups =>
        overlay (splitLinesWithEndings content) base (getLineSpans base) 0 groups.reverse := by
  unfold applyReplacementsPreservingUnchangedLines
  dsimp only
  rw [show (getLineSpans base).length = (splitLinesWithEndings base).length from length_spansFrom _ _]
  split
  · rfl
  · cases (sortByIndex replacements).foldlM (groupReplacement (getLineSpans base)) [] <;> rfl

end Mcpi.Tools.EditDiff
