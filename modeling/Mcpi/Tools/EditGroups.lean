import Mcpi.Lib.Weave
import Mcpi.Tools.EditUnique

/-!
# Groups of touched lines

Replacements that do not overlap are grouped by the lines they touch, and the lines of a group come from the
normalized copy of the same lines.
-/

namespace Mcpi.Tools.EditDiff

variable {nfkc : Nfkc} {text line content : Text} {lines : List Text} {replacement : MatchedEdit}
  {replacements done : List MatchedEdit} {groups : List Group} {s e : Nat}

/-! ## Normalized lines -/

/-- A line with its line end. -/
def Ended (line : Text) : Prop := ∃ part, newline ∉ part ∧ line = part ++ [newline]

theorem pairwise_ended (text : Text) : (splitLinesWithEndings text).Pairwise fun line _ => Ended line := by
  unfold splitLinesWithEndings
  induction text using Separated.induct newline with
  | last part hpart =>
    rw [Separated.pieces_part hpart]
    split
    · exact List.Pairwise.nil
    · exact List.pairwise_singleton _ _
  | more part rest hpart ih =>
    rw [Separated.pieces_append hpart]
    exact List.pairwise_cons.mpr ⟨fun _ _ => ⟨part, hpart, rfl⟩, ih⟩

theorem normalizeForFuzzyMatch_nil (nfkc : Nfkc) : normalizeForFuzzyMatch nfkc [] = [] := by
  rw [normalizeForFuzzyMatch_line List.not_mem_nil, normalizeLine_nil]

theorem normalizeForFuzzyMatch_append (h : newline ∉ line) (text : Text) :
    normalizeForFuzzyMatch nfkc (line ++ newline :: text) =
      normalizeLine nfkc line ++ newline :: normalizeForFuzzyMatch nfkc text := by
  rw [normalizeForFuzzyMatch_eq, List.splitOn_append_cons_self_of_not_mem h, List.map_cons, Separated.join_cons,
    normalizeForFuzzyMatch_eq]
  exact fun hnil => List.splitOn_ne_nil newline text (List.map_eq_nil_iff.mp hnil)

theorem normalizeForFuzzyMatch_flatten (h : lines.Pairwise fun line _ => Ended line) :
    normalizeForFuzzyMatch nfkc lines.flatten = (lines.map (normalizeForFuzzyMatch nfkc)).flatten := by
  induction lines with
  | nil => exact normalizeForFuzzyMatch_nil nfkc
  | cons line lines ih =>
    obtain ⟨hline, hlines⟩ := List.pairwise_cons.mp h
    cases lines with
    | nil => simp only [List.flatten_cons, List.flatten_nil, List.append_nil, List.map_cons, List.map_nil]
    | cons next lines =>
      obtain ⟨part, hpart, rfl⟩ := hline next (by simp)
      generalize next :: lines = more at ih hlines ⊢
      rw [List.flatten_cons, List.map_cons, List.flatten_cons, ← ih hlines, List.append_assoc,
        List.singleton_append, normalizeForFuzzyMatch_append hpart, normalizeForFuzzyMatch_append hpart,
        normalizeForFuzzyMatch_nil, List.append_assoc, List.singleton_append]

theorem lastLine_append (h : newline ∉ line) (text : Text) : lastLine (line ++ newline :: text) = lastLine text := by
  rw [lastLine, List.splitOn_append_cons_self_of_not_mem h, List.getLastD_cons, lastLine]
  cases hsplit : List.splitOn newline text with
  | nil => exact absurd hsplit (List.splitOn_ne_nil newline text)
  | cons next parts => rw [List.getLastD_cons, List.getLastD_cons]

/-- Where no line is lost, the lines of the normalized copy are those of the content, normalized. -/
theorem splitLines_normalizeForFuzzyMatch (h : lastLine content = [] ∨ normalizeLine nfkc (lastLine content) ≠ []) :
    splitLinesWithEndings (normalizeForFuzzyMatch nfkc content) =
      (splitLinesWithEndings content).map (normalizeForFuzzyMatch nfkc) := by
  unfold splitLinesWithEndings
  induction content using Separated.induct newline with
  | last part hpart =>
    have hlast : lastLine part = part := by
      rw [lastLine, List.splitOn_eq_singleton hpart, List.getLastD_cons, List.getLastD_nil]
    rw [hlast] at h
    rw [normalizeForFuzzyMatch_line hpart, Separated.pieces_part (newline_not_mem_normalizeLine hpart),
      Separated.pieces_part hpart]
    rcases h with rfl | hne
    · rw [normalizeLine_nil, if_pos rfl, List.map_nil]
    · have hpartNe : part ≠ [] := by
        rintro rfl
        exact hne (normalizeLine_nil nfkc)
      rw [if_neg hne, if_neg hpartNe, List.map_singleton, normalizeForFuzzyMatch_line hpart]
  | more part rest hpart ih =>
    rw [lastLine_append hpart] at h
    rw [normalizeForFuzzyMatch_append hpart, Separated.pieces_append (newline_not_mem_normalizeLine hpart),
      Separated.pieces_append hpart, List.map_cons, ih h, normalizeForFuzzyMatch_append hpart,
      normalizeForFuzzyMatch_nil]

theorem slice_flatten (lines : List Text) (hle : s ≤ e) :
    (lines.flatten.take (lineOffset lines e)).drop (lineOffset lines s) = ((lines.take e).drop s).flatten := by
  have hend : lines.flatten = (lines.take e).flatten ++ (lines.drop e).flatten := by
    rw [← List.flatten_append, List.take_append_drop]
  have hstart : (lines.take e).flatten = (lines.take s).flatten ++ ((lines.take e).drop s).flatten := by
    have htake : (lines.take e).take s = lines.take s := by rw [List.take_take, Nat.min_eq_left hle]
    rw [← List.flatten_append, ← htake, List.take_append_drop]
  rw [hend, lineOffset, lineOffset, List.take_left, hstart, List.drop_left]

theorem lineOffset_slice (lines : List Text) (hle : s ≤ e) :
    lineOffset lines s + ((lines.take e).drop s).flatten.length = lineOffset lines e := by
  have htake : (lines.take e).take s = lines.take s := by rw [List.take_take, Nat.min_eq_left hle]
  rw [lineOffset, lineOffset, ← htake, ← List.length_append, ← List.flatten_append, List.take_append_drop]

theorem slice_append {α : Type} (list : List α) {a b c : Nat} (hab : a ≤ b) (hbc : b ≤ c) :
    (list.take b).drop a ++ (list.take c).drop b = (list.take c).drop a := by
  have htake : (list.take c).take b = list.take b := by rw [List.take_take, Nat.min_eq_left hbc]
  rw [← htake, List.drop_take, ← Nat.add_sub_cancel' hab, ← List.drop_drop, Nat.add_sub_cancel_left,
    List.take_append_drop]

theorem slice_append_rest {α : Type} (list : List α) {a b : Nat} (hab : a ≤ b) :
    (list.take b).drop a ++ list.drop b = list.drop a := by
  have hrest : list.drop b = (list.drop a).drop (b - a) := by rw [List.drop_drop, Nat.add_sub_cancel' hab]
  rw [List.drop_take, hrest, List.take_append_drop]

/-! ## What a group is -/

/-- A replacement touches a line. -/
def TouchesLine (lines : List Text) (replacement : MatchedEdit) (k : Nat) : Prop :=
  ∃ startLine endLine, getReplacementLineRange (spansFrom 0 lines) replacement = .ok (startLine, endLine) ∧
    startLine ≤ k ∧ k < endLine

/-- The matches of a group are in its lines, touch each of them and do not overlap. -/
structure GroupOk (lines : List Text) (group : Group) : Prop where
  nonempty : group.startLine < group.endLine
  inText : group.endLine ≤ lines.length
  apart : group.replacements.Pairwise fun a b => a.matchIndex + a.matchLength ≤ b.matchIndex
  inside : ∀ m ∈ group.replacements, lineOffset lines group.startLine ≤ m.matchIndex ∧
    m.matchIndex + m.matchLength ≤ lineOffset lines group.endLine
  some : group.replacements ≠ []
  covered : ∀ k, group.startLine ≤ k → k < group.endLine → ∃ m ∈ group.replacements, TouchesLine lines m k

theorem GroupOk.startOffset {group : Group} (h : GroupOk lines group) :
    ((spansFrom 0 lines).getD group.startLine ⟨0, 0⟩).start = lineOffset lines group.startLine := by
  have hin : group.startLine < (spansFrom 0 lines).length := by
    rw [length_spansFrom]
    exact Nat.lt_of_lt_of_le h.nonempty h.inText
  rw [List.getD_eq_getElem?_getD, List.getElem?_eq_getElem hin, Option.getD_some, getElem_spansFrom]

theorem GroupOk.stopOffset {group : Group} (h : GroupOk lines group) :
    ((spansFrom 0 lines).getD (group.endLine - 1) ⟨0, 0⟩).stop = lineOffset lines group.endLine := by
  have hpos := h.nonempty
  have hle := h.inText
  have hin : group.endLine - 1 < (spansFrom 0 lines).length := by
    rw [length_spansFrom]
    omega
  rw [List.getD_eq_getElem?_getD, List.getElem?_eq_getElem hin, Option.getD_some, getElem_spansFrom]
  show lineOffset lines (group.endLine - 1 + 1) = _
  rw [Nat.sub_add_cancel (by omega)]

/-- The groups so far, the last one first: they do not share lines, and hold the replacements in their order. -/
structure Grouped (lines : List Text) (done : List MatchedEdit) (groups : List Group) : Prop where
  ok : ∀ group ∈ groups, GroupOk lines group
  apart : groups.Pairwise fun later group => group.endLine ≤ later.startLine
  all : groups.reverse.flatMap Group.replacements = done

/-- A replacement after all those of a group begins after the group does. -/
theorem GroupOk.start_le {group : Group} (h : GroupOk lines group)
    (hafter : ∀ m ∈ group.replacements, m.matchIndex + m.matchLength ≤ replacement.matchIndex) :
    lineOffset lines group.startLine ≤ replacement.matchIndex := by
  obtain ⟨m, others, hcons⟩ := List.exists_cons_of_ne_nil h.some
  have hm : m ∈ group.replacements := by rw [hcons]; exact List.mem_cons_self
  have hin := (h.inside m hm).1
  have hbefore := hafter m hm
  omega

theorem Grouped.step (h : Grouped lines done groups)
    (hafter : ∀ m ∈ done, m.matchIndex + m.matchLength ≤ replacement.matchIndex) {next : List Group}
    (hstep : groupReplacement (spansFrom 0 lines) groups replacement = .ok next) :
    Grouped lines (done ++ [replacement]) next := by
  unfold groupReplacement at hstep
  cases hrange : getReplacementLineRange (spansFrom 0 lines) replacement with
  | error message =>
    rw [hrange] at hstep
    cases hstep
  | ok range =>
    obtain ⟨startLine, endLine⟩ := range
    have htouches := touches_of_getReplacementLineRange hrange
    have hnew : GroupOk lines ⟨startLine, endLine, [replacement]⟩ := by
      refine ⟨htouches.nonempty, htouches.inText, List.pairwise_singleton _ _, ?_, List.cons_ne_nil _ _,
        fun k hfrom hto => ⟨replacement, List.mem_singleton_self _, startLine, endLine, hrange, hfrom, hto⟩⟩
      intro m hm
      rw [List.mem_singleton.mp hm]
      exact ⟨htouches.first, htouches.last⟩
    rw [hrange] at hstep
    cases groups with
    | nil =>
      cases hstep
      refine ⟨fun group hgroup => ?_, List.pairwise_singleton _ _, ?_⟩
      · rw [List.mem_singleton.mp hgroup]
        exact hnew
      · rw [← h.all]
        rfl
    | cons current others =>
      have hcurrent := h.ok current (by simp)
      have hin : ∀ m ∈ current.replacements, m ∈ done := by
        intro m hm
        rw [← h.all]
        exact List.mem_flatMap.mpr ⟨current, by simp, hm⟩
      have hstart := hcurrent.start_le fun m hm => hafter m (hin m hm)
      change (if startLine < current.endLine then _ else _ : Except String (List Group)) = _ at hstep
      split at hstep
      · -- the replacement touches a line of the last group
        cases hstep
        have hmono := lineOffset_mono lines
        refine ⟨fun group hgroup => ?_, ?_, ?_⟩
        · rcases List.mem_cons.mp hgroup with rfl | hother
          · refine ⟨?_, ?_, ?_, ?_, ?_, fun k hfrom hto => ?_⟩
            · exact Nat.lt_of_lt_of_le hcurrent.nonempty (Nat.le_max_left _ _)
            · exact Nat.max_le.mpr ⟨hcurrent.inText, htouches.inText⟩
            · refine List.pairwise_append.mpr ⟨hcurrent.apart, List.pairwise_singleton _ _, ?_⟩
              intro a ha b hb
              rw [List.mem_singleton.mp hb]
              exact hafter a (hin a ha)
            · intro m hm
              rcases List.mem_append.mp hm with hold | hlast
              · obtain ⟨hfrom, hto⟩ := hcurrent.inside m hold
                exact ⟨hfrom, Nat.le_trans hto (hmono (Nat.le_max_left _ _))⟩
              · rw [List.mem_singleton.mp hlast]
                exact ⟨hstart, Nat.le_trans htouches.last (hmono (Nat.le_max_right _ _))⟩
            · exact List.append_ne_nil_of_right_ne_nil _ (List.cons_ne_nil _ _)
            · by_cases hold : k < current.endLine
              · obtain ⟨m, hm, htouched⟩ := hcurrent.covered k hfrom hold
                exact ⟨m, List.mem_append_left _ hm, htouched⟩
              · -- beyond the old end there are only lines of the new replacement
                dsimp only at hto
                exact ⟨replacement, List.mem_append_right _ (List.mem_singleton_self _), startLine, endLine, hrange,
                  by omega, by omega⟩
          · exact h.ok group (List.mem_cons_of_mem _ hother)
        · obtain ⟨hfirst, hrest⟩ := List.pairwise_cons.mp h.apart
          exact List.pairwise_cons.mpr ⟨fun group hgroup => hfirst group hgroup, hrest⟩
        · rw [← h.all, List.reverse_cons, List.reverse_cons, List.flatMap_append, List.flatMap_append,
            List.flatMap_singleton, List.flatMap_singleton, List.append_assoc]
      next hbehind =>
        cases hstep
        refine ⟨fun group hgroup => ?_, ?_, ?_⟩
        · rcases List.mem_cons.mp hgroup with rfl | hother
          · exact hnew
          · exact h.ok group hother
        · refine List.pairwise_cons.mpr ⟨fun group hgroup => ?_, h.apart⟩
          rcases List.mem_cons.mp hgroup with rfl | hother
          · exact Nat.not_lt.mp hbehind
          · have hbefore := (List.pairwise_cons.mp h.apart).1 group hother
            have hcurrentLines := hcurrent.nonempty
            show group.endLine ≤ startLine
            omega
        · rw [← h.all, List.reverse_cons, List.flatMap_append, List.flatMap_singleton]

/-- Sorted replacements that do not overlap are grouped. -/
theorem Grouped.run (h : Grouped lines done groups)
    (hafter : ∀ m ∈ done, ∀ later ∈ replacements, m.matchIndex + m.matchLength ≤ later.matchIndex)
    (hapart : replacements.Pairwise fun a b => a.matchIndex + a.matchLength ≤ b.matchIndex) {result : List Group}
    (hrun : replacements.foldlM (groupReplacement (spansFrom 0 lines)) groups = .ok result) :
    Grouped lines (done ++ replacements) result := by
  induction replacements generalizing done groups with
  | nil =>
    cases hrun
    rwa [List.append_nil]
  | cons first others ih =>
    obtain ⟨hfirst, hothers⟩ := List.pairwise_cons.mp hapart
    rw [List.foldlM_cons] at hrun
    cases hstep : groupReplacement (spansFrom 0 lines) groups first with
    | error message =>
      rw [hstep] at hrun
      cases hrun
    | ok next =>
      rw [hstep] at hrun
      have hnext := h.step (fun m hm => hafter m hm first (by simp)) hstep
      rw [← List.singleton_append, ← List.append_assoc]
      apply ih hnext _ hothers hrun
      intro m hm later hlater
      rcases List.mem_append.mp hm with hold | hlast
      · exact hafter m hold later (List.mem_cons_of_mem _ hlater)
      · rw [List.mem_singleton.mp hlast]
        exact hfirst later hlater

theorem grouped_nil (lines : List Text) : Grouped lines [] [] := ⟨nofun, List.Pairwise.nil, rfl⟩

end Mcpi.Tools.EditDiff
