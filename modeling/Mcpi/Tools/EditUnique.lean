import Mcpi.Tools.EditMatches

/-!
# Edits that are not ambiguous

Occurrences are counted by cutting the normalized content at them, which misses those that overlap.
-/

namespace Mcpi.Tools.EditDiff

variable {nfkc : Nfkc} {base content separator text : Text} {edits : List Edit} {path : String} {i j skip : Nat}

/-! ## Counting -/

theorem countParts_pos (separator : Text) (skip : Nat) (text : Text) : 1 ≤ countParts separator skip text := by
  induction text generalizing skip with
  | nil => cases skip <;> exact Nat.le_refl _
  | cons u text ih =>
    cases skip with
    | zero =>
      rw [countParts]
      split
      · exact Nat.le_add_left _ _
      · exact ih 0
    | succ skip =>
      rw [countParts]
      exact ih skip

/-- An occurrence that is not skipped cuts the text. -/
theorem two_le_countParts (hne : separator ≠ []) (hat : separator <+: text.drop i) (hskip : skip ≤ i) :
    2 ≤ countParts separator skip text := by
  induction text generalizing skip i with
  | nil =>
    rw [List.drop_nil, List.prefix_nil] at hat
    exact absurd hat hne
  | cons u text ih =>
    cases skip with
    | succ skip =>
      cases i with
      | zero => omega
      | succ i =>
        rw [countParts]
        exact ih hat (Nat.le_of_succ_le_succ hskip)
    | zero =>
      rw [countParts]
      split
      · have := countParts_pos separator (separator.length - 1) text
        omega
      next hnot =>
        cases i with
        | zero => exact absurd hat hnot
        | succ i => exact ih hat (Nat.zero_le _)

/-- So do two occurrences that do not overlap, each of them. -/
theorem three_le_countParts (hne : separator ≠ []) (hat : separator <+: text.drop i)
    (hnext : separator <+: text.drop j) (hapart : i + separator.length ≤ j) (hskip : skip ≤ i) :
    3 ≤ countParts separator skip text := by
  have hpos := List.length_pos_iff.mpr hne
  induction text generalizing skip i j with
  | nil =>
    rw [List.drop_nil, List.prefix_nil] at hat
    exact absurd hat hne
  | cons u text ih =>
    obtain ⟨j, rfl⟩ : ∃ k, j = k + 1 := ⟨j - 1, by omega⟩
    cases skip with
    | succ skip =>
      cases i with
      | zero => omega
      | succ i =>
        rw [countParts]
        exact ih hat hnext (by omega) (Nat.le_of_succ_le_succ hskip)
    | zero =>
      rw [countParts]
      split
      · have hlater : separator <+: text.drop j := hnext
        have htwo : 2 ≤ countParts separator (separator.length - 1) text :=
          two_le_countParts hne hlater (by omega)
        exact Nat.succ_le_succ htwo
      next hnot =>
        cases i with
        | zero => exact absurd hat hnot
        | succ i => exact ih hat hnext (by omega) (Nat.zero_le _)

/-! ## Occurrences -/

/-- There is exactly one place in the text where the pattern occurs. -/
def OccursOnce (pattern text : Text) : Prop := ∃! i, i ≤ text.length ∧ pattern <+: text.drop i

/-- Two occurrences are counted as two: they do not overlap, the pattern is not blank, and NFKC joins them with
nothing beside them. -/
structure Countable (nfkc : Nfkc) (pattern text : Text) : Prop where
  noOverlap : ∀ i j, i < j → j ≤ text.length → pattern <+: text.drop i → pattern <+: text.drop j →
    i + pattern.length ≤ j
  notBlank : ∀ a b c, text = a ++ pattern ++ b ++ pattern ++ c → ¬ Blank nfkc pattern
  separable : ∀ a b c, text = a ++ pattern ++ b ++ pattern ++ c → Separable nfkc a pattern b pattern c

/-- What is sought is counted by its normalized copy, as the old text is. -/
theorem normalizeForFuzzyMatch_sought (nfkc : Nfkc) (base oldText : Text) :
    normalizeForFuzzyMatch nfkc (sought nfkc base oldText) = normalizeForFuzzyMatch nfkc oldText := by
  unfold sought
  split
  · rfl
  · exact normalizeForFuzzyMatch_idempotent nfkc oldText

/-- Two occurrences, one after the other, cut a text in five parts. -/
theorem parts_of_occurrences {pattern : Text} (hat : pattern <+: text.drop i) (hnext : pattern <+: text.drop j)
    (hapart : i + pattern.length ≤ j) : ∃ a b c, text = a ++ pattern ++ b ++ pattern ++ c := by
  obtain ⟨after, hafter⟩ := hat
  obtain ⟨c, hc⟩ := hnext
  have hdrop : text.drop j = after.drop (j - (i + pattern.length)) := by
    rw [show j = i + (pattern.length + (j - (i + pattern.length))) by omega, ← List.drop_drop, ← hafter,
      ← List.drop_drop, List.drop_left]
    congr 1
    omega
  refine ⟨text.take i, after.take (j - (i + pattern.length)), c, ?_⟩
  rw [List.append_assoc, hc, hdrop, List.append_assoc, List.take_append_drop, List.append_assoc, hafter,
    List.take_append_drop]

theorem first_of_parts {pattern a b c : Text} (h : text = a ++ pattern ++ b ++ pattern ++ c) :
    pattern <+: text.drop a.length := by
  refine ⟨b ++ pattern ++ c, ?_⟩
  rw [h]
  simp only [List.append_assoc, List.drop_left]

theorem second_of_parts {pattern a b c : Text} (h : text = a ++ pattern ++ b ++ pattern ++ c) :
    pattern <+: text.drop (a.length + pattern.length + b.length) := by
  refine ⟨c, ?_⟩
  rw [h, ← List.length_append, ← List.length_append, List.append_assoc _ _ c, List.drop_left]

theorem two_le_countOccurrences {oldText pattern a b c : Text} (hblank : ¬ Blank nfkc pattern)
    (hpattern : normalizeForFuzzyMatch nfkc pattern = normalizeForFuzzyMatch nfkc oldText)
    (hseparable : Separable nfkc a pattern b pattern c) :
    2 ≤ countOccurrences nfkc (a ++ pattern ++ b ++ pattern ++ c) oldText := by
  have hne : normalizeForFuzzyMatch nfkc pattern ≠ [] := fun h => hblank (normalizeForFuzzyMatch_eq_nil.mp h)
  obtain ⟨before, between, after, hcopy⟩ := normalizeForFuzzyMatch_parts hseparable
  unfold countOccurrences
  rw [← hpattern, if_neg hne, hcopy]
  have hcount : 3 ≤ countParts (normalizeForFuzzyMatch nfkc pattern) 0
      (before ++ normalizeForFuzzyMatch nfkc pattern ++ between ++ normalizeForFuzzyMatch nfkc pattern ++ after) := by
    apply three_le_countParts hne (first_of_parts rfl) (second_of_parts rfl)
    · exact Nat.le_add_right _ _
    · exact Nat.zero_le _
  omega

/-- The base content of edits that were applied is not empty. -/
theorem Applied.base_ne_nil {result : AppliedEditsResult} {unsorted : List MatchedEdit} {edit : Edit}
    (h : Applied nfkc content edits result unsorted) (hedit : edit ∈ edits) :
    replacementBase nfkc content edits ≠ [] := by
  intro hnil
  obtain ⟨found, hfound, -, m, hm, -⟩ := exists_of_mem_unsorted h.matched edit hedit
  cases hfuzzy : usesFuzzyMatch nfkc content edits with
  | false =>
    rw [replacementBase_of_exact hfuzzy] at hnil hfound
    obtain ⟨index, hindex⟩ := Option.isSome_iff_exists.mp (found_exactly hfuzzy hedit hfound)
    rw [hnil] at hindex
    have hle := Search.indexOf_lt (h.notEmpty edit hedit) hindex
    have hpos := List.length_pos_iff.mpr (h.notEmpty edit hedit)
    rw [List.length_nil] at hle
    omega
  | true =>
    have hlines := h.overLines hfuzzy
    rw [hnil, applyReplacementsPreservingUnchangedLines_eq] at hlines
    split at hlines
    · cases hlines
    · have hsorted : sortByIndex unsorted ≠ [] := by
        intro hnone
        have hmem := mem_sortByIndex.mpr hm
        rw [hnone] at hmem
        cases hmem
      obtain ⟨first, others, hcons⟩ := List.exists_cons_of_ne_nil hsorted
      rw [sortByIndex_sortByIndex, hcons, List.foldlM_cons,
        show groupReplacement (getLineSpans []) [] first = .error outsideError from rfl] at hlines
      cases hlines

/-- **An edit that succeeded was not ambiguous** exactly where all occurrences are counted. -/
theorem unambiguous_iff {result : AppliedEditsResult}
    (h : applyEditsToNormalizedContent nfkc content edits path = .ok result) :
    (∀ edit ∈ edits.map Edit.normalized,
      OccursOnce (sought nfkc (replacementBase nfkc content (edits.map Edit.normalized)) edit.oldText)
        (replacementBase nfkc content (edits.map Edit.normalized))) ↔
    ∀ edit ∈ edits.map Edit.normalized,
      Countable nfkc (sought nfkc (replacementBase nfkc content (edits.map Edit.normalized)) edit.oldText)
        (replacementBase nfkc content (edits.map Edit.normalized)) := by
  obtain ⟨unsorted, happlied⟩ := applyEdits_eq_ok.mp h
  refine forall₂_congr fun edit hedit => ?_
  have hne := happlied.base_ne_nil hedit
  obtain ⟨found, hfound, hfew, -⟩ := exists_of_mem_unsorted happlied.matched edit hedit
  have hcases := replacementBase_cases hedit hfound
  generalize replacementBase nfkc content (edits.map Edit.normalized) = base at *
  have hindex := (found_sought hcases hfound).1
  have hsought := normalizeForFuzzyMatch_sought nfkc base edit.oldText
  generalize sought nfkc base edit.oldText = pattern at *
  obtain ⟨hat, hle, -⟩ := Search.indexOf_eq_some.mp hindex
  constructor
  · rintro ⟨only, -, honly⟩
    -- a second occurrence would be the first
    have htwice : ∀ a b c, base ≠ a ++ pattern ++ b ++ pattern ++ c := by
      intro a b c hparts
      have hlength := congrArg List.length hparts
      simp only [List.length_append] at hlength
      have hfirst := honly a.length ⟨by omega, first_of_parts hparts⟩
      have hsecond := honly (a.length + pattern.length + b.length) ⟨by omega, second_of_parts hparts⟩
      have hnil : pattern = [] := List.length_eq_zero_iff.mp (by omega)
      subst hnil
      have hstart := honly 0 ⟨Nat.zero_le _, List.nil_prefix⟩
      have hend := honly base.length ⟨Nat.le_refl _, List.nil_prefix⟩
      exact hne (List.length_eq_zero_iff.mp (hend.trans hstart.symm))
    refine ⟨fun i j hij hj hati hatj => ?_, fun a b c hparts => absurd hparts (htwice a b c),
      fun a b c hparts => absurd hparts (htwice a b c)⟩
    have hi := honly i ⟨by omega, hati⟩
    have hj := honly j ⟨hj, hatj⟩
    omega
  · intro hcountable
    have hone : ∀ i j, i < j → j ≤ base.length → pattern <+: base.drop i → ¬ pattern <+: base.drop j := by
      intro i j hij hj hati hatj
      obtain ⟨a, b, c, hparts⟩ := parts_of_occurrences hati hatj (hcountable.noOverlap i j hij hj hati hatj)
      have htwo := two_le_countOccurrences (hcountable.notBlank a b c hparts) hsought
        (hcountable.separable a b c hparts)
      rw [← hparts] at htwo
      omega
    refine ⟨found.index, ⟨hle, hat⟩, ?_⟩
    rintro other ⟨hother, hatOther⟩
    rcases Nat.lt_trichotomy other found.index with hlt | heq | hgt
    · exact absurd hat (hone other found.index hlt hle hatOther)
    · exact heq
    · exact absurd hatOther (hone found.index other hgt hother hat)

theorem unambiguous_iff_letter :
    (∀ edit ∈ [Edit.mk [unit 'a'] [unit 'c']].map Edit.normalized,
      OccursOnce (sought Nfkc.identity (replacementBase Nfkc.identity [unit 'a', unit 'b']
        ([Edit.mk [unit 'a'] [unit 'c']].map Edit.normalized)) edit.oldText)
        (replacementBase Nfkc.identity [unit 'a', unit 'b'] ([Edit.mk [unit 'a'] [unit 'c']].map Edit.normalized))) ↔
    ∀ edit ∈ [Edit.mk [unit 'a'] [unit 'c']].map Edit.normalized,
      Countable Nfkc.identity (sought Nfkc.identity (replacementBase Nfkc.identity [unit 'a', unit 'b']
        ([Edit.mk [unit 'a'] [unit 'c']].map Edit.normalized)) edit.oldText)
        (replacementBase Nfkc.identity [unit 'a', unit 'b'] ([Edit.mk [unit 'a'] [unit 'c']].map Edit.normalized)) :=
  unambiguous_iff (show applyEditsToNormalizedContent Nfkc.identity [unit 'a', unit 'b'] [⟨[unit 'a'], [unit 'c']⟩]
    "letters" = .ok ⟨[unit 'a', unit 'b'], [unit 'c', unit 'b']⟩ by decide +kernel)

/-- Three letters in which two overlapping pairs are one occurrence. -/
theorem overlapping_occurrences_are_missed :
    (∃ result, applyEditsToNormalizedContent Nfkc.identity [unit 'a', unit 'a', unit 'a']
      [⟨[unit 'a', unit 'a'], [unit 'b']⟩] "letters" = .ok result) ∧
    ¬ OccursOnce (sought Nfkc.identity [unit 'a', unit 'a', unit 'a'] [unit 'a', unit 'a'])
      [unit 'a', unit 'a', unit 'a'] := by
  refine ⟨⟨⟨[unit 'a', unit 'a', unit 'a'], [unit 'b', unit 'a']⟩, by decide +kernel⟩, ?_⟩
  rintro ⟨only, -, honly⟩
  have hfirst : 0 = only := honly 0 (by decide)
  have hsecond : 1 = only := honly 1 (by decide)
  omega

end Mcpi.Tools.EditDiff
