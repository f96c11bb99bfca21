import Mcpi.Tools.FuzzyMatch
import Mcpi.Tools.LineRanges

/-!
# The matches of the edits

What an edit is matched with, and what is known of the matches where all edits can be applied.
-/

namespace Mcpi.Tools.EditDiff

variable {nfkc : Nfkc} {base content : Text} {edits : List Edit} {path : String} {i : Nat} {unsorted : List MatchedEdit}

/-- Normalization, for texts that are normalized already. -/
def Nfkc.identity : Nfkc where
  normalize text := text
  overNewline _ _ := rfl
  clean _ h := h
  idempotent _ := rfl
  beginning _ _ _ := rfl
  ascii _ _ := rfl
  plain _ _ := rfl

/-! ## One match -/

/-- The text that is sought in the base content: the old text, or its normalized copy. -/
def sought (nfkc : Nfkc) (base oldText : Text) : Text :=
  if (Search.indexOf oldText base).isSome then oldText else normalizeForFuzzyMatch nfkc oldText

/-- The match of an edit with its number. -/
def matchEdit (nfkc : Nfkc) (base : Text) (numbered : Edit × Nat) : Option MatchedEdit :=
  match fuzzyFindText nfkc base numbered.1.oldText with
  | none => none
  | some found =>
    if countOccurrences nfkc base numbered.1.oldText > 1 then none
    else some ⟨numbered.2, found.index, found.matchLength, numbered.1.newText⟩

theorem matchEdits_eq_ok {totalEdits : Nat} : matchEdits nfkc base path totalEdits i edits = .ok unsorted ↔
    (edits.zipIdx i).map (matchEdit nfkc base) = unsorted.map some := by
  induction edits generalizing i unsorted with
  | nil =>
    rw [matchEdits, List.zipIdx_nil, List.map_nil]
    constructor
    · intro h
      cases h
      rfl
    · intro h
      rw [List.map_eq_nil_iff.mp h.symm]
  | cons edit edits ih =>
    rw [matchEdits, List.zipIdx_cons, List.map_cons, matchEdit]
    cases fuzzyFindText nfkc base edit.oldText with
    | none =>
      refine iff_of_false (by rintro ⟨⟩) fun h => ?_
      cases unsorted with
      | nil => cases h
      | cons found unsorted => cases (List.cons.inj h).1
    | some found =>
      dsimp only
      by_cases hmany : countOccurrences nfkc base edit.oldText > 1
      · rw [if_pos hmany, if_pos hmany]
        refine iff_of_false (by rintro ⟨⟩) fun h => ?_
        cases unsorted with
        | nil => cases h
        | cons found unsorted => cases (List.cons.inj h).1
      · rw [if_neg hmany, if_neg hmany]
        constructor
        · intro h
          cases hothers : matchEdits nfkc base path totalEdits (i + 1) edits with
          | error message =>
            rw [hothers] at h
            cases h
          | ok others =>
            rw [hothers] at h
            cases h
            rw [ih.mp hothers, List.map_cons]
        · intro h
          cases unsorted with
          | nil => cases h
          | cons first others =>
            rw [List.map_cons] at h
            obtain ⟨hfirst, hothers⟩ := List.cons.inj h
            rw [ih.mpr hothers, ← Option.some.inj hfirst]
            rfl

/-- A match of an edit: the text sought is found, and it is not counted twice. -/
theorem exists_of_mem_unsorted (h : (edits.zipIdx i).map (matchEdit nfkc base) = unsorted.map some) :
    ∀ edit ∈ edits, ∃ found, fuzzyFindText nfkc base edit.oldText = some found ∧
      countOccurrences nfkc base edit.oldText ≤ 1 ∧
      ∃ m ∈ unsorted, m.matchIndex = found.index ∧ m.matchLength = found.matchLength := by
  intro edit hedit
  obtain ⟨k, hk, rfl⟩ := List.mem_iff_getElem.mp hedit
  have hmem : matchEdit nfkc base (edits[k], i + k) ∈ unsorted.map some := by
    rw [← h]
    exact List.mem_map_of_mem (List.mk_add_mem_zipIdx_iff_getElem?.mpr (List.getElem?_eq_getElem hk))
  obtain ⟨m, hm, heq⟩ := List.mem_map.mp hmem
  rw [matchEdit] at heq
  cases hfound : fuzzyFindText nfkc base edits[k].oldText with
  | none =>
    rw [hfound] at heq
    cases heq
  | some found =>
    rw [hfound] at heq
    dsimp only at heq
    split at heq
    · cases heq
    next hfew =>
      cases heq
      exact ⟨found, rfl, Int.not_lt.mp hfew, _, hm, rfl, rfl⟩

/-! ## All matches -/

/-- What is known of edits that were applied. -/
structure Applied (nfkc : Nfkc) (content : Text) (edits : List Edit) (result : AppliedEditsResult)
    (unsorted : List MatchedEdit) : Prop where
  notEmpty : ∀ edit ∈ edits, edit.oldText ≠ []
  matched : (edits.zipIdx).map (matchEdit nfkc (replacementBase nfkc content edits)) = unsorted.map some
  apart : findOverlap (sortByIndex unsorted) = none
  exactly : usesFuzzyMatch nfkc content edits = false →
    result.newContent = applyReplacements (replacementBase nfkc content edits) (sortByIndex unsorted) 0
  overLines : usesFuzzyMatch nfkc content edits = true →
    applyReplacementsPreservingUnchangedLines content (replacementBase nfkc content edits) (sortByIndex unsorted) =
      .ok result.newContent
  changed : content ≠ result.newContent
  baseContent : result.baseContent = content

theorem applyEdits_eq_ok {result : AppliedEditsResult} :
    applyEditsToNormalizedContent nfkc content edits path = .ok result ↔
      ∃ unsorted, Applied nfkc content (edits.map Edit.normalized) result unsorted := by
  rw [applyEditsToNormalizedContent]
  dsimp only
  -- the checks in the order of the source, from the empty old texts on
  cases hempty : (edits.map Edit.normalized).findIdx? fun edit => edit.oldText = [] with
  | some i =>
    refine iff_of_false (by rintro ⟨⟩) ?_
    rintro ⟨unsorted, happlied⟩
    obtain ⟨hi, hnil, -⟩ := List.findIdx?_eq_some_iff_getElem.mp hempty
    exact happlied.notEmpty _ (List.getElem_mem hi) (of_decide_eq_true hnil)
  | none =>
    have hnotEmpty : ∀ edit ∈ edits.map Edit.normalized, edit.oldText ≠ [] := fun edit hedit =>
      of_decide_eq_false (List.findIdx?_eq_none_iff.mp hempty edit hedit)
    dsimp only
    cases hmatched : matchEdits nfkc (replacementBase nfkc content (edits.map Edit.normalized)) path
        (edits.map Edit.normalized).length 0 (edits.map Edit.normalized) with
    | error message =>
      refine iff_of_false (by rintro ⟨⟩) ?_
      rintro ⟨unsorted, happlied⟩
      rw [matchEdits_eq_ok.mpr happlied.matched] at hmatched
      cases hmatched
    | ok unsorted =>
      -- the matches are the only ones there can be
      have honly : ∀ other, Applied nfkc content (edits.map Edit.normalized) result other → other = unsorted := by
        intro other happlied
        rw [matchEdits_eq_ok.mpr happlied.matched] at hmatched
        exact Except.ok.inj hmatched
      dsimp only [bind, Except.bind]
      cases hoverlap : findOverlap (sortByIndex unsorted) with
      | some pair =>
        refine iff_of_false (by rintro ⟨⟩) ?_
        rintro ⟨other, happlied⟩
        rw [← honly other happlied, happlied.apart] at hoverlap
        cases hoverlap
      | none =>
        dsimp only
        -- the last check: the content has changed
        have hfinish : ∀ newContent : Text,
            ((if content = newContent then throw (getNoChangeError path (edits.map Edit.normalized).length)
              else pure ⟨content, newContent⟩ : Except String AppliedEditsResult) = .ok result) ↔
            (content ≠ newContent ∧ result = ⟨content, newContent⟩) := by
          intro newContent
          by_cases hsame : content = newContent
          · rw [if_pos hsame]
            exact iff_of_false (by rintro ⟨⟩) fun h => h.1 hsame
          · rw [if_neg hsame]
            constructor
            · rintro ⟨⟩
              exact ⟨hsame, rfl⟩
            · rintro ⟨-, rfl⟩
              rfl
        -- either way of replacing gives the new content
        have hwith : ∀ newContent : Text,
            (usesFuzzyMatch nfkc content (edits.map Edit.normalized) = false → newContent = applyReplacements
              (replacementBase nfkc content (edits.map Edit.normalized)) (sortByIndex unsorted) 0) →
            (usesFuzzyMatch nfkc content (edits.map Edit.normalized) = true →
              applyReplacementsPreservingUnchangedLines content
                (replacementBase nfkc content (edits.map Edit.normalized)) (sortByIndex unsorted) = .ok newContent) →
            ((content ≠ newContent ∧ result = ⟨content, newContent⟩) ↔
              ∃ unsorted, Applied nfkc content (edits.map Edit.normalized) result unsorted) := by
          intro newContent hexactly hlines
          constructor
          · rintro ⟨hchanged, rfl⟩
            exact ⟨unsorted, hnotEmpty, matchEdits_eq_ok.mp hmatched, hoverlap, hexactly, hlines, hchanged, rfl⟩
          · rintro ⟨other, happlied⟩
            have hresult : result.newContent = newContent := by
              have hother := honly other happlied
              subst hother
              cases hfuzzy : usesFuzzyMatch nfkc content (edits.map Edit.normalized) with
              | false => rw [happlied.exactly hfuzzy, hexactly hfuzzy]
              | true => exact Except.ok.inj ((happlied.overLines hfuzzy).symm.trans (hlines hfuzzy))
            refine ⟨hresult ▸ happlied.changed, ?_⟩
            rw [← hresult, ← happlied.baseContent]
        cases hfuzzy : usesFuzzyMatch nfkc content (edits.map Edit.normalized) with
        | false => exact (hfinish _).trans (hwith _ (fun _ => rfl) (by rw [hfuzzy]; rintro ⟨⟩))
        | true =>
          rw [if_pos rfl]
          cases hlines : applyReplacementsPreservingUnchangedLines content
              (replacementBase nfkc content (edits.map Edit.normalized)) (sortByIndex unsorted) with
          | error message =>
            refine iff_of_false (by rintro ⟨⟩) ?_
            rintro ⟨other, happlied⟩
            have hother := honly other happlied
            subst hother
            rw [happlied.overLines hfuzzy] at hlines
            cases hlines
          | ok newContent =>
            exact (hfinish newContent).trans (hwith newContent (by rw [hfuzzy]; rintro ⟨⟩) fun _ => hlines)

/-! ## Places of the matches -/

variable {found : FuzzyMatch}

theorem found_sought {oldText : Text}
    (hbase : normalizeForFuzzyMatch nfkc base = base ∨ (Search.indexOf oldText base).isSome)
    (h : fuzzyFindText nfkc base oldText = some found) :
    Search.indexOf (sought nfkc base oldText) base = some found.index ∧
      found.matchLength = (sought nfkc base oldText).length := by
  unfold fuzzyFindText at h
  unfold sought
  cases hexact : Search.indexOf oldText base with
  | some index =>
    rw [hexact] at h
    cases h
    exact ⟨hexact, rfl⟩
  | none =>
    rw [hexact] at h hbase
    rw [Option.isSome_none, if_neg Bool.false_ne_true]
    have hfixed : normalizeForFuzzyMatch nfkc base = base := hbase.resolve_right Bool.false_ne_true
    dsimp only at h
    rw [hfixed, Option.map_eq_some_iff] at h
    obtain ⟨index, hindex, rfl⟩ := h
    exact ⟨hindex, rfl⟩

/-- Without fuzzy matches, every old text is found as it is. -/
theorem found_exactly {edit : Edit} (hfuzzy : usesFuzzyMatch nfkc content edits = false)
    (hedit : edit ∈ edits) (h : fuzzyFindText nfkc content edit.oldText = some found) :
    (Search.indexOf edit.oldText content).isSome := by
  have hexact : found.usedFuzzyMatch = false := by
    have hnone := List.any_eq_false.mp hfuzzy edit hedit
    rw [h, Option.any_some, Bool.not_eq_true] at hnone
    exact hnone
  unfold fuzzyFindText at h
  cases hindex : Search.indexOf edit.oldText content with
  | some index => rfl
  | none =>
    rw [hindex] at h
    obtain ⟨index, -, rfl⟩ := Option.map_eq_some_iff.mp h
    cases hexact

theorem replacementBase_of_exact (hfuzzy : usesFuzzyMatch nfkc content edits = false) :
    replacementBase nfkc content edits = content := by
  rw [replacementBase, hfuzzy, if_neg Bool.false_ne_true]

theorem replacementBase_of_fuzzy (hfuzzy : usesFuzzyMatch nfkc content edits = true) :
    replacementBase nfkc content edits = normalizeForFuzzyMatch nfkc content := by
  rw [replacementBase, hfuzzy, if_pos rfl]

/-- The base content is normalized, or the old text is found in it as it is. -/
theorem replacementBase_cases {edit : Edit} (hedit : edit ∈ edits)
    (h : fuzzyFindText nfkc (replacementBase nfkc content edits) edit.oldText = some found) :
    normalizeForFuzzyMatch nfkc (replacementBase nfkc content edits) = replacementBase nfkc content edits ∨
      (Search.indexOf edit.oldText (replacementBase nfkc content edits)).isSome := by
  cases hfuzzy : usesFuzzyMatch nfkc content edits with
  | true =>
    rw [replacementBase_of_fuzzy hfuzzy]
    exact .inl (normalizeForFuzzyMatch_idempotent nfkc content)
  | false =>
    rw [replacementBase_of_exact hfuzzy] at h ⊢
    exact .inr (found_exactly hfuzzy hedit h)

theorem found_inside {oldText : Text} (hne : base ≠ [])
    (hbase : normalizeForFuzzyMatch nfkc base = base ∨ (Search.indexOf oldText base).isSome)
    (h : fuzzyFindText nfkc base oldText = some found) :
    found.index < base.length ∧ found.index + found.matchLength ≤ base.length := by
  obtain ⟨hindex, hlength⟩ := found_sought hbase h
  have hpos := List.length_pos_iff.mpr hne
  by_cases hnil : sought nfkc base oldText = []
  · rw [hnil] at hindex hlength
    rw [List.length_nil] at hlength
    have hzero : found.index = 0 := by
      by_contra hlater
      exact (Search.indexOf_eq_some.mp hindex).2.2 0 (Nat.pos_of_ne_zero hlater) List.nil_prefix
    omega
  · have hle := Search.indexOf_lt hnil hindex
    have hsought := List.length_pos_iff.mpr hnil
    omega

/-! ## Lines of the normalized copy -/

/-- The last line, which no line end follows. -/
def lastLine (content : Text) : Text := (List.splitOn newline content).getLastD []

theorem normalizeLine_nil (nfkc : Nfkc) : normalizeLine nfkc [] = [] := by
  rw [normalizeLine, nfkc.plain [] (List.forall_mem_nil _)]
  rfl

theorem normalizeLine_eq_nil {line : Text} :
    normalizeLine nfkc line = [] ↔ ∀ u ∈ nfkc.normalize line, isWhitespace u = true := by
  rw [normalizeLine, List.map_eq_nil_iff, trimEnd, List.rdropWhile_eq_nil_iff]

/-- Nothing of the pattern is left in the normalized copy. -/
def Blank (nfkc : Nfkc) (pattern : Text) : Prop :=
  newline ∉ pattern ∧ ∀ u ∈ nfkc.normalize pattern, isWhitespace u = true

theorem normalizeForFuzzyMatch_eq_nil {pattern : Text} :
    normalizeForFuzzyMatch nfkc pattern = [] ↔ Blank nfkc pattern := by
  constructor
  · intro h
    have hsplit := split_normalizeForFuzzyMatch nfkc pattern
    rw [h, List.splitOn] at hsplit
    obtain ⟨line, hline⟩ : ∃ line, List.splitOn newline pattern = [line] :=
      List.length_eq_one_iff.mp (by
        have hlength := congrArg List.length hsplit
        rw [List.length_map] at hlength
        exact hlength.symm)
    have hpattern : pattern = line := by
      have hjoin : List.intercalate [newline] (List.splitOn newline pattern) = pattern :=
        List.intercalate_splitOn newline
      rw [← hjoin, hline, List.intercalate_singleton]
    subst hpattern
    refine ⟨Separated.not_mem_split newline pattern pattern (by rw [hline]; exact List.mem_singleton_self _), ?_⟩
    rw [hline, List.map_singleton] at hsplit
    exact normalizeLine_eq_nil.mp (List.cons.inj hsplit).1.symm
  · rintro ⟨hnewline, hspaces⟩
    rw [normalizeForFuzzyMatch_line hnewline]
    exact normalizeLine_eq_nil.mpr hspaces

theorem lastLine_normalizeForFuzzyMatch (nfkc : Nfkc) (content : Text) :
    lastLine (normalizeForFuzzyMatch nfkc content) = normalizeLine nfkc (lastLine content) := by
  have hmap := List.getLastD_map (f := normalizeLine nfkc) (l := List.splitOn newline content) (a := [])
  rw [normalizeLine_nil] at hmap
  rw [lastLine, split_normalizeForFuzzyMatch, hmap, lastLine]

theorem length_pieces_normalizeForFuzzyMatch (nfkc : Nfkc) (content : Text) :
    (splitLinesWithEndings content).length = (splitLinesWithEndings (normalizeForFuzzyMatch nfkc content)).length ↔
      (lastLine content = [] ∨ normalizeLine nfkc (lastLine content) ≠ []) := by
  have hnormalized := Separated.length_pieces newline (normalizeForFuzzyMatch nfkc content)
  have hcontent := Separated.length_pieces newline content
  have hlast := lastLine_normalizeForFuzzyMatch nfkc content
  unfold lastLine at hlast
  rw [hlast, split_normalizeForFuzzyMatch, List.length_map] at hnormalized
  rw [splitLinesWithEndings, splitLinesWithEndings, hnormalized, hcontent]
  unfold lastLine
  by_cases hnil : (List.splitOn newline content).getLastD [] = []
  · rw [if_pos hnil, hnil, normalizeLine_nil, if_pos rfl]
    exact iff_of_true rfl (.inl rfl)
  · rw [if_neg hnil]
    by_cases hblank : normalizeLine nfkc ((List.splitOn newline content).getLastD []) = []
    · rw [if_pos hblank]
      refine iff_of_false (by omega) ?_
      rintro (h | h)
      · exact hnil h
      · exact h hblank
    · rw [if_neg hblank]
      exact iff_of_true rfl (.inr hblank)

/-- The normalized copy keeps the lines of a content, and all matches in it can be applied. -/
structure KeepsLines (nfkc : Nfkc) (content : Text) : Prop where
  sameCount : (List.splitOn newline (normalizeForFuzzyMatch nfkc content)).length =
    (List.splitOn newline content).length
  lineByLine : ∀ (other : Text) (i : Nat), (List.splitOn newline other)[i]? = (List.splitOn newline content)[i]? →
    (List.splitOn newline (normalizeForFuzzyMatch nfkc other))[i]? =
      (List.splitOn newline (normalizeForFuzzyMatch nfkc content))[i]?
  noCountError : ∀ replacements, applyReplacementsPreservingUnchangedLines content
    (normalizeForFuzzyMatch nfkc content) replacements ≠ .error lineCountError
  applicable : ∀ (edits : List Edit) (path : String) (matched : List MatchedEdit), (∀ edit ∈ edits, edit.oldText ≠ []) →
    matchEdits nfkc (normalizeForFuzzyMatch nfkc content) path edits.length 0 edits = .ok matched →
    ∃ newContent, applyReplacementsPreservingUnchangedLines content (normalizeForFuzzyMatch nfkc content) matched =
      .ok newContent

variable {replacements : List MatchedEdit}

/-- A group is refused only where the replacement is outside the text. -/
theorem foldlM_groupReplacement_error {lines : List LineSpan} {groups : List Group} {message : String}
    (h : replacements.foldlM (groupReplacement lines) groups = .error message) : message = outsideError := by
  induction replacements generalizing groups with
  | nil => cases h
  | cons replacement replacements ih =>
    rw [List.foldlM_cons] at h
    cases hgroup : groupReplacement lines groups replacement with
    | ok next =>
      rw [hgroup] at h
      exact ih h
    | error other =>
      rw [hgroup] at h
      cases h
      unfold groupReplacement at hgroup
      cases hrange : getReplacementLineRange lines replacement with
      | ok range =>
        rw [hrange] at hgroup
        cases groups with
        | nil => cases hgroup
        | cons current others =>
          change (if range.1 < current.endLine then _ else _ : Except String (List Group)) = _ at hgroup
          split at hgroup <;> cases hgroup
      | error other =>
        rw [hrange] at hgroup
        cases hgroup
        unfold getReplacementLineRange at hrange
        dsimp only at hrange
        split at hrange
        · cases hrange
          rfl
        · split at hrange
          · cases hrange
            rfl
          · cases hrange

theorem not_lineCountError {base : Text}
    (h : (splitLinesWithEndings content).length = (splitLinesWithEndings base).length) :
    applyReplacementsPreservingUnchangedLines content base replacements ≠ .error lineCountError := by
  intro herror
  rw [applyReplacementsPreservingUnchangedLines_eq, if_neg (not_not_intro h)] at herror
  cases hgroups : (sortByIndex replacements).foldlM (groupReplacement (getLineSpans base)) [] with
  | error message =>
    rw [hgroups] at herror
    cases herror
    exact absurd (foldlM_groupReplacement_error hgroups) (by decide)
  | ok groups =>
    rw [hgroups] at herror
    cases herror

/-- Replacements inside a base content with as many lines can be applied. -/
theorem exists_applied {base : Text}
    (hcount : (splitLinesWithEndings content).length = (splitLinesWithEndings base).length)
    (hinside : ∀ replacement ∈ replacements, replacement.matchIndex < base.length ∧
      replacement.matchIndex + replacement.matchLength ≤ base.length) :
    ∃ newContent, applyReplacementsPreservingUnchangedLines content base replacements = .ok newContent := by
  have hinside' : ∀ replacement ∈ sortByIndex replacements,
      replacement.matchIndex < (splitLinesWithEndings base).flatten.length ∧
      replacement.matchIndex + replacement.matchLength ≤ (splitLinesWithEndings base).flatten.length := by
    intro replacement hmem
    rw [splitLinesWithEndings, Separated.flatten_pieces]
    exact hinside replacement (mem_sortByIndex.mp hmem)
  obtain ⟨groups, hgroups⟩ := exists_groups (sortByIndex replacements) [] hinside'
  rw [applyReplacementsPreservingUnchangedLines_eq, if_neg (not_not_intro hcount), getLineSpans, hgroups]
  exact ⟨_, rfl⟩

theorem mem_matched {matched : List MatchedEdit} (h : (edits.zipIdx i).map (matchEdit nfkc base) = matched.map some) :
    ∀ m ∈ matched, ∃ edit ∈ edits, ∃ found, fuzzyFindText nfkc base edit.oldText = some found ∧
      m.matchIndex = found.index ∧ m.matchLength = found.matchLength ∧ m.newText = edit.newText := by
  intro m hm
  have hmem : some m ∈ (edits.zipIdx i).map (matchEdit nfkc base) := by
    rw [h]
    exact List.mem_map_of_mem hm
  obtain ⟨⟨edit, k⟩, hedit, heq⟩ := List.mem_map.mp hmem
  rw [matchEdit] at heq
  cases hfound : fuzzyFindText nfkc base edit.oldText with
  | none =>
    rw [hfound] at heq
    cases heq
  | some found =>
    rw [hfound] at heq
    obtain ⟨-, ⟨⟩⟩ := Option.ite_none_left_eq_some.mp heq
    exact ⟨edit, List.fst_mem_of_mem_zipIdx hedit, found, hfound, rfl, rfl, rfl⟩

/-- The lines are kept, and matches can be applied, exactly where the content is not empty and its last line,
when no line end follows it, is not blank. -/
theorem keeps_lines_iff (nfkc : Nfkc) (content : Text) : KeepsLines nfkc content ↔
    content ≠ [] ∧ (lastLine content = [] ∨ ∃ u ∈ nfkc.normalize (lastLine content), isWhitespace u = false) := by
  have hblank : (∃ u ∈ nfkc.normalize (lastLine content), isWhitespace u = false) ↔
      normalizeLine nfkc (lastLine content) ≠ [] := by
    rw [Ne, normalizeLine_eq_nil]
    simp only [not_forall, exists_prop, Bool.not_eq_true]
  rw [hblank]
  constructor
  · intro h
    refine ⟨?_, ?_⟩
    · rintro rfl
      -- a space is blank, and is matched where there is no line
      have hempty : normalizeForFuzzyMatch nfkc [] = [] := by
        rw [normalizeForFuzzyMatch_line List.not_mem_nil, normalizeLine_nil]
      have hspace : normalizeForFuzzyMatch nfkc [unit ' '] = [] := by
        have hplain : nfkc.normalize [unit ' '] = [unit ' '] := nfkc.plain _ fun u hu => by
          rw [List.mem_singleton.mp hu]
          decide
        refine normalizeForFuzzyMatch_eq_nil.mpr ⟨by decide, fun u hu => ?_⟩
        rw [hplain] at hu
        rw [List.mem_singleton.mp hu]
        decide
      have hfound : fuzzyFindText nfkc [] [unit ' '] = some ⟨0, 0, true⟩ := by
        rw [fuzzyFindText, show Search.indexOf [unit ' '] [] = none from rfl]
        dsimp only
        rw [hspace, hempty]
        rfl
      have hcount : countOccurrences nfkc [] [unit ' '] = -1 := by
        rw [countOccurrences, hspace, hempty]
        rfl
      obtain ⟨newContent, hnew⟩ := h.applicable [⟨[unit ' '], []⟩] "" [⟨0, 0, 0, []⟩] (by simp) (by
        rw [matchEdits_eq_ok, hempty, List.zipIdx_singleton, List.map_singleton, List.map_singleton, matchEdit, hfound]
        dsimp only
        rw [hcount]
        rfl)
      rw [hempty] at hnew
      cases hnew
    · by_contra hlast
      apply h.noCountError []
      rw [applyReplacementsPreservingUnchangedLines_eq, if_pos fun hcount =>
        hlast ((length_pieces_normalizeForFuzzyMatch nfkc content).mp hcount)]
  · rintro ⟨hne, hlast⟩
    have hcount := (length_pieces_normalizeForFuzzyMatch nfkc content).mpr hlast
    refine ⟨?_, ?_, fun replacements => not_lineCountError hcount, ?_⟩
    · rw [split_normalizeForFuzzyMatch, List.length_map]
    · intro other i hline
      rw [split_normalizeForFuzzyMatch, split_normalizeForFuzzyMatch, List.getElem?_map, List.getElem?_map, hline]
    · intro edits path matched hedits hmatched
      have hbase : normalizeForFuzzyMatch nfkc content ≠ [] := by
        intro hnil
        obtain ⟨hnewline, hspaces⟩ := normalizeForFuzzyMatch_eq_nil.mp hnil
        have hlastLine : lastLine content = content := by
          rw [lastLine, List.splitOn_eq_singleton hnewline, List.getLastD_cons, List.getLastD_nil]
        rw [hlastLine] at hlast
        rcases hlast with hnone | hnotBlank
        · exact hne hnone
        · exact hnotBlank (normalizeLine_eq_nil.mpr hspaces)
      apply exists_applied hcount
      intro m hm
      obtain ⟨edit, hedit, found, hfound, hindex, hlength, -⟩ := mem_matched (matchEdits_eq_ok.mp hmatched) m hm
      rw [hindex, hlength]
      exact found_inside hbase (.inl (normalizeForFuzzyMatch_idempotent nfkc content)) hfound

theorem blank_last_line_is_lost : ¬ KeepsLines Nfkc.identity [unit 'a', newline, unit ' '] := by
  intro h
  apply h.noCountError []
  decide +kernel

end Mcpi.Tools.EditDiff
