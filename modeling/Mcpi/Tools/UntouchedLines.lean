import Mcpi.Tools.EditResult
import Mcpi.Tools.LineEndings

/-!
# Lines that no edit touches

What the edit tool writes back for the lines of a file that no match touches.
-/

namespace Mcpi.Tools.EditDiff

variable {nfkc : Nfkc} {base content : Text} {edits : List Edit} {unsorted : List MatchedEdit}
  {result : AppliedEditsResult} {replacements : List MatchedEdit} {offset : Nat} {raw output : Text} {path : String}

/-! ## Replacements in a part of a text -/

theorem applyReplacements_after (before text : Text) (h : ∀ m ∈ replacements, offset + before.length ≤ m.matchIndex) :
    applyReplacements (before ++ text) replacements offset =
      before ++ applyReplacements text replacements (offset + before.length) := by
  induction replacements with
  | nil => rfl
  | cons first others ih =>
    have hfirst := h first (by simp)
    have hothers := ih fun m hm => h m (List.mem_cons_of_mem _ hm)
    show List.take (first.matchIndex - offset) (applyReplacements (before ++ text) others offset) ++ first.newText ++
      List.drop (first.matchIndex - offset + first.matchLength) (applyReplacements (before ++ text) others offset) =
        before ++ (List.take (first.matchIndex - (offset + before.length))
          (applyReplacements text others (offset + before.length)) ++ first.newText ++
            List.drop (first.matchIndex - (offset + before.length) + first.matchLength)
              (applyReplacements text others (offset + before.length)))
    rw [hothers, show first.matchIndex - offset =
      before.length + (first.matchIndex - (offset + before.length)) by omega, List.take_length_add_append,
      Nat.add_assoc, List.drop_length_add_append]
    simp only [List.append_assoc]

theorem le_length_applyReplacements {text : Text} {place : Nat} (hplace : place ≤ text.length)
    (h : ∀ m ∈ replacements, place ≤ m.matchIndex - offset) :
    place ≤ (applyReplacements text replacements offset).length := by
  induction replacements with
  | nil => exact hplace
  | cons first others ih =>
    have hothers := ih fun m hm => h m (List.mem_cons_of_mem _ hm)
    have hfirst := h first (by simp)
    show place ≤ (List.take (first.matchIndex - offset) (applyReplacements text others offset) ++ first.newText ++
      List.drop _ _).length
    rw [List.length_append, List.length_append, List.length_take]
    omega

theorem applyReplacements_before (text after : Text)
    (hapart : replacements.Pairwise fun a b => a.matchIndex + a.matchLength ≤ b.matchIndex)
    (hinside : ∀ m ∈ replacements, offset ≤ m.matchIndex ∧ m.matchIndex + m.matchLength ≤ offset + text.length) :
    applyReplacements (text ++ after) replacements offset = applyReplacements text replacements offset ++ after := by
  induction replacements with
  | nil => rfl
  | cons first others ih =>
    obtain ⟨hfirst, hothers⟩ := List.pairwise_cons.mp hapart
    obtain ⟨hfrom, hto⟩ := hinside first (by simp)
    have hrest := ih hothers fun m hm => hinside m (List.mem_cons_of_mem _ hm)
    have hlength : first.matchIndex - offset + first.matchLength ≤ (applyReplacements text others offset).length := by
      apply le_length_applyReplacements (by omega)
      intro m hm
      have hm' := hfirst m hm
      omega
    show List.take (first.matchIndex - offset) (applyReplacements (text ++ after) others offset) ++ first.newText ++
      List.drop (first.matchIndex - offset + first.matchLength) (applyReplacements (text ++ after) others offset) =
        List.take (first.matchIndex - offset) (applyReplacements text others offset) ++ first.newText ++
          List.drop (first.matchIndex - offset + first.matchLength) (applyReplacements text others offset) ++ after
    rw [hrest, List.take_append_of_le_length (Nat.le_trans (Nat.le_add_right _ _) hlength),
      List.drop_append_of_le_length hlength]
    simp only [List.append_assoc]

/-! ## Exact edits by lines -/

/-- Replacing in the lines of a content is replacing in the content. -/
theorem overlay_exact {lines : List Text} {groups : List Group} {n : Nat} (hn : n ≤ lines.length)
    (hok : ∀ group ∈ groups, GroupOk lines group) (hfrom : ∀ group ∈ groups, n ≤ group.startLine)
    (hapart : groups.Pairwise fun group later => group.endLine ≤ later.startLine) :
    overlay lines lines.flatten (spansFrom 0 lines) n groups =
      applyReplacements ((lines.drop n).flatten) (groups.flatMap Group.replacements) (lineOffset lines n) := by
  induction groups generalizing n with
  | nil => rfl
  | cons group groups ih =>
    obtain ⟨hgroup, hgroups⟩ := List.pairwise_cons.mp hapart
    have hthis := hok group (by simp)
    have hstart := hfrom group (by simp)
    have hle : group.startLine ≤ group.endLine := Nat.le_of_lt hthis.nonempty
    have hrest := ih hthis.inText (fun g hg => hok g (List.mem_cons_of_mem _ hg)) hgroup hgroups
    have hlater : ∀ m ∈ groups.flatMap Group.replacements, lineOffset lines group.endLine ≤ m.matchIndex := by
      intro m hm
      obtain ⟨later, hlaterMem, hm⟩ := List.mem_flatMap.mp hm
      exact Nat.le_trans (lineOffset_mono lines (hgroup later hlaterMem))
        ((hok later (List.mem_cons_of_mem _ hlaterMem)).inside m hm).1
    have hkept := lineOffset_slice lines hstart
    have htouched := lineOffset_slice lines hle
    have hparts : (lines.drop n).flatten = ((lines.take group.startLine).drop n).flatten ++
        (((lines.take group.endLine).drop group.startLine).flatten ++ (lines.drop group.endLine).flatten) := by
      rw [← List.flatten_append, ← List.flatten_append, ← List.append_assoc, slice_append _ hstart hle,
        slice_append_rest _ (Nat.le_trans hstart hle)]
    have happly : applyReplacements (lines.drop n).flatten ((group :: groups).flatMap Group.replacements)
        (lineOffset lines n) = applyReplacements (applyReplacements (lines.drop n).flatten
          (groups.flatMap Group.replacements) (lineOffset lines n)) group.replacements (lineOffset lines n) := by
      rw [List.flatMap_cons]
      exact List.foldr_append
    rw [happly, hparts, ← List.append_assoc, applyReplacements_after _ _ (by
        rw [List.length_append]
        intro m hm
        have := hlater m hm
        omega), List.length_append, ← Nat.add_assoc, hkept, htouched, List.append_assoc,
      applyReplacements_after _ _ (by
        intro m hm
        have := (hthis.inside m hm).1
        omega), hkept,
      applyReplacements_before _ _ hthis.apart (fun m hm => by
        have := hthis.inside m hm
        omega), ← hrest, overlay, hthis.startOffset, hthis.stopOffset, slice_flatten lines hle, List.append_assoc]

/-! ## The part of each line in the result -/

/-- The overlay in one part for each line from `n` on, a line outside all groups being its own part. -/
theorem overlay_parts (base : Text) (lines : List LineSpan) {originalLines : List Text} {groups : List Group} {n : Nat}
    (hn : n ≤ originalLines.length)
    (hok : ∀ group ∈ groups, group.startLine < group.endLine ∧ group.endLine ≤ originalLines.length)
    (hfrom : ∀ group ∈ groups, n ≤ group.startLine)
    (hapart : groups.Pairwise fun group later => group.endLine ≤ later.startLine) :
    ∃ parts : List Text, parts.length = originalLines.length - n ∧
      overlay originalLines base lines n groups = parts.flatten ∧
      ∀ k, n ≤ k → (∀ group ∈ groups, ¬ (group.startLine ≤ k ∧ k < group.endLine)) →
        parts[k - n]? = originalLines[k]? := by
  induction groups generalizing n with
  | nil =>
    refine ⟨originalLines.drop n, List.length_drop, rfl, fun k hk _ => ?_⟩
    rw [List.getElem?_drop, Nat.add_sub_cancel' hk]
  | cons group groups ih =>
    obtain ⟨hgroup, hgroups⟩ := List.pairwise_cons.mp hapart
    obtain ⟨hnonempty, hinText⟩ := hok group (by simp)
    have hstart := hfrom group (by simp)
    obtain ⟨rest, hrestLength, hrest, hrestParts⟩ :=
      ih hinText (fun g hg => hok g (List.mem_cons_of_mem _ hg)) hgroup hgroups
    let groupStartOffset := (lines.getD group.startLine ⟨0, 0⟩).start
    let groupEndOffset := (lines.getD (group.endLine - 1) ⟨0, 0⟩).stop
    -- the whole text of a group is the part of its first line
    let replaced := applyReplacements ((base.take groupEndOffset).drop groupStartOffset) group.replacements
      groupStartOffset
    have hkept : ((originalLines.take group.startLine).drop n).length = group.startLine - n := by
      rw [List.length_drop, List.length_take]
      omega
    refine ⟨(originalLines.take group.startLine).drop n ++
      (replaced :: List.replicate (group.endLine - group.startLine - 1) []) ++ rest, ?_, ?_, fun k hk hout => ?_⟩
    · rw [List.length_append, List.length_append, hkept, List.length_cons, List.length_replicate, hrestLength]
      omega
    · rw [overlay, hrest, List.flatten_append, List.flatten_append, List.flatten_cons]
      simp only [List.flatten_replicate_nil, List.append_nil]
      rfl
    · have hnot := hout group (by simp)
      by_cases hbefore : k < group.startLine
      · rw [List.append_assoc, List.getElem?_append_left (by rw [hkept]; omega), List.getElem?_drop,
          Nat.add_sub_cancel' hk, List.getElem?_take_of_lt hbefore]
      · have hafter : group.endLine ≤ k := by omega
        rw [List.getElem?_append_right (by
          rw [List.length_append, hkept, List.length_cons, List.length_replicate]
          omega), List.length_append, hkept, List.length_cons, List.length_replicate,
          ← hrestParts k hafter fun g hg => hout g (List.mem_cons_of_mem _ hg)]
        congr 1
        omega

/-! ## Lines outside the matches -/

/-- A line of the base content is touched by the match of an edit. -/
def Touched (nfkc : Nfkc) (content : Text) (edits : List Edit) (k : Nat) : Prop :=
  ∃ edit ∈ edits, ∃ startLine endLine, getReplacementLineRange (getLineSpans (replacementBase nfkc content edits))
      ⟨0, foundAt nfkc (replacementBase nfkc content edits) edit,
        (sought nfkc (replacementBase nfkc content edits) edit.oldText).length, edit.newText⟩ =
          .ok (startLine, endLine) ∧
    startLine ≤ k ∧ k < endLine

/-- In both modes the new content is the overlay of the groups of the matches. -/
theorem Applied.overlaid (h : Applied nfkc content edits result unsorted) :
    ∃ groups, Grouped (splitLinesWithEndings (replacementBase nfkc content edits)) (sortByIndex unsorted) groups ∧
      (splitLinesWithEndings content).length = (splitLinesWithEndings (replacementBase nfkc content edits)).length ∧
      result.newContent = overlay (splitLinesWithEndings content) (replacementBase nfkc content edits)
        (getLineSpans (replacementBase nfkc content edits)) 0 groups.reverse := by
  have hgrouped : ∀ groups, (sortByIndex unsorted).foldlM
      (groupReplacement (getLineSpans (replacementBase nfkc content edits))) [] = .ok groups →
      Grouped (splitLinesWithEndings (replacementBase nfkc content edits)) (sortByIndex unsorted) groups :=
    fun groups hgroups => (grouped_nil _).run nofun h.disjoint hgroups
  cases hfuzzy : usesFuzzyMatch nfkc content edits with
  | true =>
    have hlines := h.overLines hfuzzy
    rw [applyReplacementsPreservingUnchangedLines_eq, sortByIndex_sortByIndex] at hlines
    split at hlines
    · cases hlines
    next hcount =>
      cases hgroups : (sortByIndex unsorted).foldlM
          (groupReplacement (getLineSpans (replacementBase nfkc content edits))) [] with
      | error message =>
        rw [hgroups] at hlines
        cases hlines
      | ok groups =>
        rw [hgroups] at hlines
        exact ⟨groups, hgrouped groups hgroups, not_not.mp hcount, (Except.ok.inj hlines).symm⟩
  | false =>
    have hbase : replacementBase nfkc content edits = content := replacementBase_of_exact hfuzzy
    have hnew := h.exactly hfuzzy
    have hin : ∀ m ∈ sortByIndex unsorted, m.matchIndex < content.length ∧
        m.matchIndex + m.matchLength ≤ content.length := by
      intro m hm
      obtain ⟨hedit, hmatch⟩ := h.matchOf m (mem_sortByIndex.mp hm)
      have hinside := h.inside m (mem_sortByIndex.mp hm)
      rw [hbase] at hmatch hinside
      obtain ⟨found, hfound, -⟩ := exists_of_mem_unsorted h.matched _ hedit
      rw [hbase] at hfound
      have hsought : sought nfkc content (editOf edits m).oldText = (editOf edits m).oldText :=
        sought_of_found (found_exactly hfuzzy hedit hfound)
      have hpos := List.length_pos_iff.mpr (h.notEmpty _ hedit)
      rw [← hsought, ← hmatch.length] at hpos
      omega
    have hflatten : (splitLinesWithEndings content).flatten = content := Separated.flatten_pieces newline content
    obtain ⟨groups, hgroups⟩ : ∃ groups, (sortByIndex unsorted).foldlM
        (groupReplacement (spansFrom 0 (splitLinesWithEndings content))) [] = .ok groups :=
      exists_groups (sortByIndex unsorted) [] (by rwa [hflatten])
    rw [hbase] at hgrouped hnew ⊢
    have hok := hgrouped groups hgroups
    have hoverlay := overlay_exact (Nat.zero_le _) (fun group hgroup => hok.ok group (List.mem_reverse.mp hgroup))
      (fun group _ => Nat.zero_le group.startLine) (List.pairwise_reverse.mpr hok.apart)
    rw [hflatten, List.drop_zero, hflatten, lineOffset_zero, hok.all, ← hnew] at hoverlay
    exact ⟨groups, hok, rfl, hoverlay.symm⟩

theorem touched_of_touchesLine (h : Applied nfkc content edits result unsorted) {m : MatchedEdit} {k : Nat}
    (hm : m ∈ unsorted) (htouches : TouchesLine (splitLinesWithEndings (replacementBase nfkc content edits)) m k) :
    Touched nfkc content edits k := by
  obtain ⟨hedit, hmatch⟩ := h.matchOf m hm
  obtain ⟨startLine, endLine, hrange, hfrom, hto⟩ := htouches
  refine ⟨editOf edits m, hedit, startLine, endLine, ?_, hfrom, hto⟩
  rw [hmatch.foundAt_eq, ← hmatch.length]
  exact hrange

/-- The new content in one part for each line, a line that is not touched being its own part. -/
theorem Applied.parts (h : Applied nfkc content edits result unsorted) :
    ∃ parts : List Text, parts.length = (splitLinesWithEndings content).length ∧ result.newContent = parts.flatten ∧
      ∀ k, ¬ Touched nfkc content edits k → parts[k]? = (splitLinesWithEndings content)[k]? := by
  obtain ⟨groups, hgrouped, hcount, hnew⟩ := h.overlaid
  obtain ⟨parts, hlength, hflatten, hparts⟩ := overlay_parts (replacementBase nfkc content edits)
    (getLineSpans (replacementBase nfkc content edits)) (Nat.zero_le (splitLinesWithEndings content).length)
    (fun group hgroup => by
      have hok := hgrouped.ok group (List.mem_reverse.mp hgroup)
      rw [hcount]
      exact ⟨hok.nonempty, hok.inText⟩)
    (fun group _ => Nat.zero_le group.startLine) (List.pairwise_reverse.mpr hgrouped.apart)
  refine ⟨parts, hlength, hnew.trans hflatten, fun k hk => hparts k (Nat.zero_le k) ?_⟩
  rintro group hgroup ⟨hfrom, hto⟩
  obtain ⟨m, hm, htouches⟩ := (hgrouped.ok group (List.mem_reverse.mp hgroup)).covered k hfrom hto
  have hin : m ∈ sortByIndex unsorted := by
    rw [← hgrouped.all]
    exact List.mem_flatMap.mpr ⟨group, hgroup, hm⟩
  exact hk (touched_of_touchesLine h (mem_sortByIndex.mp hin) htouches)

/-! ## What is written back -/

theorem editText_eq_ok : editText nfkc raw edits path = .ok output ↔
    ∃ result, applyEditsToNormalizedContent nfkc (normalizeToLF (stripBom raw).2) edits path = .ok result ∧
      output = (stripBom raw).1 ++ restoreLineEndings result.newContent (detectLineEnding (stripBom raw).2) := by
  rw [editText]
  show (applyEditsToNormalizedContent nfkc (normalizeToLF (stripBom raw).2) edits path >>= fun result =>
    pure ((stripBom raw).1 ++ restoreLineEndings result.newContent (detectLineEnding (stripBom raw).2))) = _ ↔ _
  cases applyEditsToNormalizedContent nfkc (normalizeToLF (stripBom raw).2) edits path with
  | error message => exact iff_of_false (by rintro ⟨⟩) (by rintro ⟨_, ⟨⟩, _⟩)
  | ok result =>
    constructor
    · intro h
      exact ⟨result, rfl, (Except.ok.inj h).symm⟩
    · rintro ⟨_, ⟨⟩, rfl⟩
      rfl

/-- The bytes of lines that no edit touches are left alone: what is written has a part for each line of the file,
and that of such a line is the line. -/
def LeavesLinesAlone (nfkc : Nfkc) (raw : Text) (edits : List Edit) (output : Text) : Prop :=
  ∃ parts : List Text, parts.length = (fileLines (stripBom raw).2).length ∧ output = (stripBom raw).1 ++
      (parts.map fun part => restoreLineEndings part (detectLineEnding (stripBom raw).2)).flatten ∧
    ∀ k line, (fileLines (stripBom raw).2)[k]? = some line →
      ¬ Touched nfkc (normalizeToLF (stripBom raw).2) (edits.map Edit.normalized) k →
      parts[k]? = some (normalizeToLF line) ∧
        restoreLineEndings (normalizeToLF line) (detectLineEnding (stripBom raw).2) = line

/-- **Lines that no edit touches are left alone** exactly where each of them has the line end that was detected for
the whole file, or none. -/
theorem leaves_lines_alone_iff (h : editText nfkc raw edits path = .ok output) :
    LeavesLinesAlone nfkc raw edits output ↔ ∀ k line, (fileLines (stripBom raw).2)[k]? = some line →
        ¬ Touched nfkc (normalizeToLF (stripBom raw).2) (edits.map Edit.normalized) k →
        lineEnd line = [] ∨ lineEnd line = (detectLineEnding (stripBom raw).2).units := by
  constructor
  · rintro ⟨parts, -, -, hlines⟩ k line hline hk
    exact (restored_iff _ (List.mem_of_getElem? hline)).mp (hlines k line hline hk).2
  · intro hends
    obtain ⟨result, hresult, houtput⟩ := editText_eq_ok.mp h
    obtain ⟨unsorted, happlied⟩ := applyEdits_eq_ok.mp hresult
    obtain ⟨parts, hlength, hflatten, hparts⟩ := happlied.parts
    rw [splitLines_normalizeToLF] at hlength hparts
    rw [List.length_map] at hlength
    refine ⟨parts, hlength, ?_, fun k line hline hk => ⟨?_, ?_⟩⟩
    · rw [houtput, hflatten, restoreLineEndings_flatten]
    · rw [hparts k hk, List.getElem?_map, hline, Option.map_some]
    · exact (restored_iff _ (List.mem_of_getElem? hline)).mpr (hends k line hline hk)

theorem leaves_lines_alone_iff_letter :
    LeavesLinesAlone Nfkc.identity [unit 'a', newline, unit 'b'] [⟨[unit 'a'], [unit 'x']⟩]
      [unit 'x', newline, unit 'b'] ↔
    ∀ k line, (fileLines (stripBom [unit 'a', newline, unit 'b']).2)[k]? = some line →
      ¬ Touched Nfkc.identity (normalizeToLF (stripBom [unit 'a', newline, unit 'b']).2)
        ([Edit.mk [unit 'a'] [unit 'x']].map Edit.normalized) k →
      lineEnd line = [] ∨ lineEnd line = (detectLineEnding (stripBom [unit 'a', newline, unit 'b']).2).units :=
  leaves_lines_alone_iff (show editText Nfkc.identity [unit 'a', newline, unit 'b'] [⟨[unit 'a'], [unit 'x']⟩]
    "letters" = .ok [unit 'x', newline, unit 'b'] by decide +kernel)

/-- The second line has a line end that the first has not, and gets the first one's. -/
theorem mixed_line_ends_are_rewritten :
    editText Nfkc.identity [unit 'a', carriageReturn, newline, unit 'b', newline] [⟨[unit 'a'], [unit 'x']⟩] "letters" =
      .ok [unit 'x', carriageReturn, newline, unit 'b', carriageReturn, newline] ∧
    ¬ LeavesLinesAlone Nfkc.identity [unit 'a', carriageReturn, newline, unit 'b', newline]
      [⟨[unit 'a'], [unit 'x']⟩] [unit 'x', carriageReturn, newline, unit 'b', carriageReturn, newline] := by
  refine ⟨by decide +kernel, ?_⟩
  rintro ⟨parts, -, -, hlines⟩
  have hrewritten := (hlines 1 [unit 'b', newline] (by decide +kernel) ?_).2
  · exact absurd hrewritten (by decide +kernel)
  · rintro ⟨edit, hedit, startLine, endLine, hrange, -, hto⟩
    cases List.mem_singleton.mp hedit
    have hfirst : (startLine, endLine) = (0, 1) := by
      refine Except.ok.inj (hrange.symm.trans ?_)
      decide +kernel
    rw [(Prod.mk.inj hfirst).2] at hto
    exact Nat.lt_irrefl 1 hto

end Mcpi.Tools.EditDiff
