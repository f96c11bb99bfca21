import Mcpi.Tools.Truncation

/-!
# Truncating an end of a content

What `truncateTail` makes of a long end of a content is what it makes of the whole.
-/

namespace Mcpi.Tools.Truncate

open Utf16 (points pointBytes Boundary)

variable {maxLines maxBytes : Nat} {before ending : Text} {cut : Text → Nat → Text}

/-! ## Lines of an end -/

/-- The lines of a content and of an end of it, from the last one on: the first line of the end may begin before
it. -/
structure EndLines (whole ending : List Text) : Prop where
  lines : ∃ later first start earlier, ending = later ++ [first] ∧
    whole = later ++ (start ++ first) :: earlier ∧ Boundary start first

theorem boundary_parts {a b : Text} (h : Boundary before ending) (ha : a <:+ before) (hb : b <+: ending) :
    Boundary a b := by
  intro u v hu hv
  obtain ⟨rest, rfl⟩ := ha
  obtain ⟨more, rfl⟩ := hb
  apply h u v
  · rw [List.getLast?_append, hu]
    rfl
  · rw [List.head?_append, hv]
    rfl

theorem splitLinesForCounting_append (h : Boundary before ending) (hne : ending ≠ []) :
    EndLines (splitLinesForCounting (before ++ ending)).reverse (splitLinesForCounting ending).reverse := by
  obtain ⟨parts, start, first, more, hbefore, hending, hwhole⟩ :=
    Separated.split_append_parts newline before ending
  have hboundary : Boundary start first := by
    apply boundary_parts h
    · have hjoin : List.intercalate [newline] (List.splitOn newline before) = before := List.intercalate_splitOn newline
      rw [← hjoin, hbefore]
      exact Separated.suffix_join_concat parts start
    · have hjoin : List.intercalate [newline] (List.splitOn newline ending) = ending := List.intercalate_splitOn newline
      rw [← hjoin, hending]
      exact Separated.prefix_join_cons first more
  have hlast : (before ++ ending).getLast? = ending.getLast? := by
    obtain ⟨init, u, rfl⟩ : ∃ init u, ending = init ++ [u] :=
      ⟨_, _, (List.dropLast_append_getLast hne).symm⟩
    rw [← List.append_assoc, List.getLast?_concat, List.getLast?_concat]
  rw [splitLinesForCounting, splitLinesForCounting, if_neg hne, if_neg (List.append_ne_nil_of_right_ne_nil _ hne),
    hlast, hwhole, hending]
  split
  next hnewline =>
    have hmore : more ≠ [] := by
      rintro rfl
      have hjoin : List.intercalate [newline] (List.splitOn newline ending) = ending := List.intercalate_splitOn newline
      have hnone := Separated.not_mem_split newline ending first (by rw [hending]; exact List.mem_cons_self)
      rw [hending, List.intercalate_singleton] at hjoin
      rw [← hjoin] at hnewline
      exact hnone (List.mem_of_getLast? hnewline)
    refine ⟨more.dropLast.reverse, first, start, parts.reverse, ?_, ?_, hboundary⟩
    · rw [List.dropLast_cons_of_ne_nil hmore, List.reverse_cons]
    · rw [List.dropLast_append_of_ne_nil (List.cons_ne_nil _ _), List.dropLast_cons_of_ne_nil hmore,
        List.reverse_append, List.reverse_cons, List.append_assoc, List.singleton_append]
  · refine ⟨more.reverse, first, start, parts.reverse, List.reverse_cons, ?_, hboundary⟩
    rw [List.reverse_append, List.reverse_cons, List.append_assoc, List.singleton_append]

/-! ## The loop -/

theorem lastPoints_append (hboundary : Boundary before ending) (hlong : maxBytes < utf8ByteLength ending) :
    lastPoints maxBytes (before ++ ending) = lastPoints maxBytes ending := by
  rw [utf8ByteLength_eq] at hlong
  rw [lastPoints, Utf16.points_append hboundary]
  exact Fitting.lastFit_append hlong _

/-- The loop does not get past the first line of an end that is too long for it. -/
theorem collectTail_end {whole walk outputLinesArr : List Text} (hcut : Cuts cut) (h : EndLines whole walk)
    (hlarge : maxBytes < linesBytes (outputLinesArr.reverse ++ walk)) :
    collectTail utf8ByteLength maxLines maxBytes cut walk outputLinesArr (linesBytes outputLinesArr) =
      collectTail utf8ByteLength maxLines maxBytes cut whole outputLinesArr (linesBytes outputLinesArr) := by
  obtain ⟨later, first, start, earlier, rfl, rfl, hboundary⟩ := h.lines
  clear h
  have hconcat : ∀ (outputLinesArr : List Text) (line : Text),
      linesBytes outputLinesArr + (utf8ByteLength line + if outputLinesArr.length > 0 then 1 else 0) =
        linesBytes (outputLinesArr.reverse ++ [line]) := by
    intro outputLinesArr line
    rw [linesBytes_concat, linesBytes_reverse, List.length_reverse]
  induction later generalizing outputLinesArr with
  | nil =>
    have hwhole := utf8ByteLength_append hboundary
    rw [List.nil_append] at hlarge ⊢
    rw [List.nil_append, collectTail, collectTail]
    split
    · -- both go over the byte limit here
      have hlargeWhole : linesBytes outputLinesArr +
          (utf8ByteLength (start ++ first) + if outputLinesArr.length > 0 then 1 else 0) > maxBytes := by
        rw [← hconcat] at hlarge
        omega
      dsimp only
      rw [if_pos hlargeWhole, hconcat, if_pos hlarge]
      split
      next hzero =>
        have hnil := List.length_eq_zero_iff.mp hzero
        rw [hnil, List.reverse_nil, List.nil_append, linesBytes_singleton] at hlarge
        have hlong : maxBytes < utf8ByteLength first := hlarge
        rw [hcut first maxBytes hlong, hcut (start ++ first) maxBytes (by omega), lastPoints_append hboundary hlong]
      · rfl
    · rfl
  | cons line later ih =>
    have hcons : linesBytes (outputLinesArr.reverse ++ [line]) = linesBytes (line :: outputLinesArr) := by
      rw [← linesBytes_reverse, List.reverse_concat, List.reverse_reverse]
    rw [List.cons_append, List.cons_append, collectTail, collectTail]
    split
    · dsimp only
      rw [hconcat]
      split
      · rfl
      · rw [hcons]
        apply ih
        rw [List.reverse_cons, List.append_assoc]
        exact hlarge
    · rfl

/-! ## The result -/

/-- The report of an end, with the lines and the bytes of the whole. -/
def TruncationResult.ofWhole (result : TruncationResult) (totalLines totalBytes : Nat) : TruncationResult :=
  { result with totalLines, totalBytes }

/-- **A long end is truncated like the whole.** -/
theorem truncateTailWith_append (hcut : Cuts cut) (hboundary : Boundary before ending)
    (hlong : maxBytes + 1 < utf8ByteLength ending) :
    truncateTailWith utf8ByteLength maxLines maxBytes cut (before ++ ending) =
      (truncateTailWith utf8ByteLength maxLines maxBytes cut ending).ofWhole
        (splitLinesForCounting (before ++ ending)).length (utf8ByteLength (before ++ ending)) := by
  have hne : ending ≠ [] := by
    rintro rfl
    exact absurd hlong (Nat.not_lt_zero _)
  have hlines : maxBytes < linesBytes (List.reverse [] ++ (splitLinesForCounting ending).reverse) := by
    rw [List.reverse_nil, List.nil_append, linesBytes_reverse]
    have hnewline := utf8ByteLength_newline (List.intercalate [newline] (splitLinesForCounting ending)) []
    have hnil : utf8ByteLength [] = 0 := rfl
    show maxBytes < utf8ByteLength (List.intercalate [newline] (splitLinesForCounting ending))
    rcases content_eq ending with heq | heq
    · rw [← heq]
      exact Nat.lt_of_succ_lt hlong
    · have hbytes := congrArg utf8ByteLength heq
      omega
  have hloop : collectTail utf8ByteLength maxLines maxBytes cut _ [] (linesBytes []) = _ :=
    collectTail_end hcut (splitLinesForCounting_append hboundary hne) hlines
  have hexceeds : ¬ Within maxLines maxBytes ending := fun h => absurd h.2 (by omega)
  have hexceedsWhole : ¬ Within maxLines maxBytes (before ++ ending) := by
    intro h
    have hle := h.2
    rw [utf8ByteLength_append hboundary] at hle
    omega
  rw [truncateTailWith, truncateTailWith, if_neg (within_iff.not.mpr hexceeds),
    if_neg (within_iff.not.mpr hexceedsWhole)]
  show truncatedTo utf8ByteLength maxLines maxBytes (before ++ ending)
    (collectTail utf8ByteLength maxLines maxBytes cut _ [] (linesBytes [])) = _
  rw [← hloop]
  rfl

end Mcpi.Tools.Truncate
