import Mathlib.Data.List.Induction
import Mcpi.CodingAgent.Truncate

/-!
# Truncating an end of the output

What `truncateTail` makes of an end of a text, compared with what it makes of the whole text. The
loop runs over the same lines as long as it stays inside the end.
-/

namespace Mcpi.CodingAgent

open Utf8 (byteLength)

variable {limits : Limits}

/-! ## The loop -/

section Loop

variable {line : List Char} {lines rest outputLines : List (List Char)}

theorem byteLength_join_cons (line : List Char) (outputLines : List (List Char)) :
    byteLength (List.intercalate ['\n'] (line :: outputLines)) =
      byteLength (List.intercalate ['\n'] outputLines) + lineBytes outputLines line := by
  cases outputLines with
  | nil => simp [lineBytes]
  | cons l outputLines =>
    have hnewline : (String.utf8EncodeChar '\n').length = 1 := rfl
    rw [Separated.join_cons (List.cons_ne_nil _ _), Utf8.byteLength_append, Utf8.byteLength_cons, hnewline, lineBytes]
    simp only [List.isEmpty_cons, Bool.false_eq_true, if_false]
    omega

theorem byteLength_join_le (lines outputLines : List (List Char)) :
    byteLength (List.intercalate ['\n'] outputLines) ≤ byteLength (List.intercalate ['\n'] (lines ++ outputLines)) := by
  induction lines with
  | nil => exact Nat.le_refl _
  | cons line lines ih =>
    rw [List.cons_append, byteLength_join_cons]
    omega

/-- The lines are within both limits. -/
def LinesFit (limits : Limits) (lines : List (List Char)) : Prop :=
  lines.length ≤ limits.maxLines ∧ byteLength (List.intercalate ['\n'] lines) ≤ limits.maxBytes

theorem LinesFit.of_append (h : LinesFit limits (lines ++ outputLines)) : LinesFit limits outputLines := by
  refine ⟨Nat.le_trans ?_ h.1, Nat.le_trans (byteLength_join_le lines outputLines) h.2⟩
  rw [List.length_append]
  exact Nat.le_add_left _ _

theorem collectLines_cons (h : LinesFit limits (line :: outputLines)) :
    collectLines limits (line :: rest) outputLines (byteLength (List.intercalate ['\n'] outputLines)) =
      collectLines limits rest (line :: outputLines) (byteLength (List.intercalate ['\n'] (line :: outputLines))) := by
  have hlength : outputLines.length < limits.maxLines := h.1
  have hbytes := h.2
  rw [byteLength_join_cons] at hbytes
  rw [collectLines, if_pos hlength, if_neg (Nat.not_lt.mpr hbytes), byteLength_join_cons]

theorem collectLines_fits (lines rest : List (List Char)) {outputLines : List (List Char)}
    (h : LinesFit limits (lines.reverse ++ outputLines)) :
    collectLines limits (lines ++ rest) outputLines (byteLength (List.intercalate ['\n'] outputLines)) =
      collectLines limits rest (lines.reverse ++ outputLines)
        (byteLength (List.intercalate ['\n'] (lines.reverse ++ outputLines))) := by
  induction lines generalizing outputLines with
  | nil => rfl
  | cons line lines ih =>
    rw [List.reverse_cons, List.append_assoc, List.singleton_append] at h ⊢
    rw [List.cons_append, collectLines_cons h.of_append, ih h]

/-- Where they do not all fit, the loop ends before the rest. -/
theorem collectLines_stops (lines rest : List (List Char)) {outputLines : List (List Char)}
    (hfit : LinesFit limits outputLines)
    (h : ¬ LinesFit limits (lines.reverse ++ outputLines)) :
    collectLines limits (lines ++ rest) outputLines (byteLength (List.intercalate ['\n'] outputLines)) =
      collectLines limits lines outputLines (byteLength (List.intercalate ['\n'] outputLines)) := by
  induction lines generalizing outputLines with
  | nil => exact absurd hfit h
  | cons line lines ih =>
    rw [List.reverse_cons, List.append_assoc, List.singleton_append] at h
    by_cases hnext : LinesFit limits (line :: outputLines)
    · rw [List.cons_append, collectLines_cons hnext, collectLines_cons hnext, ih hnext h]
    · rw [List.cons_append, collectLines, collectLines]
      split
      next hlength =>
        have hbytes : byteLength (List.intercalate ['\n'] outputLines) + lineBytes outputLines line >
            limits.maxBytes := by
          rw [← byteLength_join_cons]
          exact Nat.not_le.mp fun hle => hnext ⟨hlength, hle⟩
        rw [if_pos hbytes, if_pos hbytes]
      · rfl

theorem collectLines_keeps (lines : List (List Char)) (hne : outputLines ≠ []) (count : Nat) :
    ∃ before, (collectLines limits lines outputLines count).outputLines = before ++ outputLines := by
  induction lines generalizing outputLines count with
  | nil => exact ⟨[], rfl⟩
  | cons line lines ih =>
    rw [collectLines]
    split
    · split
      · have hempty : outputLines.isEmpty = false := by simpa using hne
        rw [hempty]
        exact ⟨[], rfl⟩
      · obtain ⟨before, hbefore⟩ := ih (List.cons_ne_nil line outputLines) _
        exact ⟨before ++ [line], by rw [hbefore, List.append_assoc]; rfl⟩
    · exact ⟨[], rfl⟩

/-- What the loop does with the first line after some that fit. -/
theorem collectLines_next (line : List Char) (rest : List (List Char)) (hfit : LinesFit limits outputLines) :
    (outputLines.length = limits.maxLines ∧
      collectLines limits (line :: rest) outputLines (byteLength (List.intercalate ['\n'] outputLines)) =
        ⟨outputLines, byteLength (List.intercalate ['\n'] outputLines), .lines, false⟩) ∨
    (outputLines.length < limits.maxLines ∧ LinesFit limits (line :: outputLines) ∧
      ∃ before, (collectLines limits (line :: rest) outputLines
        (byteLength (List.intercalate ['\n'] outputLines))).outputLines = before ++ line :: outputLines) ∨
    (outputLines.length < limits.maxLines ∧ ¬ LinesFit limits (line :: outputLines) ∧
      collectLines limits (line :: rest) outputLines (byteLength (List.intercalate ['\n'] outputLines)) =
        if outputLines.isEmpty then
          ⟨[truncateStringToBytesFromEnd line limits.maxBytes],
            byteLength (truncateStringToBytesFromEnd line limits.maxBytes), .bytes, true⟩
        else ⟨outputLines, byteLength (List.intercalate ['\n'] outputLines), .bytes, false⟩) := by
  rcases Nat.lt_or_ge outputLines.length limits.maxLines with hlt | hge
  · by_cases hnext : LinesFit limits (line :: outputLines)
    · refine .inr (.inl ⟨hlt, hnext, ?_⟩)
      rw [collectLines_cons hnext]
      exact collectLines_keeps rest (List.cons_ne_nil _ _) _
    · have hbytes : byteLength (List.intercalate ['\n'] outputLines) + lineBytes outputLines line >
          limits.maxBytes := by
        rw [← byteLength_join_cons]
        exact Nat.not_le.mp fun hle => hnext ⟨hlt, hle⟩
      refine .inr (.inr ⟨hlt, hnext, ?_⟩)
      rw [collectLines, if_pos hlt, if_pos hbytes]
  · refine .inl ⟨Nat.le_antisymm hfit.1 hge, ?_⟩
    rw [collectLines, if_neg (Nat.not_lt.mpr hge)]

end Loop

theorem truncateStringToBytesFromEnd_eq (str : List Char) (maxBytes : Nat) :
    truncateStringToBytesFromEnd str maxBytes = Utf8.lastChars maxBytes str := by
  unfold truncateStringToBytesFromEnd
  dsimp only
  split
  next hle => exact (Utf8.lastChars_of_le hle).symm
  next hlt =>
    obtain ⟨before, heq, -, hindex⟩ := Utf8.boundaryFrom_spec (Nat.not_le.mp hlt)
    have hbuffer : (Utf8.encode str).drop (byteLength before) = Utf8.encode (Utf8.lastChars maxBytes str) := by
      conv_lhs => rw [heq]
      exact Utf8.drop_encode _ _
    show Utf8.decode ((Utf8.encode str).drop (Utf8.boundaryFrom (Utf8.encode str) (byteLength str - maxBytes))) = _
    rw [hindex, hbuffer, Utf8.decode_encode]

/-! ## An end and the whole -/

/-- The contents are the same but for one newline at the end. -/
def SameContent (a b : List Char) : Prop := a = b ∨ a = b ++ ['\n'] ∨ b = a ++ ['\n']

/-- What is shown of an end agrees with what is shown of the whole, which is over the byte limit. -/
structure ShowsSame (shown whole : TruncationResult) : Prop where
  content : SameContent shown.content whole.content
  truncatedBy : some (shown.truncatedBy.getD .bytes) = whole.truncatedBy
  outputLines : shown.outputLines = whole.outputLines
  outputBytes : shown.outputBytes = whole.outputBytes
  lastLinePartial : shown.lastLinePartial = whole.lastLinePartial

/-- The end goes over a limit, and not by its last newline alone. -/
def Overflows (limits : Limits) (content : List Char) : Prop :=
  ¬ Fits limits content ∧ (limits.maxLines ≤ (splitLinesForCounting content).length ∨
    limits.maxBytes < byteLength (chomp content))

/-- The end starts at a line and is within the limits, ends inside a line, and leaves room for a line
but not for the one before it. -/
def Fills (limits : Limits) (before content : List Char) : Prop :=
  Fits limits content ∧ endsWithNewline before = true ∧ content ≠ [] ∧
    (splitLinesForCounting content).length < limits.maxLines ∧ endsWithNewline content = false ∧
      limits.maxBytes < byteLength content + 1 + byteLength ((splitLinesForCounting before).getLast?.getD [])

section Compare

variable {before content : List Char}

theorem truncateTail_of_fits (h : Fits limits content) :
    truncateTail content limits =
      { content, truncated := false, truncatedBy := none
        totalLines := (splitLinesForCounting content).length, totalBytes := byteLength content
        outputLines := (splitLinesForCounting content).length, outputBytes := byteLength content
        lastLinePartial := false, firstLineExceedsLimit := false
        maxLines := limits.maxLines, maxBytes := limits.maxBytes } :=
  if_pos h

/-- The result of a text that is over a limit, by what the loop collected. -/
def truncatedResult (limits : Limits) (content : List Char) (collected : Collected) :
    TruncationResult :=
  { content := List.intercalate ['\n'] collected.outputLines, truncated := true
    truncatedBy := some (collected.limitHit limits)
    totalLines := (splitLinesForCounting content).length, totalBytes := byteLength content
    outputLines := collected.outputLines.length
    outputBytes := byteLength (List.intercalate ['\n'] collected.outputLines)
    lastLinePartial := collected.lastLinePartial, firstLineExceedsLimit := false
    maxLines := limits.maxLines, maxBytes := limits.maxBytes }

theorem truncateTail_of_not_fits (h : ¬ Fits limits content) :
    truncateTail content limits = truncatedResult limits content
      (collectLines limits (splitLinesForCounting content).reverse [] 0) :=
  if_neg h

theorem Fits.lines (h : Fits limits content) : LinesFit limits (splitLinesForCounting content) := by
  refine ⟨h.1, ?_⟩
  rw [join_splitLines]
  have hbytes := byteLength_chomp content
  have hle := h.2
  omega

theorem showsSame_truncated {whole : List Char} {collected collected' : Collected} :
    ShowsSame (truncatedResult limits content collected) (truncatedResult limits whole collected') ↔
      SameContent (List.intercalate ['\n'] collected.outputLines) (List.intercalate ['\n'] collected'.outputLines) ∧
        collected.limitHit limits = collected'.limitHit limits ∧
        collected.outputLines.length = collected'.outputLines.length ∧
        byteLength (List.intercalate ['\n'] collected.outputLines) =
          byteLength (List.intercalate ['\n'] collected'.outputLines) ∧
        collected.lastLinePartial = collected'.lastLinePartial := by
  constructor
  · rintro ⟨hcontent, hby, hlines, hbytes, hpartial⟩
    exact ⟨hcontent, Option.some.inj hby, hlines, hbytes, hpartial⟩
  · rintro ⟨hcontent, hby, hlines, hbytes, hpartial⟩
    exact ⟨hcontent, congrArg some hby, hlines, hbytes, hpartial⟩

theorem not_fits_of_bytes (h : limits.maxBytes < byteLength content) : ¬ Fits limits content :=
  fun hfits => absurd hfits.2 (Nat.not_le.mpr h)

/-- The lines of the whole, from the last one on, where the end starts at a line. -/
theorem reverse_lines (content : List Char) (hends : endsWithNewline before = true) :
    ∃ rest, (splitLinesForCounting (before ++ content)).reverse = (splitLinesForCounting content).reverse ++
        (splitLinesForCounting before).getLast?.getD [] :: rest := by
  have hne : splitLinesForCounting before ≠ [] := by
    rw [ne_eq, splitLines_eq_nil]
    rintro rfl
    cases hends
  obtain ⟨lines, line, hlines⟩ : ∃ lines line, splitLinesForCounting before = lines ++ [line] :=
    ⟨_, _, (List.dropLast_append_getLast hne).symm⟩
  refine ⟨lines.reverse, ?_⟩
  rw [splitLines_append hends, hlines, List.reverse_append, List.reverse_append, List.getLast?_concat]
  rfl

/-- What the loop has collected of the end, where all its lines fit. -/
theorem collectLines_end (hall : LinesFit limits (splitLinesForCounting content)) (rest : List (List Char)) :
    collectLines limits ((splitLinesForCounting content).reverse ++ rest) [] 0 =
      collectLines limits rest (splitLinesForCounting content) (byteLength (chomp content)) := by
  have hnil : LinesFit limits ((splitLinesForCounting content).reverse.reverse ++ []) := by
    rwa [List.reverse_reverse, List.append_nil]
  have h := collectLines_fits (splitLinesForCounting content).reverse rest hnil
  rw [List.reverse_reverse, List.append_nil, join_splitLines] at h
  exact h

theorem limitHit_lines {outputLines : List (List Char)} {count : Nat} {lastLinePartial : Bool} :
    Collected.limitHit ⟨outputLines, count, .lines, lastLinePartial⟩ limits = .lines := by
  unfold Collected.limitHit
  split <;> rfl

theorem limitHit_bytes {outputLines : List (List Char)} {count : Nat} {lastLinePartial : Bool}
    (h : outputLines.length < limits.maxLines) :
    Collected.limitHit ⟨outputLines, count, .bytes, lastLinePartial⟩ limits = .bytes :=
  if_neg fun hhit => absurd hhit.1 (Nat.not_le.mpr h)

theorem showsSame_fits (hfits : Fits limits content) (hends : endsWithNewline before = true)
    (hbytes : limits.maxBytes < byteLength (before ++ content)) :
    ShowsSame (truncateTail content limits) (truncateTail (before ++ content) limits) ↔
      Fills limits before content := by
  obtain ⟨rest, hrest⟩ := reverse_lines content hends
  have hjoin := join_splitLines content
  rw [truncateTail_of_fits hfits, truncateTail_of_not_fits (not_fits_of_bytes hbytes), hrest,
    collectLines_end hfits.lines]
  generalize hlines : splitLinesForCounting content = lines at *
  generalize hline : (splitLinesForCounting before).getLast?.getD [] = line at *
  have hall : LinesFit limits lines := hlines ▸ hfits.lines
  rw [← hjoin]
  rcases collectLines_next line rest hall with
    ⟨hlength, hloop⟩ | ⟨hlt, hnext, taken, htaken⟩ | ⟨hlt, hnext, hloop⟩
  · -- the whole is cut by the line limit, the end by none
    rw [hloop]
    constructor
    · intro h
      have hby : some TruncatedBy.bytes = some _ := h.truncatedBy
      rw [limitHit_lines] at hby
      cases hby
    · intro h
      have hlt := h.2.2.2.1
      rw [hlines] at hlt
      omega
  · -- the whole shows one more line
    constructor
    · intro h
      have hcount : lines.length = (collectLines _ _ _ _).outputLines.length := h.outputLines
      rw [htaken, List.length_append, List.length_cons] at hcount
      omega
    · intro h
      have hover := h.2.2.2.2.2
      rw [hline] at hover
      have hsame := byteLength_chomp content
      rw [h.2.2.2.2.1, if_neg Bool.false_ne_true, ← hjoin] at hsame
      have hfit := hnext.2
      have hne : lines ≠ [] := by
        rw [← hlines, ne_eq, splitLines_eq_nil]
        exact h.2.2.1
      rw [byteLength_join_cons, lineBytes, List.isEmpty_eq_false_iff.mpr hne] at hfit
      simp only [Bool.false_eq_true, if_false] at hfit
      omega
  · -- the line before does not fit
    rw [hloop]
    by_cases hne : lines = []
    · subst hne
      constructor
      · intro h
        exact absurd h.lastLinePartial Bool.false_ne_true
      · intro h
        exact absurd (splitLines_eq_nil.mp hlines) h.2.2.1
    · rw [if_neg (by simpa using hne)]
      have hcontent : content ≠ [] := by
        rintro rfl
        exact hne hlines.symm
      have hover : limits.maxBytes < byteLength (List.intercalate ['\n'] lines) + (byteLength line + 1) := by
        have hnot : ¬ byteLength (List.intercalate ['\n'] (line :: lines)) ≤ limits.maxBytes :=
          fun hle => hnext ⟨hlt, hle⟩
        rw [byteLength_join_cons, lineBytes, List.isEmpty_eq_false_iff.mpr hne] at hnot
        simpa using hnot
      have hsame := byteLength_chomp content
      rw [← hjoin] at hsame
      constructor
      · intro h
        have hsize : byteLength content = byteLength (List.intercalate ['\n'] lines) := h.outputBytes
        have hinside : endsWithNewline content = false := by
          cases hnewline : endsWithNewline content with
          | false => rfl
          | true =>
            rw [hnewline, if_pos rfl] at hsame
            omega
        refine ⟨hfits, hends, hcontent, hlines ▸ hlt, hinside, ?_⟩
        rw [hline]
        omega
      · intro h
        have hchomp : content = List.intercalate ['\n'] lines := by
          rw [hjoin, chomp, h.2.2.2.2.1]
          rfl
        refine ⟨.inl hchomp, ?_, rfl, congrArg byteLength hchomp, rfl⟩
        exact congrArg some (limitHit_bytes hlt).symm

/-- **An end that starts at a line** shows the same as the whole exactly if it overflows or fills
the limits. -/
theorem showsSame_boundary (hends : endsWithNewline before = true)
    (hbytes : limits.maxBytes < byteLength (before ++ content)) :
    ShowsSame (truncateTail content limits) (truncateTail (before ++ content) limits) ↔
      Overflows limits content ∨ Fills limits before content := by
  by_cases hfits : Fits limits content
  · rw [showsSame_fits hfits hends hbytes]
    exact ⟨.inr, fun h => h.resolve_left fun hover => hover.1 hfits⟩
  · have hfills : ¬ Fills limits before content := fun h => hfits h.1
    rw [or_iff_left hfills, Overflows, and_iff_right hfits]
    obtain ⟨rest, hrest⟩ := reverse_lines content hends
    have hjoin := join_splitLines content
    rw [truncateTail_of_not_fits hfits, truncateTail_of_not_fits (not_fits_of_bytes hbytes), hrest]
    by_cases hall : LinesFit limits (splitLinesForCounting content)
    · -- only the last newline is over the limit
      have hown := collectLines_end hall []
      rw [List.append_nil] at hown
      rw [hown, collectLines_end hall, collectLines, showsSame_truncated]
      generalize hlines : splitLinesForCounting content = lines at *
      generalize hline : (splitLinesForCounting before).getLast?.getD [] = line at *
      rw [← hjoin]
      have hsize : ¬ limits.maxBytes < byteLength (List.intercalate ['\n'] lines) := Nat.not_lt.mpr hall.2
      rw [or_iff_left hsize]
      rcases collectLines_next line rest hall with
        ⟨hlength, hloop⟩ | ⟨hlt, -, taken, htaken⟩ | ⟨hlt, hnext, hloop⟩
      · rw [hloop]
        exact ⟨fun _ => Nat.le_of_eq hlength.symm, fun _ => ⟨.inl rfl, rfl, rfl, rfl, rfl⟩⟩
      · constructor
        · rintro ⟨-, -, hcount, -, -⟩
          rw [htaken, List.length_append, List.length_cons] at hcount
          simp only at hcount
          omega
        · intro hle
          omega
      · rw [hloop]
        constructor
        · rintro ⟨-, hby, -, -, hpartial⟩
          split at hpartial
          · cases hpartial
          next hne =>
            rw [if_neg hne, limitHit_lines, limitHit_bytes hlt] at hby
            cases hby
        · intro hle
          omega
    · -- the loop ends inside the end
      have hnil : LinesFit limits [] := ⟨Nat.zero_le _, Nat.zero_le _⟩
      have hnot : ¬ LinesFit limits ((splitLinesForCounting content).reverse.reverse ++ []) := by
        rwa [List.reverse_reverse, List.append_nil]
      have hstop := collectLines_stops (splitLinesForCounting content).reverse
        ((splitLinesForCounting before).getLast?.getD [] :: rest) hnil hnot
      rw [show byteLength (List.intercalate ['\n'] []) = 0 from rfl] at hstop
      rw [hstop, showsSame_truncated]
      refine ⟨fun _ => ?_, fun _ => ⟨.inl rfl, rfl, rfl, rfl, rfl⟩⟩
      rcases Nat.lt_or_ge limits.maxLines (splitLinesForCounting content).length with hlt | hge
      · exact .inl (Nat.le_of_lt hlt)
      · refine .inr (Nat.not_le.mp fun hle => hall ⟨hge, ?_⟩)
        rw [hjoin]
        exact hle

/-! ## An end that starts inside a line -/

theorem exists_lastLine (text : List Char) :
    ∃ init line, text = init ++ line ∧ '\n' ∉ line ∧ (init = [] ∨ endsWithNewline init = true) := by
  induction text using List.reverseRecOn with
  | nil => exact ⟨[], [], rfl, List.not_mem_nil, .inl rfl⟩
  | append_singleton text c ih =>
    by_cases hc : c = '\n'
    · subst hc
      refine ⟨text ++ ['\n'], [], (List.append_nil _).symm, List.not_mem_nil, .inr ?_⟩
      exact endsWithNewline_iff.mpr ⟨text, rfl⟩
    · obtain ⟨init, line, rfl, hline, hinit⟩ := ih
      refine ⟨init, line ++ [c], List.append_assoc _ _ _, ?_, hinit⟩
      rw [List.mem_append, List.mem_singleton, not_or]
      exact ⟨hline, Ne.symm hc⟩

variable {line : List Char}

theorem not_endsWithNewline (h : '\n' ∉ line) : endsWithNewline line = false := by
  rw [Bool.eq_false_iff]
  intro hends
  obtain ⟨init, rfl⟩ := endsWithNewline_iff.mp hends
  simp at h

theorem chomp_line (h : '\n' ∉ line) : chomp line = line := by
  rw [chomp, not_endsWithNewline h]
  rfl

theorem splitLines_line (hne : line ≠ []) (h : '\n' ∉ line) : splitLinesForCounting line = [line] := by
  rw [splitLines_chomp hne, chomp_line h, List.splitOn_eq_singleton h]

/-- The last line of the whole, where the end starts inside a line and has no other. -/
theorem reverse_lines_inside (hbefore : before ≠ []) (hends : endsWithNewline before = false) (hline : '\n' ∉ content) :
    ∃ start rest, start ≠ [] ∧ (splitLinesForCounting (before ++ content)).reverse = (start ++ content) :: rest := by
  obtain ⟨init, start, rfl, hstart, hinit⟩ := exists_lastLine before
  have hne : start ≠ [] := by
    rintro rfl
    rw [List.append_nil] at hends hbefore
    rcases hinit with rfl | hinit
    · exact hbefore rfl
    · rw [hends] at hinit
      cases hinit
  have hlast : splitLinesForCounting (start ++ content) = [start ++ content] := by
    refine splitLines_line (List.append_ne_nil_of_left_ne_nil hne content) ?_
    rw [List.mem_append, not_or]
    exact ⟨hstart, hline⟩
  rw [List.append_assoc]
  rcases hinit with rfl | hinit
  · exact ⟨start, [], hne, by rw [List.nil_append, hlast]; rfl⟩
  · refine ⟨start, (splitLinesForCounting init).reverse, hne, ?_⟩
    rw [splitLines_append hinit, hlast, List.reverse_append]
    rfl

/-- **An end that starts inside a line**, and has no other, shows the same as the whole exactly if it
overflows. -/
theorem showsSame_inside (hbefore : before ≠ []) (hends : endsWithNewline before = false)
    (hline : '\n' ∉ content) (hbytes : limits.maxBytes < byteLength (before ++ content)) :
    ShowsSame (truncateTail content limits) (truncateTail (before ++ content) limits) ↔
      Overflows limits content ∨ Fills limits before content := by
  have hfills : ¬ Fills limits before content := fun h => by
    have hstart := h.2.1
    rw [hends] at hstart
    cases hstart
  rw [or_iff_left hfills]
  obtain ⟨start, rest, hstart, hrev⟩ := reverse_lines_inside hbefore hends hline
  have hnil : LinesFit limits [] := ⟨Nat.zero_le _, Nat.zero_le _⟩
  have hlonger : byteLength content < byteLength (start ++ content) := by
    rw [Utf8.byteLength_append]
    exact Nat.lt_add_of_pos_left (Utf8.byteLength_pos hstart)
  rw [truncateTail_of_not_fits (not_fits_of_bytes hbytes), hrev]
  have hnext := collectLines_next (start ++ content) rest hnil
  rw [show byteLength (List.intercalate ['\n'] []) = 0 from rfl] at hnext
  by_cases hfits : Fits limits content
  · -- the end is shown whole, although its line is not
    refine ⟨fun h => ?_, fun h => absurd hfits h.1⟩
    rw [truncateTail_of_fits hfits] at h
    rcases hnext with ⟨-, hloop⟩ | ⟨-, -, taken, htaken⟩ | ⟨-, -, hloop⟩
    · have hby : some TruncatedBy.bytes = some _ := h.truncatedBy
      rw [hloop, limitHit_lines] at hby
      cases hby
    · have hsize : byteLength content = byteLength (List.intercalate ['\n'] _) := h.outputBytes
      have hle := byteLength_join_le taken [start ++ content]
      rw [htaken] at hsize
      rw [List.intercalate_singleton] at hle
      omega
    · have hpartial := h.lastLinePartial
      rw [hloop] at hpartial
      cases hpartial
  · have hover : Overflows limits content := by
      refine ⟨hfits, ?_⟩
      rw [chomp_line hline]
      rcases Nat.lt_or_ge limits.maxBytes (byteLength content) with hlt | hge
      · exact .inr hlt
      · exact .inl (Nat.le_of_lt (Nat.not_le.mp fun hle => hfits ⟨hle, hge⟩))
    refine ⟨fun _ => hover, fun _ => ?_⟩
    have hcontent : content ≠ [] := by
      rintro rfl
      exact hfits ⟨Nat.zero_le _, Nat.zero_le _⟩
    rw [truncateTail_of_not_fits hfits, splitLines_line hcontent hline, List.reverse_singleton, showsSame_truncated]
    rcases Nat.eq_zero_or_pos limits.maxLines with hzero | hpos
    · -- no line at all
      have hnone : ∀ lines, collectLines limits lines [] 0 = ⟨[], 0, .lines, false⟩ := by
        intro lines
        cases lines with
        | nil => rfl
        | cons line lines =>
          rw [collectLines, if_neg (by rw [hzero]; exact Nat.lt_irrefl 0)]
      rw [hnone, hnone]
      exact ⟨.inl rfl, rfl, rfl, rfl, rfl⟩
    · -- both are cut to the last bytes of the line
      have hlong : limits.maxBytes < byteLength content := by
        refine Nat.not_le.mp fun hle => hfits ⟨?_, hle⟩
        rw [splitLines_line hcontent hline]
        exact hpos
      have hcut : ∀ (line : List Char) (rest : List (List Char)), limits.maxBytes < byteLength line →
          collectLines limits (line :: rest) [] 0 = ⟨[truncateStringToBytesFromEnd line limits.maxBytes],
              byteLength (truncateStringToBytesFromEnd line limits.maxBytes), .bytes, true⟩ := by
        intro line rest hline
        have hbytes : 0 + lineBytes [] line > limits.maxBytes := by
          show limits.maxBytes < 0 + (byteLength line + 0)
          omega
        have hroom : ([] : List (List Char)).length < limits.maxLines := hpos
        rw [collectLines, if_pos hroom, if_pos hbytes]
        rfl
      rw [hcut content [] hlong, hcut (start ++ content) rest (by omega),
        truncateStringToBytesFromEnd_eq, truncateStringToBytesFromEnd_eq,
        Utf8.lastChars_append hlong]
      exact ⟨.inl rfl, rfl, rfl, rfl, rfl⟩

end Compare

end Mcpi.CodingAgent
