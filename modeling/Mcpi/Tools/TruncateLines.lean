import Mcpi.Tools.TruncateCut

/-!
# The lines that both loops take

The loop of `truncateHead` goes through the lines, the one of `truncateTail` through the same lines from the last
one on. Either takes lines until the line limit or the byte limit stops it.
-/

namespace Mcpi.Tools.Truncate

open Utf16 (Boundary)

variable {maxLines maxBytes : Nat} {content : Text} {walk taken lines : List Text}

/-- The bytes of lines with a newline between each two. -/
def linesBytes (lines : List Text) : Nat := utf8ByteLength (List.intercalate [newline] lines)

/-! ## Bytes of lines -/

theorem boundary_newline (line after : Text) : Boundary line (newline :: after) := by
  rintro u v - ⟨⟩
  rw [Bool.and_eq_false_iff]
  right
  decide

theorem boundary_after_newline (after : Text) : Boundary [newline] after := by
  rintro u v ⟨⟩ -
  rw [Bool.and_eq_false_iff]
  left
  decide

theorem utf8ByteLength_newline (before after : Text) :
    utf8ByteLength (before ++ newline :: after) = utf8ByteLength before + 1 + utf8ByteLength after := by
  rw [utf8ByteLength_append (boundary_newline before after), utf8ByteLength_single (boundary_after_newline after),
    Nat.add_assoc]
  rfl

@[simp] theorem linesBytes_singleton (line : Text) : linesBytes [line] = utf8ByteLength line := by
  rw [linesBytes, List.intercalate_singleton]

/-- Each line with its newline, less the newline that is not there. -/
theorem linesBytes_eq (lines : List Text) :
    linesBytes lines = Fitting.total (fun line => utf8ByteLength line + 1) lines - 1 := by
  induction lines with
  | nil => rfl
  | cons line lines ih =>
    rw [Fitting.total_cons]
    cases lines with
    | nil =>
      rw [linesBytes_singleton, Fitting.total_nil]
      omega
    | cons next lines =>
      rw [linesBytes, Separated.join_cons (List.cons_ne_nil _ _), utf8ByteLength_newline, ← linesBytes, ih,
        Fitting.total_cons]
      omega

theorem linesBytes_concat (lines : List Text) (line : Text) : linesBytes (lines ++ [line]) =
    linesBytes lines + (utf8ByteLength line + if lines.length > 0 then 1 else 0) := by
  rw [linesBytes_eq, linesBytes_eq, Fitting.total_append, Fitting.total_cons, Fitting.total_nil]
  cases lines with
  | nil => rfl
  | cons first lines =>
    rw [if_pos (show (first :: lines).length > 0 from Nat.succ_pos _), Fitting.total_cons]
    omega

theorem linesBytes_reverse (lines : List Text) : linesBytes lines.reverse = linesBytes lines := by
  rw [linesBytes_eq, linesBytes_eq, Fitting.total, Fitting.total, List.map_reverse, List.sum_reverse]

theorem linesBytes_le_of_prefix (h : taken <+: lines) : linesBytes taken ≤ linesBytes lines := by
  obtain ⟨rest, rfl⟩ := h
  rw [linesBytes_eq, linesBytes_eq, Fitting.total_append]
  omega

/-! ## The lines of a content -/

/-- The lines, and a newline after the last one where the content ends with it. -/
theorem content_eq (content : Text) : content = List.intercalate [newline] (splitLinesForCounting content) ∨
    content = List.intercalate [newline] (splitLinesForCounting content) ++ [newline] := by
  rw [splitLinesForCounting]
  split
  next hnil =>
    left
    rw [hnil]
    rfl
  · split
    next hlast =>
      right
      obtain ⟨parts, last, hparts⟩ : ∃ parts last, List.splitOn newline content = parts ++ [last] :=
        ⟨_, _, (List.dropLast_append_getLast (List.splitOn_ne_nil newline content)).symm⟩
      have hcontent : List.intercalate [newline] (List.splitOn newline content) = content :=
        List.intercalate_splitOn newline
      have hnone : newline ∉ last := by
        apply Separated.not_mem_split newline content
        rw [hparts]
        exact List.mem_append_right _ List.mem_cons_self
      rw [hparts, List.dropLast_concat]
      rw [hparts] at hcontent
      by_cases hnil : parts = []
      · rw [hnil, List.nil_append, List.intercalate_singleton] at hcontent
        rw [hcontent] at hnone
        exact absurd (List.mem_of_getLast? hlast) hnone
      · rw [Separated.join_concat hnil] at hcontent
        rw [← hcontent, List.getLast?_append, List.getLast?_cons] at hlast
        cases hend : last.getLast? with
        | none =>
          rw [List.getLast?_eq_none_iff.mp hend] at hcontent
          exact hcontent.symm
        | some u =>
          rw [hend] at hlast
          obtain rfl : u = newline := Option.some.inj hlast
          exact absurd (List.mem_of_getLast? hend) hnone
    · left
      exact (List.intercalate_splitOn _).symm

theorem linesBytes_le_content (content : Text) :
    linesBytes (splitLinesForCounting content) ≤ utf8ByteLength content := by
  have hnewline := utf8ByteLength_newline (List.intercalate [newline] (splitLinesForCounting content)) []
  rcases content_eq content with heq | heq
  · conv_rhs => rw [heq]
    exact Nat.le_refl _
  · conv_rhs => rw [heq, hnewline]
    rw [linesBytes]
    omega

/-! ## Within the limits -/

/-- As many lines and bytes as may be shown. -/
def Fits (maxLines maxBytes : Nat) (lines : List Text) : Prop :=
  lines.length ≤ maxLines ∧ linesBytes lines ≤ maxBytes

/-- The content is shown as it is. -/
def Within (maxLines maxBytes : Nat) (content : Text) : Prop :=
  (splitLinesForCounting content).length ≤ maxLines ∧ utf8ByteLength content ≤ maxBytes

/-- Where and why a loop stopped. -/
structure Stopped (maxLines maxBytes : Nat) (walk taken : List Text) (truncatedBy : TruncatedBy) : Prop where
  fits : Fits maxLines maxBytes taken
  rest : ∃ rest, walk = taken ++ rest ∧
    match truncatedBy with
    | .lines => rest = [] ∨ taken.length = maxLines
    | .bytes => ∃ next more, rest = next :: more ∧ taken.length < maxLines ∧
        maxBytes < linesBytes (taken ++ [next])

namespace Stopped

variable {truncatedBy : TruncatedBy}

theorem prefix_walk (h : Stopped maxLines maxBytes walk taken truncatedBy) : taken <+: walk := by
  obtain ⟨rest, hrest, -⟩ := h.rest
  exact ⟨rest, hrest.symm⟩

theorem longest (h : Stopped maxLines maxBytes walk taken truncatedBy) {other : List Text} (hother : other <+: walk)
    (hfits : Fits maxLines maxBytes other) : other.length ≤ taken.length := by
  obtain ⟨rest, hwalk, hstop⟩ := h.rest
  cases truncatedBy with
  | lines =>
    rcases hstop with hnil | hlimit
    · rw [hnil, List.append_nil] at hwalk
      rw [← hwalk]
      exact hother.length_le
    · rw [hlimit]
      exact hfits.1
  | bytes =>
    obtain ⟨next, more, rfl, -, hlarge⟩ := hstop
    by_contra hlonger
    have htaken : taken ++ [next] <+: walk := ⟨more, by rw [hwalk, List.append_assoc]; rfl⟩
    have hpart : taken ++ [next] <+: other := by
      apply List.prefix_of_prefix_length_le htaken hother
      rw [List.length_append, List.length_singleton]
      omega
    have hle := linesBytes_le_of_prefix hpart
    have hbytes := hfits.2
    omega

end Stopped

/-! ## The loops -/

theorem collectHead_stopped (lines outputLinesArr : List Text) (hfits : Fits maxLines maxBytes outputLinesArr) :
    let collected := collectHead utf8ByteLength maxLines maxBytes outputLinesArr.length lines outputLinesArr
      (linesBytes outputLinesArr)
    Stopped maxLines maxBytes (outputLinesArr ++ lines) collected.outputLinesArr collected.truncatedBy ∧
      collected.outputBytesCount = linesBytes collected.outputLinesArr ∧ collected.lastLinePartial = false := by
  induction lines generalizing outputLinesArr with
  | nil => exact ⟨⟨hfits, [], rfl, .inl rfl⟩, rfl, rfl⟩
  | cons line lines ih =>
    rw [collectHead]
    split
    next hlines =>
      dsimp only
      rw [← linesBytes_concat]
      split
      next hlarge => exact ⟨⟨hfits, line :: lines, rfl, line, lines, rfl, hlines, hlarge⟩, rfl, rfl⟩
      next hsmall =>
        have hnext := ih (outputLinesArr ++ [line])
          ⟨by rw [List.length_append, List.length_singleton]; omega, Nat.not_lt.mp hsmall⟩
        rw [List.append_assoc, List.length_append] at hnext
        exact hnext
    next hlines =>
      exact ⟨⟨hfits, line :: lines, rfl, .inr (Nat.le_antisymm hfits.1 (Nat.not_lt.mp hlines))⟩, rfl, rfl⟩

/-- The lines are collected in their own order; `walk` is the lines from the last one on. -/
theorem collectTail_stopped (cut : Text → Nat → Text) (walk outputLinesArr : List Text)
    (hfits : Fits maxLines maxBytes outputLinesArr.reverse)
    (hlast : outputLinesArr = [] → ∀ last, walk.head? = some last → utf8ByteLength last ≤ maxBytes) :
    let collected := collectTail utf8ByteLength maxLines maxBytes cut walk outputLinesArr (linesBytes outputLinesArr)
    Stopped maxLines maxBytes (outputLinesArr.reverse ++ walk) collected.outputLinesArr.reverse collected.truncatedBy ∧
      collected.outputBytesCount = linesBytes collected.outputLinesArr ∧ collected.lastLinePartial = false := by
  induction walk generalizing outputLinesArr with
  | nil => exact ⟨⟨hfits, [], rfl, .inl rfl⟩, rfl, rfl⟩
  | cons line lines ih =>
    have hconcat : linesBytes outputLinesArr + (utf8ByteLength line + if outputLinesArr.length > 0 then 1 else 0) =
        linesBytes (outputLinesArr.reverse ++ [line]) := by
      rw [linesBytes_concat, linesBytes_reverse, List.length_reverse]
    have hcons : linesBytes (outputLinesArr.reverse ++ [line]) = linesBytes (line :: outputLinesArr) := by
      rw [← linesBytes_reverse, List.reverse_concat, List.reverse_reverse]
    rw [collectTail]
    split
    next hlines =>
      dsimp only
      rw [hconcat]
      split
      next hlarge =>
        split
        next hzero =>
          -- the first line of the walk fits
          have hnil := List.length_eq_zero_iff.mp hzero
          have hle := hlast hnil line rfl
          rw [hnil, List.reverse_nil, List.nil_append, linesBytes_singleton] at hlarge
          exact absurd hle (Nat.not_le.mpr hlarge)
        · rw [← List.length_reverse] at hlines
          exact ⟨⟨hfits, line :: lines, rfl, line, lines, rfl, hlines, hlarge⟩, rfl, rfl⟩
      next hsmall =>
        have hnext := ih (line :: outputLinesArr) ⟨by rw [List.length_reverse, List.length_cons]; omega,
            by rw [List.reverse_cons]; exact Nat.not_lt.mp hsmall⟩ nofun
        rw [List.reverse_cons, List.append_assoc, ← hcons] at hnext
        exact hnext
    next hlines =>
      have hlimit : outputLinesArr.reverse.length = maxLines := by
        apply Nat.le_antisymm hfits.1
        rw [List.length_reverse]
        exact Nat.not_lt.mp hlines
      exact ⟨⟨hfits, line :: lines, rfl, .inr hlimit⟩, rfl, rfl⟩

end Mcpi.Tools.Truncate
