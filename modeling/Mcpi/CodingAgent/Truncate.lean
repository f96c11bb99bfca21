import Mcpi.Lib.Separated
import Mcpi.Lib.Utf8Tail

/-!
# Truncating output at its end

`truncateTail` keeps the last lines of a text that are within a number of lines and of bytes,
whichever limit is hit first. A last line that is too long is cut at its beginning.
-/

namespace Mcpi.CodingAgent

open Utf8 (byteLength)

/-! ## Limits -/

def DEFAULT_MAX_LINES : Nat := 2000

def DEFAULT_MAX_BYTES : Nat := 50 * 1024

inductive TruncatedBy where
  | lines
  | bytes
  deriving DecidableEq

structure TruncationResult where
  content : List Char
  truncated : Bool
  truncatedBy : Option TruncatedBy
  totalLines : Nat
  totalBytes : Nat
  outputLines : Nat
  outputBytes : Nat
  lastLinePartial : Bool
  firstLineExceedsLimit : Bool
  maxLines : Nat
  maxBytes : Nat
  deriving DecidableEq

/-- The limits, with their defaults filled in. -/
structure Limits where
  maxLines : Nat
  maxBytes : Nat
  deriving DecidableEq

/-- `options.maxLines ?? DEFAULT_MAX_LINES` and the same of `maxBytes`. -/
def Limits.ofOptions (maxLines maxBytes : Option Nat) : Limits :=
  ⟨maxLines.getD DEFAULT_MAX_LINES, maxBytes.getD DEFAULT_MAX_BYTES⟩

def endsWithNewline (content : List Char) : Bool := content.getLast? = some '\n'

def splitLinesForCounting (content : List Char) : List (List Char) :=
  if content = [] then []
  else if endsWithNewline content then (List.splitOn '\n' content).dropLast
  else List.splitOn '\n' content

def truncateStringToBytesFromEnd (str : List Char) (maxBytes : Nat) : List Char :=
  let buf := Utf8.encode str
  if buf.length ≤ maxBytes then str
  else Utf8.decode (buf.drop (Utf8.boundaryFrom buf (buf.length - maxBytes)))

/-! ## Collecting lines -/

/-- The variables of the loop of `truncateTail`. -/
structure Collected where
  outputLines : List (List Char)
  outputBytesCount : Nat
  truncatedBy : TruncatedBy
  lastLinePartial : Bool
  deriving DecidableEq

/-- The bytes of a line, with the newline that comes after it. -/
def lineBytes (outputLines : List (List Char)) (line : List Char) : Nat :=
  byteLength line + (if outputLines.isEmpty then 0 else 1)

/-- The loop, over the lines from the last one on. -/
def collectLines (limits : Limits) :
    List (List Char) → List (List Char) → Nat → Collected
  | [], outputLines, outputBytesCount => ⟨outputLines, outputBytesCount, .lines, false⟩
  | line :: rest, outputLines, outputBytesCount =>
    if outputLines.length < limits.maxLines then
      if outputBytesCount + lineBytes outputLines line > limits.maxBytes then
        if outputLines.isEmpty then
          let truncatedLine := truncateStringToBytesFromEnd line limits.maxBytes
          ⟨[truncatedLine], byteLength truncatedLine, .bytes, true⟩
        else ⟨outputLines, outputBytesCount, .bytes, false⟩
      else
        collectLines limits rest (line :: outputLines) (outputBytesCount + lineBytes outputLines line)
    else ⟨outputLines, outputBytesCount, .lines, false⟩

/-- If the line limit ended the loop. -/
def Collected.limitHit (collected : Collected) (limits : Limits) : TruncatedBy :=
  if collected.outputLines.length ≥ limits.maxLines ∧ collected.outputBytesCount ≤ limits.maxBytes then
    .lines
  else collected.truncatedBy

/-- The content is within both limits. -/
def Fits (limits : Limits) (content : List Char) : Prop :=
  (splitLinesForCounting content).length ≤ limits.maxLines ∧ byteLength content ≤ limits.maxBytes

instance (limits : Limits) (content : List Char) : Decidable (Fits limits content) :=
  inferInstanceAs (Decidable (_ ∧ _))

def truncateTail (content : List Char) (limits : Limits) : TruncationResult :=
  let totalBytes := byteLength content
  let lines := splitLinesForCounting content
  if Fits limits content then
    { content
      truncated := false
      truncatedBy := none
      totalLines := lines.length
      totalBytes
      outputLines := lines.length
      outputBytes := totalBytes
      lastLinePartial := false
      firstLineExceedsLimit := false
      maxLines := limits.maxLines
      maxBytes := limits.maxBytes }
  else
    let collected := collectLines limits lines.reverse [] 0
    let outputContent := List.intercalate ['\n'] collected.outputLines
    { content := outputContent
      truncated := true
      truncatedBy := some (collected.limitHit limits)
      totalLines := lines.length
      totalBytes
      outputLines := collected.outputLines.length
      outputBytes := byteLength outputContent
      lastLinePartial := collected.lastLinePartial
      firstLineExceedsLimit := false
      maxLines := limits.maxLines
      maxBytes := limits.maxBytes }

/-! ## Lines -/

section Lines

variable {content : List Char}

/-- The content without its last newline. -/
def chomp (content : List Char) : List Char :=
  if endsWithNewline content then content.dropLast else content

theorem endsWithNewline_iff : endsWithNewline content = true ↔ ∃ init, content = init ++ ['\n'] := by
  simp [endsWithNewline, List.getLast?_eq_some_iff]

/-- The lines are those of the content without its last newline. -/
theorem splitLines_chomp (hne : content ≠ []) : splitLinesForCounting content = List.splitOn '\n' (chomp content) := by
  unfold splitLinesForCounting chomp
  rw [if_neg hne]
  split
  next hends =>
    obtain ⟨init, rfl⟩ := endsWithNewline_iff.mp hends
    rw [List.splitOn_append_cons_self, List.splitOn_nil, List.dropLast_concat, List.dropLast_concat]
  · rfl

theorem splitLines_eq_nil : splitLinesForCounting content = [] ↔ content = [] := by
  constructor
  · intro h
    by_contra hne
    rw [splitLines_chomp hne] at h
    exact List.splitOn_ne_nil _ _ h
  · rintro rfl
    rfl

theorem join_splitLines (content : List Char) :
    List.intercalate ['\n'] (splitLinesForCounting content) = chomp content := by
  by_cases hne : content = []
  · subst hne
    rfl
  · rw [splitLines_chomp hne, List.intercalate_splitOn]

/-- The lines of a content in two parts, the first of which ends a line. -/
theorem splitLines_append {before : List Char} (hends : endsWithNewline before = true) (content : List Char) :
    splitLinesForCounting (before ++ content) = splitLinesForCounting before ++ splitLinesForCounting content := by
  obtain ⟨init, rfl⟩ := endsWithNewline_iff.mp hends
  by_cases hne : content = []
  · subst hne
    rw [List.append_nil]
    show _ = _ ++ []
    rw [List.append_nil]
  · have hwhole : init ++ ['\n'] ++ content ≠ [] := by simp
    have hinit : init ++ ['\n'] ≠ [] := by simp
    have hchomp : chomp (init ++ ['\n'] ++ content) = init ++ '\n' :: chomp content := by
      have hlast : endsWithNewline (init ++ ['\n'] ++ content) = endsWithNewline content := by
        unfold endsWithNewline
        rw [List.getLast?_append_of_ne_nil _ hne]
      unfold chomp
      rw [hlast]
      split
      · rw [List.dropLast_append_of_ne_nil hne, List.append_assoc]
        rfl
      · rw [List.append_assoc]
        rfl
    have hchomp' : chomp (init ++ ['\n']) = init := by
      unfold chomp
      rw [if_pos hends, List.dropLast_concat]
    rw [splitLines_chomp hwhole, splitLines_chomp hinit, splitLines_chomp hne, hchomp, hchomp',
      List.splitOn_append_cons_self]

/-- The bytes of a content are those of its lines with a newline between them, and its last one. -/
theorem byteLength_chomp (content : List Char) :
    byteLength content = byteLength (chomp content) + (if endsWithNewline content then 1 else 0) := by
  unfold chomp
  split
  next hends =>
    obtain ⟨init, rfl⟩ := endsWithNewline_iff.mp hends
    rw [List.dropLast_concat, Utf8.byteLength_append]
    rfl
  · rfl

end Lines

end Mcpi.CodingAgent
