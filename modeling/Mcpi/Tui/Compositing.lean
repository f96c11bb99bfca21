import Mcpi.Lib.Cells

/-!
# Compositing lines

`compositeTuiLine` and the slicing of lines by columns. A line is what the slicing loops read:
escape codes, and the graphemes of the texts between them. Segmentation and the widths of the
graphemes are given.
-/

namespace Mcpi.Tui

/-- What a line has at a place: what `extractAnsiCode` returns, or a segment of a text. -/
inductive Token (κ γ : Type) where
  | ansi (code : κ)
  | grapheme (segment : γ)
  deriving DecidableEq

/-- The functions on lines that are given: the width of a grapheme, the blank, the codes that are
active after some codes (`AnsiCodeTracker`), and which lines are images. -/
structure LineFunctions (κ γ : Type) where
  graphemeWidth : γ → Nat
  blank : γ
  graphemeWidth_blank : graphemeWidth blank = 1
  getActiveCodes : List κ → List κ
  isImageLine : List (Token κ γ) → Bool
  SEGMENT_RESET : List κ

variable {κ γ : Type} (f : LineFunctions κ γ)

def codes (codes : List κ) : List (Token κ γ) := codes.map .ansi

/-- `" ".repeat(n)` -/
def spaces (n : Nat) : List (Token κ γ) := List.replicate n (.grapheme f.blank)

/-- The text of a line without its codes. -/
def graphemes (line : List (Token κ γ)) : List γ :=
  line.filterMap fun
    | .ansi _ => none
    | .grapheme segment => some segment

def visibleWidth (line : List (Token κ γ)) : Nat := Cells.widthOf f.graphemeWidth (graphemes line)

/-! ## `sliceWithWidth` -/

structure Slice (κ γ : Type) where
  result : List (Token κ γ)
  resultWidth : Nat
  currentCol : Nat
  pendingAnsi : List κ
  deriving DecidableEq

/-- A code of the line. -/
def Slice.ansi (startCol endCol : Nat) (slice : Slice κ γ) (code : κ) : Slice κ γ :=
  if slice.currentCol ≥ startCol && slice.currentCol < endCol then
    { slice with result := slice.result ++ [.ansi code] }
  else if slice.currentCol < startCol then
    { slice with pendingAnsi := slice.pendingAnsi ++ [code] }
  else slice

/-- A grapheme of the line. -/
def Slice.grapheme (startCol endCol : Nat) (strict : Bool) (slice : Slice κ γ) (segment : γ) : Slice κ γ :=
  let w := f.graphemeWidth segment
  let inRange := slice.currentCol ≥ startCol && slice.currentCol < endCol
  let fits := !strict || slice.currentCol + w ≤ endCol
  let slice :=
    if inRange && fits then
      { slice with
        result := slice.result ++ codes slice.pendingAnsi ++ [.grapheme segment]
        pendingAnsi := []
        resultWidth := slice.resultWidth + w }
    else slice
  { slice with currentCol := slice.currentCol + w }

/-- The loop over a line. -/
def sliceLoop (startCol endCol : Nat) (strict : Bool) (slice : Slice κ γ) :
    List (Token κ γ) → Slice κ γ
  | [] => slice
  | .ansi code :: line => sliceLoop startCol endCol strict (slice.ansi startCol endCol code) line
  | .grapheme segment :: line =>
    let slice := slice.grapheme f startCol endCol strict segment
    if slice.currentCol ≥ endCol then slice else sliceLoop startCol endCol strict slice line

/-- The text and its width. -/
def sliceWithWidth (line : List (Token κ γ)) (startCol length : Nat) (strict : Bool) : List (Token κ γ) × Nat :=
  if length = 0 then ([], 0)
  else
    let slice := sliceLoop f startCol (startCol + length) strict ⟨[], 0, 0, []⟩ line
    (slice.result, slice.resultWidth)

def sliceByColumn (line : List (Token κ γ)) (startCol length : Nat) (strict : Bool) : List (Token κ γ) :=
  (sliceWithWidth f line startCol length strict).1

/-! ## `extractSegments` -/

/-- `processed` is what the style tracker has processed. -/
structure Segments (κ γ : Type) where
  before : List (Token κ γ)
  beforeWidth : Nat
  after : List (Token κ γ)
  afterWidth : Nat
  currentCol : Nat
  pendingAnsiBefore : List κ
  afterStarted : Bool
  processed : List κ
  deriving DecidableEq

/-- The range of columns that come before and the range of those that come after. -/
structure SegmentRange where
  beforeEnd : Nat
  afterStart : Nat
  afterLen : Nat
  strictAfter : Bool
  deriving DecidableEq

def SegmentRange.afterEnd (range : SegmentRange) : Nat := range.afterStart + range.afterLen

/-- Done with "before" only, or done with both segments. -/
def SegmentRange.isDone (range : SegmentRange) (currentCol : Nat) : Bool :=
  if range.afterLen = 0 then currentCol ≥ range.beforeEnd else currentCol ≥ range.afterEnd

/-- A code of the line. -/
def Segments.ansi (range : SegmentRange) (segments : Segments κ γ) (code : κ) : Segments κ γ :=
  let segments := { segments with processed := segments.processed ++ [code] }
  if segments.currentCol < range.beforeEnd then
    { segments with pendingAnsiBefore := segments.pendingAnsiBefore ++ [code] }
  else if segments.currentCol ≥ range.afterStart && segments.currentCol < range.afterEnd && segments.afterStarted then
    { segments with after := segments.after ++ [.ansi code] }
  else segments

/-- A grapheme of the line. -/
def Segments.grapheme (range : SegmentRange) (segments : Segments κ γ) (segment : γ) : Segments κ γ :=
  let w := f.graphemeWidth segment
  let segments :=
    if segments.currentCol < range.beforeEnd && segments.currentCol + w ≤ range.beforeEnd then
      { segments with
        before := segments.before ++ codes segments.pendingAnsiBefore ++ [.grapheme segment]
        pendingAnsiBefore := []
        beforeWidth := segments.beforeWidth + w }
    else if segments.currentCol ≥ range.afterStart && segments.currentCol < range.afterEnd then
      if !range.strictAfter || segments.currentCol + w ≤ range.afterEnd then
        -- the first grapheme after the overlay comes with the styling from before it
        let inherited := if segments.afterStarted then [] else f.getActiveCodes segments.processed
        { segments with
          after := segments.after ++ codes inherited ++ [.grapheme segment]
          afterStarted := true
          afterWidth := segments.afterWidth + w }
      else segments
    else segments
  { segments with currentCol := segments.currentCol + w }

def segmentsLoop (range : SegmentRange) (segments : Segments κ γ) : List (Token κ γ) → Segments κ γ
  | [] => segments
  | .ansi code :: line => segmentsLoop range (segments.ansi range code) line
  | .grapheme segment :: line =>
    let segments := segments.grapheme f range segment
    if range.isDone segments.currentCol then segments else segmentsLoop range segments line

def extractSegments (line : List (Token κ γ)) (beforeEnd afterStart afterLen : Nat)
    (strictAfter : Bool) : Segments κ γ :=
  segmentsLoop f ⟨beforeEnd, afterStart, afterLen, strictAfter⟩ ⟨[], 0, [], 0, 0, [], false, []⟩ line

/-! ## `compositeTuiLine` -/

/-- Composite overlay content into a terminal line at a fixed column. -/
def compositeTuiLine (baseLine overlayLine : List (Token κ γ))
    (startCol overlayWidth totalWidth : Nat) : List (Token κ γ) :=
  if f.isImageLine baseLine then baseLine
  else
    let afterStart := startCol + overlayWidth
    let base := extractSegments f baseLine startCol afterStart (totalWidth - afterStart) true
    let overlay := sliceWithWidth f overlayLine 0 overlayWidth true
    let beforePad := startCol - base.beforeWidth
    let overlayPad := overlayWidth - overlay.2
    let actualBeforeWidth := max startCol base.beforeWidth
    let actualOverlayWidth := max overlayWidth overlay.2
    let afterTarget := totalWidth - actualBeforeWidth - actualOverlayWidth
    let afterPad := afterTarget - base.afterWidth
    let result := base.before ++ spaces f beforePad ++ codes f.SEGMENT_RESET ++
      overlay.1 ++ spaces f overlayPad ++ codes f.SEGMENT_RESET ++ base.after ++ spaces f afterPad
    if visibleWidth f result ≤ totalWidth then result else sliceByColumn f result 0 totalWidth true

end Mcpi.Tui
