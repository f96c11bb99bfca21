import Mcpi.Tui.Screen

/-!
# The main screen renderer

`TuiMainScreen.doRender`: the first frame and those after a resize are written whole, the others as
the difference to the frame before, by cursor moves that are relative to the tracked cursor.
-/

namespace Mcpi.Tui

/-- `TuiMainScreen` and its terminal. `cursorPos` records where the marker of the last frame was found. -/
structure MainScreen where
  previousLines : List Line
  previousWidth : Nat
  previousHeight : Nat
  previousViewportTop : Nat
  cursorRow : Nat
  hardwareCursorRow : Nat
  maxLinesRendered : Nat
  terminal : Screen
  cursorPos : Option (Nat × Nat)

namespace MainScreen

/-! ## Placing the cursor -/

def create (size : Size) : MainScreen :=
  { previousLines := []
    previousWidth := 0
    previousHeight := 0
    previousViewportTop := 0
    cursorRow := 0
    hardwareCursorRow := 0
    maxLinesRendered := 0
    terminal := .blank size.columns size.rows
    cursorPos := none }

/-- `extractCursorPosition`: the last line with a marker among the last `height` lines, and the lines
without that marker. -/
def extractCursorPosition (lines : List Line) (height : Nat) : Option (Nat × Nat) × List Line :=
  match (List.range lines.length).reverse.find? fun row =>
      lines.length - height ≤ row && (lines[row]?.bind Line.marker).isSome with
  | none => (none, lines)
  | some row =>
    ((lines[row]?.bind Line.marker).map fun col => (row, col),
      lines.modify row fun line => { line with marker := none })

/-- `positionHardwareCursor` -/
def positionHardwareCursor (tui : MainScreen) (cursorPos : Option (Nat × Nat)) (totalLines : Nat) :
    MainScreen :=
  match cursorPos with
  | none => tui
  | some (row, col) =>
    if totalLines = 0 then tui
    else
      let targetRow := min row (totalLines - 1)
      let rowDelta : Int := targetRow - tui.hardwareCursorRow
      { tui with
        terminal := (tui.terminal.moveBy rowDelta).cursorColumn col
        hardwareCursorRow := targetRow }

/-! ## Painting -/

/-- Write lines one below the other, over erased rows if `erase` is set. -/
def paint (erase : Bool) (s : Screen) : List Line → Screen
  | [] => s
  | line :: rest =>
    rest.foldl (fun s line => ((if erase then s.newLine.eraseLine else s.newLine).write line))
      ((if erase then s.eraseLine else s).write line)

/-- `fullRender` -/
def fullRender (tui : MainScreen) (clear : Bool) (newLines : List Line) (cursorPos : Option (Nat × Nat)) : MainScreen :=
  let height := tui.terminal.rows
  let cursorRow := newLines.length - 1
  let tui :=
    { tui with
      terminal := paint false (if clear then tui.terminal.clear else tui.terminal) newLines
      cursorRow
      hardwareCursorRow := cursorRow
      maxLinesRendered := if clear then newLines.length else max tui.maxLinesRendered newLines.length
      previousViewportTop := max height newLines.length - height }
  { tui.positionHardwareCursor cursorPos newLines.length with
    previousLines := newLines
    previousWidth := tui.terminal.columns
    previousHeight := height }

/-- A line differs from the one before. A line is never empty once it has its reset, so a line that is
not there is not one. -/
def changed (previousLines newLines : List Line) (i : Nat) : Bool := previousLines[i]? ≠ newLines[i]?

/-- The first and the last changed line. -/
def changedRange (previousLines newLines : List Line) : Option (Nat × Nat) :=
  let rows := List.range (max newLines.length previousLines.length)
  let firstChanged := rows.find? (changed previousLines newLines)
  let lastChanged := rows.reverse.find? (changed previousLines newLines)
  if newLines.length > previousLines.length then
    some (firstChanged.getD previousLines.length, newLines.length - 1)
  else firstChanged.map fun first => (first, lastChanged.getD first)

/-- Erase rows, each below the one before, without scrolling. -/
def clearRows (s : Screen) : Nat → Screen
  | 0 => s
  | 1 => s.carriageReturn.eraseLine
  | n + 2 => clearRows (s.carriageReturn.eraseLine.cursorDown 1) (n + 1)

/-- Erase rows below the cursor. -/
def clearBelow (s : Screen) : Nat → Screen
  | 0 => s
  | n + 1 => clearBelow s.newLine.eraseLine n

def newLines (s : Screen) : Nat → Screen
  | 0 => s
  | n + 1 => newLines s.newLine n

/-- All changes are in deleted lines. -/
def renderDeleted (tui : MainScreen) (lines : List Line) (cursorPos : Option (Nat × Nat)) : MainScreen :=
  let height := tui.terminal.rows
  let extraLines := tui.previousLines.length - lines.length
  let targetRow := lines.length - 1
  if tui.previousLines.length > lines.length then
    if targetRow < tui.previousViewportTop then tui.fullRender true lines cursorPos
    else if extraLines > height then tui.fullRender true lines cursorPos
    else
      let lineDiff : Int := targetRow - tui.hardwareCursorRow
      let clearStartOffset := if lines.length = 0 then 0 else 1
      let s := (tui.terminal.moveBy lineDiff).carriageReturn
      let s := if clearStartOffset > 0 then s.cursorDown clearStartOffset else s
      let s := clearRows s extraLines
      let s := s.cursorUp (extraLines - 1 + clearStartOffset)
      let tui := { tui with terminal := s, cursorRow := targetRow, hardwareCursorRow := targetRow }
      { tui.positionHardwareCursor cursorPos lines.length with
        previousLines := lines
        previousWidth := tui.terminal.columns
        previousHeight := height }
  else
    { tui.positionHardwareCursor cursorPos lines.length with
      previousLines := lines
      previousWidth := tui.terminal.columns
      previousHeight := height }

/-- From the first changed line to the last one. -/
def renderChanged (tui : MainScreen) (lines : List Line) (cursorPos : Option (Nat × Nat))
    (firstChanged lastChanged : Nat) (appendStart : Bool) : MainScreen :=
  let height := tui.terminal.rows
  let prevViewportBottom := tui.previousViewportTop + height - 1
  let moveTargetRow := if appendStart then firstChanged - 1 else firstChanged
  let (s, viewportTop, hardwareCursorRow) :=
    if moveTargetRow > prevViewportBottom then
      let currentScreenRow :=
        max 0 (min ((height : Int) - 1) (tui.hardwareCursorRow - tui.previousViewportTop))
      let s := tui.terminal.moveBy ((height : Int) - 1 - currentScreenRow)
      let scroll := moveTargetRow - prevViewportBottom
      (newLines s scroll, tui.previousViewportTop + scroll, moveTargetRow)
    else (tui.terminal, tui.previousViewportTop, tui.hardwareCursorRow)
  let lineDiff : Int := moveTargetRow - hardwareCursorRow
  let s := s.moveBy lineDiff
  let s := if appendStart then s.newLine else s.carriageReturn
  let renderEnd := min lastChanged (lines.length - 1)
  let s := paint true s ((lines.take (renderEnd + 1)).drop firstChanged)
  let (s, finalCursorRow) :=
    if tui.previousLines.length > lines.length then
      let moveDown := lines.length - 1 - renderEnd
      let s := if moveDown > 0 then s.cursorDown moveDown else s
      let extraLines := tui.previousLines.length - lines.length
      ((clearBelow s extraLines).cursorUp extraLines, max renderEnd (lines.length - 1))
    else (s, renderEnd)
  let tui :=
    { tui with
      terminal := s
      cursorRow := lines.length - 1
      hardwareCursorRow := finalCursorRow
      maxLinesRendered := max tui.maxLinesRendered lines.length
      previousViewportTop := max viewportTop (finalCursorRow + 1 - height) }
  { tui.positionHardwareCursor cursorPos lines.length with
    previousLines := lines
    previousWidth := tui.terminal.columns
    previousHeight := height }

/-- `doRender`, without overlays, `clearOnShrink` and images, for lines that fit the width. -/
def doRender (tui : MainScreen) (rendered : List Line) : MainScreen :=
  let width := tui.terminal.columns
  let height := tui.terminal.rows
  let widthChanged := tui.previousWidth ≠ 0 ∧ tui.previousWidth ≠ width
  let heightChanged := tui.previousHeight ≠ 0 ∧ tui.previousHeight ≠ height
  let (cursorPos, lines) := extractCursorPosition rendered height
  let tui := { tui with cursorPos }
  if tui.previousLines.length = 0 ∧ ¬ widthChanged ∧ ¬ heightChanged then
    tui.fullRender false lines cursorPos
  else if widthChanged ∨ heightChanged then tui.fullRender true lines cursorPos
  else
    match changedRange tui.previousLines lines with
    | none =>
      { tui.positionHardwareCursor cursorPos lines.length with previousHeight := height }
    | some (firstChanged, lastChanged) =>
      if firstChanged ≥ lines.length then tui.renderDeleted lines cursorPos
      else if firstChanged < tui.previousViewportTop then tui.fullRender true lines cursorPos
      else
        tui.renderChanged lines cursorPos firstChanged lastChanged
          (lines.length > tui.previousLines.length ∧ firstChanged = tui.previousLines.length ∧
            firstChanged > 0)

end MainScreen

/-! ## Frames -/

/-- A frame: the size of the terminal, its lines, and what a resize has made of the screen. -/
structure Frame where
  size : Size
  lines : List Line
  reflowed : Screen
  fits : ∀ line ∈ lines, line.width ≤ size.columns

/-- A resize, if there is one, leaves anything on the screen. Before the first frame the screen is clean. -/
def MainScreen.resized (tui : MainScreen) (frame : Frame) : MainScreen :=
  if frame.size.columns = tui.terminal.columns ∧ frame.size.rows = tui.terminal.rows then tui
  else if tui.previousHeight = 0 then
    { tui with terminal := .blank frame.size.columns frame.size.rows }
  else
    { tui with
      terminal := { frame.reflowed with columns := frame.size.columns, rows := frame.size.rows } }

/-- A resize, if there is one, and the frame after it. -/
def MainScreen.frame (tui : MainScreen) (frame : Frame) : MainScreen :=
  (tui.resized frame).doRender frame.lines

end Mcpi.Tui
