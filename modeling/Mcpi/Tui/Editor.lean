import Mcpi.Tui.EditorText
import Mathlib.Data.List.Sort

/-!
# The editor

The state of `Editor` and its operations, those that a key runs and those that other code calls. A column is
an integer: nothing keeps the code from computing a negative one. Callbacks, the autocompletion list and
what `render` returns are left out.
-/

namespace Mcpi.Tui

open EditorText

/-! ## State -/

structure EditorState where
  lines : List Text
  cursorLine : Nat
  cursorCol : Int
  deriving DecidableEq

/-- `this.state.lines[this.state.cursorLine] || ""` -/
def EditorState.currentLine (s : EditorState) : Text := s.lines.getD s.cursorLine []

/-- The cursor is in the text, and no line contains a line break. -/
structure EditorState.Valid (s : EditorState) : Prop where
  line : s.cursorLine < s.lines.length
  clean : ∀ line ∈ s.lines, newline ∉ line
  nonneg : 0 ≤ s.cursorCol
  inLine : s.cursorCol ≤ s.currentLine.length

/-- Undo snapshot: editor text state plus the paste registry. -/
structure EditorSnapshot where
  state : EditorState
  pastes : List (Nat × Text)
  pasteCounter : Int
  deriving DecidableEq

inductive EditorAction
  | kill
  | yank
  | typeWord
  deriving DecidableEq

structure Editor where
  state : EditorState
  pastes : List (Nat × Text)
  pasteCounter : Int
  history : List Text
  historyIndex : Int
  historyDraft : Option EditorState
  killRing : List Text
  lastAction : Option EditorAction
  preferredVisualCol : Option Int
  snappedFromCursorCol : Option Int
  undoStack : List EditorSnapshot
  lastWidth : Nat
  deriving DecidableEq

/-! ## Text -/

namespace EditorText

/-- `text.slice(0, stop)` -/
def sliceTo (text : Text) (stop : Int) : Text :=
  if stop < 0 then text.take (text.length + stop).toNat else text.take stop.toNat

/-- `text.slice(start)` -/
def sliceFrom (text : Text) (start : Int) : Text :=
  if start < 0 then text.drop (text.length + start).toNat else text.drop start.toNat

/-- `text.split("\n")` -/
def splitLines : Text → List Text
  | [] => [[]]
  | u :: text =>
    if u = newline then [] :: splitLines text
    else
      match splitLines text with
      | [] => [[u]]
      | line :: lines => (u :: line) :: lines

/-- `normalizeText`: a carriage return, with a line feed or without, is a line feed, and a tab four spaces. -/
def normalizeFrom : (afterReturn : Bool) → Text → Text
  | _, [] => []
  | afterReturn, u :: text =>
    if u = 0x0d then newline :: normalizeFrom true text
    else if u = newline then
      if afterReturn then normalizeFrom false text else newline :: normalizeFrom false text
    else if u = 0x09 then units "    " ++ normalizeFrom false text
    else u :: normalizeFrom false text

def normalizeText (text : Text) : Text := normalizeFrom false text

/-- `\x1b\[(\d+);5u` at the head: what it stands for, and its length. -/
def controlMatch (text : Text) : Option (Text × Nat) :=
  if [StdinBuffer.esc, unit '['] <+: text then
    let digits := (text.drop 2).takeWhile StdinBuffer.isDigit
    if digits ≠ [] ∧ units ";5u" <+: text.drop (2 + digits.length) then
      let cp := number digits
      let length := 2 + digits.length + 3
      if 97 ≤ cp ∧ cp ≤ 122 then some ([UInt16.ofNat (cp - 96)], length)
      else if 65 ≤ cp ∧ cp ≤ 90 then some ([UInt16.ofNat (cp - 64)], length)
      else some (text.take length, length)
    else none
  else none

def decodeControls : (skip : Nat) → Text → Text
  | _, [] => []
  | skip + 1, _ :: text => decodeControls skip text
  | 0, u :: text =>
    match controlMatch (u :: text) with
    | some (decoded, length) => decoded ++ decodeControls (length - 1) text
    | none => u :: decodeControls 0 text

/-- `\w` -/
def isWordUnit (u : UInt16) : Bool :=
  StdinBuffer.isDigit u || (unit 'a' ≤ u && u ≤ unit 'z') || (unit 'A' ≤ u && u ≤ unit 'Z') || u = unit '_'

/-- `line.indexOf(char, searchFrom)` -/
def indexOf (line char : Text) (searchFrom : Int) : Option Nat :=
  (List.range (line.length + 1)).find? fun i => searchFrom ≤ i && decide (char <+: line.drop i)

/-- `line.lastIndexOf(char, searchFrom)` -/
def lastIndexOf (line char : Text) (searchFrom : Int) : Option Nat :=
  (List.range (line.length + 1)).reverse.find? fun i =>
    (i : Int) ≤ max searchFrom 0 && decide (char <+: line.drop i)

end EditorText

namespace Editor

def create : Editor :=
  { state := ⟨[[]], 0, 0⟩
    pastes := []
    pasteCounter := 0
    history := []
    historyIndex := -1
    historyDraft := none
    killRing := []
    lastAction := none
    preferredVisualCol := none
    snappedFromCursorCol := none
    undoStack := []
    lastWidth := 80 }

variable (p : Platform)

def graphemes (e : Editor) (text : Text) : List Segment :=
  segmentWithMarkers text p.graphemeSegmenter (e.pastes.map Prod.fst)

def words (e : Editor) (text : Text) : List Segment :=
  segmentWithMarkers text p.wordSegmenter (e.pastes.map Prod.fst)

/-! ## The common steps -/

def setCursorCol (e : Editor) (col : Int) : Editor :=
  { e with state.cursorCol := col, preferredVisualCol := none, snappedFromCursorCol := none }

def setLine (e : Editor) (line : Text) : Editor :=
  { e with state.lines := e.state.lines.set e.state.cursorLine line }

def exitHistoryBrowsing (e : Editor) : Editor := { e with historyIndex := -1, historyDraft := none }

def pushUndoSnapshot (e : Editor) : Editor :=
  { e with undoStack := ⟨e.state, e.pastes, e.pasteCounter⟩ :: e.undoStack }

def act (e : Editor) (action : Option EditorAction) : Editor := { e with lastAction := action }

/-- `KillRing.push` -/
def kill (e : Editor) (text : Text) (prepend accumulate : Bool) : Editor :=
  if text = [] then e
  else
    match accumulate, e.killRing.getLast? with
    | true, some last =>
      { e with killRing := e.killRing.dropLast ++ [if prepend then text ++ last else last ++ text] }
    | _, _ => { e with killRing := e.killRing ++ [text] }

/-- The line joins the one before it. -/
def joinPrevious (e : Editor) : Editor :=
  let previousLine := e.state.lines.getD (e.state.cursorLine - 1) []
  let lines := (e.state.lines.set (e.state.cursorLine - 1) (previousLine ++ e.state.currentLine)).eraseIdx
    e.state.cursorLine
  setCursorCol { e with state := { e.state with lines, cursorLine := e.state.cursorLine - 1 } }
    previousLine.length

/-- The line is joined by the one after it. -/
def joinNext (e : Editor) : Editor :=
  let nextLine := e.state.lines.getD (e.state.cursorLine + 1) []
  let lines := (e.state.lines.set e.state.cursorLine (e.state.currentLine ++ nextLine)).eraseIdx
    (e.state.cursorLine + 1)
  { e with state.lines := lines }

/-- Lines take the place of the current one; the cursor goes to a column of the last of them. -/
def replaceLine (e : Editor) (lines : List Text) (col : Int) : Editor :=
  setCursorCol
    { e with
      state.lines := e.state.lines.take e.state.cursorLine ++ lines ++ e.state.lines.drop (e.state.cursorLine + 1)
      state.cursorLine := e.state.cursorLine + (lines.length - 1) } col

/-- Lines of text go in at the cursor. -/
def insertLines (e : Editor) (insertedLines : List Text) : Editor :=
  let beforeCursor := sliceTo e.state.currentLine e.state.cursorCol
  let afterCursor := sliceFrom e.state.currentLine e.state.cursorCol
  match insertedLines with
  | [] => e
  | [line] => (e.setLine (beforeCursor ++ line ++ afterCursor)).setCursorCol (e.state.cursorCol + line.length)
  | first :: rest =>
    let last := rest.getLastD []
    e.replaceLine ((beforeCursor ++ first) :: rest.dropLast ++ [last ++ afterCursor]) last.length

def insertTextAtCursorInternal (e : Editor) (text : Text) : Editor :=
  if text = [] then e else e.insertLines (splitLines (normalizeText text))

/-- `setTextInternal` -/
def setTextInternal (e : Editor) (text : Text) (atStart : Bool) : Editor :=
  let lines := splitLines text
  if atStart then setCursorCol { e with state := { e.state with lines, cursorLine := 0 } } 0
  else
    setCursorCol { e with state := { e.state with lines, cursorLine := lines.length - 1 } }
      (lines.getD (lines.length - 1) []).length

/-- `getText` -/
def getText (e : Editor) : Text := List.intercalate [newline] e.state.lines

/-! ## Typing -/

def insertCharacter (e : Editor) (char : Text) : Editor :=
  let e := e.exitHistoryBrowsing
  let e := if isWhitespaceChar char ∨ e.lastAction ≠ some .typeWord then e.pushUndoSnapshot else e
  (e.act (some .typeWord)).insertLines [char]

def setPaste (pastes : List (Nat × Text)) (id : Nat) (content : Text) : List (Nat × Text) :=
  if id ∈ pastes.map Prod.fst then pastes.map fun paste => if paste.1 = id then (id, content) else paste
  else pastes ++ [(id, content)]

/-- The text that a paste stands for: control bytes decoded, other characters that do not print left out, and
a space before a path that follows a word. -/
def filteredText (e : Editor) (pastedText : Text) : Text :=
  let cleanText := normalizeText (decodeControls 0 pastedText)
  let filteredText := cleanText.filter fun u => u = newline || 32 ≤ u
  let isPath := filteredText.head?.any fun u => u ∈ units "/~."
  let charBeforeCursor :=
    if e.state.cursorCol > 0 then e.state.currentLine[(e.state.cursorCol - 1).toNat]? else none
  if isPath && charBeforeCursor.any isWordUnit then unit ' ' :: filteredText else filteredText

def handlePaste (e : Editor) (pastedText : Text) : Editor :=
  let e := (e.exitHistoryBrowsing.act none).pushUndoSnapshot
  let filteredText := e.filteredText pastedText
  let pastedLines := splitLines filteredText
  if pastedLines.length > 10 ∨ filteredText.length > 1000 then
    let pasteId := e.pasteCounter + 1
    let marker := units "[paste #" ++ units (toString pasteId) ++
      if pastedLines.length > 10 then units " +" ++ units (toString pastedLines.length) ++ units " lines]"
      else units " " ++ units (toString filteredText.length) ++ units " chars]"
    insertTextAtCursorInternal
      { e with pasteCounter := pasteId, pastes := setPaste e.pastes pasteId.toNat filteredText } marker
  else e.insertTextAtCursorInternal filteredText

def addNewLine (e : Editor) : Editor :=
  let e := (e.exitHistoryBrowsing.act none).pushUndoSnapshot
  e.replaceLine [sliceTo e.state.currentLine e.state.cursorCol, sliceFrom e.state.currentLine e.state.cursorCol] 0

def setText (e : Editor) (text : Text) : Editor :=
  let e := (e.act none).exitHistoryBrowsing
  let normalized := normalizeText text
  let e := if e.getText ≠ normalized then e.pushUndoSnapshot else e
  setTextInternal { e with pastes := [], pasteCounter := 0 } normalized false

def insertTextAtCursor (e : Editor) (text : Text) : Editor :=
  if text = [] then e
  else (e.pushUndoSnapshot.act none).exitHistoryBrowsing.insertTextAtCursorInternal text

def submitValue (e : Editor) : Editor :=
  let e := { e with state := ⟨[[]], 0, 0⟩, pastes := [], pasteCounter := 0 }
  act { e.exitHistoryBrowsing with undoStack := [] } none

/-! ## Deleting -/

/-- The replacement of a marker when another one is deleted; a marker without a suffix gets the text of
`undefined`. -/
def renumberMarker (targetId : Nat) (fullMatch : Text) (marker : MarkerMatch) : Text :=
  if marker.id ≤ targetId then fullMatch
  else
    let x := if marker.id ≤ 2 ^ 53 then units (toString (marker.id - 1)) else p.predecessor marker.id
    units "[paste #" ++ x ++ marker.suffix.getD (units "undefined") ++ [unit ']']

def renumberLine (targetId : Nat) (line : Text) : Text := replaceMarkers (renumberMarker p targetId) 0 line

/-- The ids above the deleted one move down, in ascending order. -/
def shiftPastes (pastes : List (Nat × Text)) (targetId : Nat) : List (Nat × Text) :=
  let pastes := pastes.filter fun paste => paste.1 ≠ targetId
  let higherIds := ((pastes.map Prod.fst).filter fun id => id > targetId).insertionSort (· ≤ ·)
  higherIds.foldl (fun pastes id =>
      let content := ((pastes.find? fun paste => paste.1 = id).map Prod.snd).getD []
      (setPaste pastes (id - 1) content).filter fun paste => paste.1 ≠ id)
    pastes

def removePaste (e : Editor) (targetId : Nat) : Editor :=
  { e with
    pastes := shiftPastes e.pastes targetId
    pasteCounter := e.pasteCounter - 1
    state.lines := e.state.lines.map (renumberLine p targetId) }

/-- The grapheme before the cursor. -/
def graphemeBefore (e : Editor) : Option Segment :=
  (e.graphemes p (sliceTo e.state.currentLine e.state.cursorCol)).getLast?

/-- The grapheme after the cursor. -/
def graphemeAfter (e : Editor) : Option Segment :=
  (e.graphemes p (sliceFrom e.state.currentLine e.state.cursorCol)).head?

def graphemeLength (grapheme : Option Segment) : Nat :=
  match grapheme with
  | some seg => seg.segment.length
  | none => 1

/-- A grapheme that is a marker takes its paste along. -/
def deleteMarker (e : Editor) (grapheme : Option Segment) : Editor :=
  match grapheme.bind fun seg => singleMarker seg.segment with
  | some marker => e.removePaste p marker.id
  | none => e

def handleBackspace (e : Editor) : Editor :=
  let e := e.exitHistoryBrowsing.act none
  if e.state.cursorCol > 0 then
    let lastGrapheme := e.graphemeBefore p
    let col := e.state.cursorCol
    let length := graphemeLength lastGrapheme
    let e := e.pushUndoSnapshot.deleteMarker p lastGrapheme
    let line := e.state.currentLine
    (e.setLine (sliceTo line (col - length) ++ sliceFrom line col)).setCursorCol (col - length)
  else if e.state.cursorLine > 0 then e.pushUndoSnapshot.joinPrevious
  else e

def handleForwardDelete (e : Editor) : Editor :=
  let e := e.exitHistoryBrowsing.act none
  if e.state.cursorCol < e.state.currentLine.length then
    let length := graphemeLength (e.graphemeAfter p)
    let line := e.state.currentLine
    e.pushUndoSnapshot.setLine (sliceTo line e.state.cursorCol ++ sliceFrom line (e.state.cursorCol + length))
  else if e.state.cursorLine < e.state.lines.length - 1 then e.pushUndoSnapshot.joinNext
  else e

def killed (e : Editor) (text : Text) (prepend : Bool) (wasKill : Bool) : Editor :=
  (e.kill text prepend wasKill).act (some .kill)

def deleteToStartOfLine (e : Editor) : Editor :=
  let e := e.exitHistoryBrowsing
  let wasKill := e.lastAction = some .kill
  if e.state.cursorCol > 0 then
    let line := e.state.currentLine
    let e := e.pushUndoSnapshot.killed (sliceTo line e.state.cursorCol) true wasKill
    (e.setLine (sliceFrom line e.state.cursorCol)).setCursorCol 0
  else if e.state.cursorLine > 0 then (e.pushUndoSnapshot.killed [newline] true wasKill).joinPrevious
  else e

def deleteToEndOfLine (e : Editor) : Editor :=
  let e := e.exitHistoryBrowsing
  let wasKill := e.lastAction = some .kill
  if e.state.cursorCol < e.state.currentLine.length then
    let line := e.state.currentLine
    let e := e.pushUndoSnapshot.killed (sliceFrom line e.state.cursorCol) false wasKill
    e.setLine (sliceTo line e.state.cursorCol)
  else if e.state.cursorLine < e.state.lines.length - 1 then
    (e.pushUndoSnapshot.killed [newline] false wasKill).joinNext
  else e

/-! ## Moving in a line -/

def moveToLineStart (e : Editor) : Editor := (e.act none).setCursorCol 0

def moveToLineEnd (e : Editor) : Editor := (e.act none).setCursorCol e.state.currentLine.length

/-- The cursor goes to the end of the line before. -/
def toPreviousLine (e : Editor) : Editor :=
  if e.state.cursorLine > 0 then
    setCursorCol { e with state.cursorLine := e.state.cursorLine - 1 }
      (e.state.lines.getD (e.state.cursorLine - 1) []).length
  else e

/-- The cursor goes to the start of the line after. -/
def toNextLine (e : Editor) : Editor :=
  if e.state.cursorLine < e.state.lines.length - 1 then
    setCursorCol { e with state.cursorLine := e.state.cursorLine + 1 } 0
  else e

def wordBackward (e : Editor) : Int :=
  findWordBackward (e.words p (sliceTo e.state.currentLine e.state.cursorCol)) e.state.cursorCol

def wordForward (e : Editor) : Int :=
  findWordForward (e.words p (sliceFrom e.state.currentLine e.state.cursorCol)) e.state.cursorCol
    e.state.currentLine.length

def moveWordBackwards (e : Editor) : Editor :=
  let e := e.act none
  if e.state.cursorCol = 0 then e.toPreviousLine else e.setCursorCol (e.wordBackward p)

def moveWordForwards (e : Editor) : Editor :=
  let e := e.act none
  if e.state.cursorCol ≥ e.state.currentLine.length then e.toNextLine else e.setCursorCol (e.wordForward p)

def deleteWordBackwards (e : Editor) : Editor :=
  let e := e.exitHistoryBrowsing
  let wasKill := e.lastAction = some .kill
  if e.state.cursorCol = 0 then
    if e.state.cursorLine > 0 then (e.pushUndoSnapshot.killed [newline] true wasKill).joinPrevious else e
  else
    let line := e.state.currentLine
    let oldCursorCol := e.state.cursorCol
    let deleteFrom := e.wordBackward p
    let e := e.pushUndoSnapshot.killed (sliceTo (sliceFrom line deleteFrom) (oldCursorCol - deleteFrom)) true wasKill
    (e.setLine (sliceTo line deleteFrom ++ sliceFrom line oldCursorCol)).setCursorCol deleteFrom

def deleteWordForward (e : Editor) : Editor :=
  let e := e.exitHistoryBrowsing
  let wasKill := e.lastAction = some .kill
  if e.state.cursorCol ≥ e.state.currentLine.length then
    if e.state.cursorLine < e.state.lines.length - 1 then
      (e.pushUndoSnapshot.killed [newline] false wasKill).joinNext
    else e
  else
    let line := e.state.currentLine
    let oldCursorCol := e.state.cursorCol
    let deleteTo := e.wordForward p
    let e := (e.pushUndoSnapshot.setCursorCol oldCursorCol).killed
      (sliceTo (sliceFrom line oldCursorCol) (deleteTo - oldCursorCol)) false wasKill
    e.setLine (sliceTo line oldCursorCol ++ sliceFrom line deleteTo)

/-- The lines that `jumpToChar` searches, in order. -/
def jumpLines (e : Editor) (forward : Bool) : List Nat :=
  if forward then (List.range e.state.lines.length).drop e.state.cursorLine
  else (List.range (e.state.cursorLine + 1)).reverse

def jumpTarget (e : Editor) (char : Text) (forward : Bool) (lineIdx : Nat) : Option (Nat × Nat) :=
  let line := e.state.lines.getD lineIdx []
  let isCurrentLine := lineIdx = e.state.cursorLine
  let idx :=
    if forward then indexOf line char (if isCurrentLine then e.state.cursorCol + 1 else 0)
    else lastIndexOf line char (if isCurrentLine then e.state.cursorCol - 1 else line.length)
  idx.map fun idx => (lineIdx, idx)

def jumpToChar (e : Editor) (char : Text) (forward : Bool) : Editor :=
  let e := e.act none
  match (e.jumpLines forward).findSome? (e.jumpTarget char forward) with
  | some (lineIdx, idx) => setCursorCol { e with state.cursorLine := lineIdx } idx
  | none => e

/-! ## Yanking -/

def insertYankedText (e : Editor) (text : Text) : Editor :=
  e.exitHistoryBrowsing.insertLines (splitLines text)

def yank (e : Editor) : Editor :=
  match e.killRing.getLast? with
  | none => e
  | some text => (e.pushUndoSnapshot.insertYankedText text).act (some .yank)

def deleteYankedText (e : Editor) (yankedText : Text) : Editor :=
  let yankLines := splitLines yankedText
  let afterCursor := sliceFrom e.state.currentLine e.state.cursorCol
  if yankLines.length = 1 then
    let col := e.state.cursorCol - yankedText.length
    (e.setLine (sliceTo e.state.currentLine col ++ afterCursor)).setCursorCol col
  else
    let startLine := e.state.cursorLine - (yankLines.length - 1)
    let startText := e.state.lines.getD startLine []
    let startCol : Int := startText.length - (yankLines.getD 0 []).length
    setCursorCol
      { e with
        state.lines := e.state.lines.take startLine ++ [sliceTo startText startCol ++ afterCursor] ++
          e.state.lines.drop (startLine + yankLines.length)
        state.cursorLine := startLine } startCol

/-- `KillRing.rotate` -/
def rotate (ring : List Text) : List Text :=
  match ring.getLast? with
  | some last => last :: ring.dropLast
  | none => ring

def yankPop (e : Editor) : Editor :=
  if e.lastAction ≠ some .yank ∨ e.killRing.length ≤ 1 then e
  else
    let e := e.pushUndoSnapshot.deleteYankedText (e.killRing.getLastD [])
    let e := { e with killRing := rotate e.killRing }
    (e.insertYankedText (e.killRing.getLastD [])).act (some .yank)

/-! ## History and undo -/

/-- `text.trim()` -/
def trim (text : Text) : Text := ((text.dropWhile isSpace).reverse.dropWhile isSpace).reverse

def addToHistory (e : Editor) (text : Text) : Editor :=
  let trimmed := trim text
  if trimmed = [] ∨ e.history.head? = some trimmed then e
  else { e with history := (trimmed :: e.history).take 100 }

/-- `navigateHistory`; upwards to what is older. -/
def navigateHistory (e : Editor) (up : Bool) : Editor :=
  let e := e.act none
  if e.history = [] then e
  else
    let newIndex := if up then e.historyIndex + 1 else e.historyIndex - 1
    if newIndex < -1 ∨ newIndex ≥ e.history.length then e
    else
      let e := if e.historyIndex = -1 ∧ newIndex ≥ 0 then
          { e.pushUndoSnapshot with historyDraft := some e.state }
        else e
      let e := { e with historyIndex := newIndex }
      if newIndex = -1 then
        match e.historyDraft with
        | some draft =>
          { e with
            historyDraft := none
            state := draft
            preferredVisualCol := none
            snappedFromCursorCol := none }
        | none => setTextInternal { e with historyDraft := none } [] false
      else e.setTextInternal (e.history.getD newIndex.toNat []) up

def undo (e : Editor) : Editor :=
  let e := e.exitHistoryBrowsing
  match e.undoStack with
  | [] => e
  | snapshot :: undoStack =>
    { e with
      undoStack
      state := snapshot.state
      pastes := snapshot.pastes
      pasteCounter := snapshot.pasteCounter
      lastAction := none
      preferredVisualCol := none }

/-! ## Visual lines -/

structure VisualLine where
  logicalLine : Nat
  startCol : Nat
  length : Nat
  deriving DecidableEq

/-- The visual lines of one line. -/
def visualLinesOf (stack : Nat) (e : Editor) (width i : Nat) (line : Text) : Option (List VisualLine) :=
  if line.length = 0 then some [⟨i, 0, 0⟩]
  else if p.visibleWidth line ≤ width then some [⟨i, 0, line.length⟩]
  else
    (wordWrapLine p stack line width (e.graphemes p line)).map fun chunks =>
      chunks.map fun chunk => ⟨i, chunk.startIndex, chunk.endIndex - chunk.startIndex⟩

def visualLinesFrom (stack : Nat) (e : Editor) (width : Nat) : Nat → List Text → Option (List VisualLine)
  | _, [] => some []
  | i, line :: lines => do
      let visualLines ← visualLinesOf p stack e width i line
      let rest ← visualLinesFrom stack e width (i + 1) lines
      return visualLines ++ rest

/-- `buildVisualLineMap`; `none` when the wrapping overflows the stack. -/
def buildVisualLineMap (stack : Nat) (e : Editor) (width : Nat) : Option (List VisualLine) :=
  visualLinesFrom p stack e width 0 e.state.lines

/-- No visual line of the same line follows. -/
def isLastSegment (vl : VisualLine) (rest : List VisualLine) : Bool :=
  rest.head?.all fun next => next.logicalLine ≠ vl.logicalLine

def holdsColumn (vl : VisualLine) (rest : List VisualLine) (col : Int) : Bool :=
  let offset := col - vl.startCol
  offset ≥ 0 && (offset < vl.length || (isLastSegment vl rest && offset = vl.length))

def findIn (line : Nat) (col : Int) : List VisualLine → Option Nat
  | [] => none
  | vl :: rest =>
    if vl.logicalLine = line ∧ holdsColumn vl rest col then some 0
    else (findIn line col rest).map (· + 1)

def findVisualLineAt (visualLines : List VisualLine) (line : Nat) (col : Int) : Nat :=
  (findIn line col visualLines).getD (visualLines.length - 1)

def findCurrentVisualLine (e : Editor) (visualLines : List VisualLine) : Nat :=
  findVisualLineAt visualLines e.state.cursorLine e.state.cursorCol

/-- The greatest column of a visual line: its end, or its last position if the line goes on. -/
def maxVisualCol (vl : VisualLine) (rest : List VisualLine) : Nat :=
  if isLastSegment vl rest then vl.length else vl.length - 1

/-- The new preferred column, and the column to move to. -/
def computeVerticalMoveColumn (preferredVisualCol : Option Int)
    (currentVisualCol sourceMaxVisualCol targetMaxVisualCol : Int) : Option Int × Int :=
  match preferredVisualCol with
  | some preferred =>
    if currentVisualCol < sourceMaxVisualCol then
      if targetMaxVisualCol < currentVisualCol then (some currentVisualCol, targetMaxVisualCol)
      else (none, currentVisualCol)
    else if targetMaxVisualCol < currentVisualCol ∨ targetMaxVisualCol < preferred then
      (some preferred, targetMaxVisualCol)
    else (none, preferred)
  | none =>
    if targetMaxVisualCol < currentVisualCol then (some currentVisualCol, targetMaxVisualCol)
    else (none, currentVisualCol)

/-- The column in the visual line the cursor is on. -/
def currentVisualCol (e : Editor) (visualLines : List VisualLine) (currentVL : VisualLine) : Int :=
  match e.snappedFromCursorCol with
  | some col =>
    let vl := visualLines.getD (findVisualLineAt visualLines currentVL.logicalLine col) ⟨0, 0, 0⟩
    col - vl.startCol
  | none => e.state.cursorCol - currentVL.startCol

/-- The cursor on a visual line, before it is snapped. -/
def landOn (e : Editor) (visualLines : List VisualLine) (currentVL : VisualLine) (sourceMaxVisualCol : Nat)
    (targetVL : VisualLine) (rest : List VisualLine) : Editor :=
  let move := computeVerticalMoveColumn e.preferredVisualCol (e.currentVisualCol visualLines currentVL)
    sourceMaxVisualCol (maxVisualCol targetVL rest)
  let logicalLine := e.state.lines.getD targetVL.logicalLine []
  { e with
    preferredVisualCol := move.1
    state.cursorLine := targetVL.logicalLine
    state.cursorCol := min (targetVL.startCol + move.2) logicalLine.length }

/-- The segment of more than one unit that the cursor is in. -/
def segmentAt (e : Editor) : Option Segment :=
  ((e.graphemes p e.state.currentLine).takeWhile fun seg => (seg.index : Int) ≤ e.state.cursorCol).find?
    fun seg => seg.segment.length > 1 && e.state.cursorCol < seg.index + seg.segment.length

def snapTo (e : Editor) (seg : Segment) : Editor :=
  { e with snappedFromCursorCol := some e.state.cursorCol, state.cursorCol := seg.index }

/-- `moveToVisualLine` on the visual lines from the target on. While `skip` is set the visual lines of that
line before that column are passed over; `none` is no visual line to land on. -/
def moveToVisualLine (visualLines : List VisualLine) (currentVL : VisualLine) (sourceMaxVisualCol : Nat)
    (isMovingDown : Bool) : (skip : Option (Nat × Nat)) → List VisualLine → Editor → Option Editor
  | _, [], _ => none
  | skip, targetVL :: rest, e =>
    if skip.any fun behind => targetVL.logicalLine = behind.1 && targetVL.startCol < behind.2 then
      moveToVisualLine visualLines currentVL sourceMaxVisualCol isMovingDown skip rest e
    else
      let e := e.landOn visualLines currentVL sourceMaxVisualCol targetVL rest
      match e.segmentAt p with
      | none => some { e with snappedFromCursorCol := none }
      | some seg =>
        let isContinuation := seg.index < targetVL.startCol
        if isContinuation && isMovingDown then
          let segEnd := seg.index + seg.segment.length
          some ((moveToVisualLine visualLines currentVL sourceMaxVisualCol isMovingDown
            (some (targetVL.logicalLine, segEnd)) rest e).getD (e.snapTo seg))
        else some (e.snapTo seg)

/-- The call of `moveToVisualLine` for two indexes. -/
def moveBetween (e : Editor) (visualLines : List VisualLine) (currentVisualLine targetVisualLine : Nat) :
    Editor :=
  match visualLines[currentVisualLine]? with
  | none => e
  | some currentVL =>
    let sourceMaxVisualCol := maxVisualCol currentVL (visualLines.drop (currentVisualLine + 1))
    (moveToVisualLine p visualLines currentVL sourceMaxVisualCol (currentVisualLine < targetVisualLine) none
      (visualLines.drop targetVisualLine) e).getD e

/-- `moveCursor` up or down -/
def moveVertically (stack : Nat) (e : Editor) (down : Bool) : Editor :=
  let e := e.act none
  match buildVisualLineMap p stack e e.lastWidth with
  | none => e
  | some visualLines =>
    let currentVisualLine := e.findCurrentVisualLine visualLines
    if down then
      if currentVisualLine + 1 < visualLines.length then
        e.moveBetween p visualLines currentVisualLine (currentVisualLine + 1)
      else e
    else if 0 < currentVisualLine then e.moveBetween p visualLines currentVisualLine (currentVisualLine - 1)
    else e

def pageScroll (stack : Nat) (e : Editor) (down : Bool) (pageSize : Nat) : Editor :=
  let e := e.act none
  match buildVisualLineMap p stack e e.lastWidth with
  | none => e
  | some visualLines =>
    let currentVisualLine := e.findCurrentVisualLine visualLines
    let targetVisualLine :=
      if down then min (visualLines.length - 1) (currentVisualLine + pageSize)
      else currentVisualLine - pageSize
    e.moveBetween p visualLines currentVisualLine targetVisualLine

/-- `moveCursor` to the right -/
def moveRight (stack : Nat) (e : Editor) : Editor :=
  let e := e.act none
  match buildVisualLineMap p stack e e.lastWidth with
  | none => e
  | some visualLines =>
    if e.state.cursorCol < e.state.currentLine.length then
      e.setCursorCol (e.state.cursorCol + graphemeLength (e.graphemeAfter p))
    else if e.state.cursorLine < e.state.lines.length - 1 then e.toNextLine
    else
      match visualLines[e.findCurrentVisualLine visualLines]? with
      | some currentVL => { e with preferredVisualCol := some (e.state.cursorCol - currentVL.startCol) }
      | none => e

/-- `moveCursor` to the left -/
def moveLeft (stack : Nat) (e : Editor) : Editor :=
  let e := e.act none
  match buildVisualLineMap p stack e e.lastWidth with
  | none => e
  | some _ =>
    if e.state.cursorCol > 0 then
      e.setCursorCol (e.state.cursorCol - graphemeLength (e.graphemeBefore p))
    else e.toPreviousLine

/-- The width that `render` wraps lines at. -/
def layoutWidth (width padding : Nat) : Nat :=
  let paddingX := min padding ((width - 1) / 2)
  let contentWidth := max 1 (width - paddingX * 2)
  max 1 (contentWidth - (if paddingX = 0 then 1 else 0))

end Editor

/-! ## Runs -/

/-- What the provider makes of the text for a completion. -/
abbrev Completion := EditorState → EditorState

/-- What happens to the editor. A character that is typed is no line break. -/
inductive EditorOperation
  | insertCharacter (char : Text) (single : newline ∉ char)
  | handlePaste (text : Text)
  | addNewLine
  | submitValue
  | undo
  | handleBackspace
  | handleForwardDelete
  | deleteToStartOfLine
  | deleteToEndOfLine
  | deleteWordBackwards
  | deleteWordForward
  | yank
  | yankPop
  | navigateHistory (up : Bool)
  | moveToLineStart
  | moveToLineEnd
  | moveWordBackwards
  | moveWordForwards
  | moveVertically (down : Bool)
  | moveLeft
  | moveRight
  | pageScroll (down : Bool) (pageSize : Nat)
  | jumpToChar (char : Text) (forward : Bool)
  | applyCompletion (completion : Completion)
  | setText (text : Text)
  | insertTextAtCursor (text : Text)
  | addToHistory (text : Text)
  | render (width padding : Nat)

namespace Editor

def applyCompletion (e : Editor) (completion : Completion) : Editor :=
  let e := e.pushUndoSnapshot.act none
  let state := completion e.state
  setCursorCol { e with state } state.cursorCol

def perform (p : Platform) (stack : Nat) (e : Editor) : EditorOperation → Editor
  | .insertCharacter char _ => e.insertCharacter char
  | .handlePaste text => e.handlePaste text
  | .addNewLine => e.addNewLine
  | .submitValue => e.submitValue
  | .undo => e.undo
  | .handleBackspace => e.handleBackspace p
  | .handleForwardDelete => e.handleForwardDelete p
  | .deleteToStartOfLine => e.deleteToStartOfLine
  | .deleteToEndOfLine => e.deleteToEndOfLine
  | .deleteWordBackwards => e.deleteWordBackwards p
  | .deleteWordForward => e.deleteWordForward p
  | .yank => e.yank
  | .yankPop => e.yankPop
  | .navigateHistory up => e.navigateHistory up
  | .moveToLineStart => e.moveToLineStart
  | .moveToLineEnd => e.moveToLineEnd
  | .moveWordBackwards => e.moveWordBackwards p
  | .moveWordForwards => e.moveWordForwards p
  | .moveVertically down => moveVertically p stack e down
  | .moveLeft => moveLeft p stack e
  | .moveRight => moveRight p stack e
  | .pageScroll down pageSize => pageScroll p stack e down pageSize
  | .jumpToChar char forward => e.jumpToChar char forward
  | .applyCompletion completion => e.applyCompletion completion
  | .setText text => e.setText text
  | .insertTextAtCursor text => e.insertTextAtCursor text
  | .addToHistory text => e.addToHistory text
  | .render width padding => { e with lastWidth := layoutWidth width padding }

end Editor

end Mcpi.Tui
