/-!
# The terminal

A screen of some columns and rows with a cursor. A row is what has been written to it since it was
erased, each part with the column where it starts: it shows a line if that is all that has been written.
-/

namespace Mcpi.Tui

/-- A rendered line, with its visible width. `marker` is the column of the cursor marker, if it has one. -/
structure Line where
  text : String
  width : Nat
  marker : Option Nat
  deriving DecidableEq

abbrev Row := List (Nat × Line)

/-- The size of a terminal. -/
structure Size where
  columns : Nat
  rows : Nat
  columns_pos : 0 < columns
  rows_pos : 0 < rows

structure Screen where
  columns : Nat
  rows : Nat
  content : Nat → Row
  row : Nat
  column : Nat

namespace Screen

def blank (columns rows : Nat) : Screen := ⟨columns, rows, fun _ => [], 0, 0⟩

/-- `\r` -/
def carriageReturn (s : Screen) : Screen := { s with column := 0 }

/-- `\n`, which scrolls at the bottom row -/
def lineFeed (s : Screen) : Screen :=
  if s.row + 1 < s.rows then { s with row := s.row + 1 }
  else { s with content := fun j => if j + 1 < s.rows then s.content (j + 1) else [] }

/-- `\r\n` -/
def newLine (s : Screen) : Screen := s.carriageReturn.lineFeed

/-- `\x1b[nB` -/
def cursorDown (s : Screen) (n : Nat) : Screen := { s with row := min (s.rows - 1) (s.row + n) }

/-- `\x1b[nA` -/
def cursorUp (s : Screen) (n : Nat) : Screen := { s with row := s.row - n }

/-- Down or up by a difference of rows. -/
def moveBy (s : Screen) (lineDiff : Int) : Screen :=
  if lineDiff > 0 then s.cursorDown lineDiff.toNat
  else if lineDiff < 0 then s.cursorUp (-lineDiff).toNat
  else s

/-- `\x1b[nG`, counted from 0 -/
def cursorColumn (s : Screen) (n : Nat) : Screen := { s with column := min n (s.columns - 1) }

/-- `\x1b[2K` -/
def eraseLine (s : Screen) : Screen :=
  { s with content := fun j => if j = s.row then [] else s.content j }

def write (s : Screen) (line : Line) : Screen :=
  { s with
    content := fun j => if j = s.row then s.content j ++ [(s.column, line)] else s.content j
    column := s.column + line.width }

/-- `\x1b[2J\x1b[H\x1b[3J` -/
def clear (s : Screen) : Screen := { s with content := fun _ => [], row := 0, column := 0 }

/-! ## The size of the screen

Nothing that is written changes it.
-/

def size (s : Screen) : Nat × Nat := (s.columns, s.rows)

variable {s : Screen} {n : Nat}

@[simp] theorem size_carriageReturn : s.carriageReturn.size = s.size := rfl

@[simp] theorem size_newLine : s.newLine.size = s.size := by
  unfold newLine lineFeed
  split <;> rfl

@[simp] theorem size_cursorDown : (s.cursorDown n).size = s.size := rfl

@[simp] theorem size_cursorUp : (s.cursorUp n).size = s.size := rfl

@[simp] theorem size_moveBy {lineDiff : Int} : (s.moveBy lineDiff).size = s.size := by
  unfold moveBy
  split
  · rfl
  · split <;> rfl

@[simp] theorem size_cursorColumn : (s.cursorColumn n).size = s.size := rfl

@[simp] theorem size_eraseLine : s.eraseLine.size = s.size := rfl

@[simp] theorem size_write {line : Line} : (s.write line).size = s.size := rfl

@[simp] theorem size_clear : s.clear.size = s.size := rfl

end Screen

end Mcpi.Tui
