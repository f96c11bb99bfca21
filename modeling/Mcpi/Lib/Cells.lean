import Mathlib.Algebra.Ring.Nat
import Mathlib.Data.List.Range
import Mathlib.Data.List.Basic

/-!
# Cells of a text

A text of graphemes each some columns wide, shown in a row of cells: a grapheme shows in as many
cells as it is wide. A text that is cut to a range of columns shows what lies within the range, and
blanks for a grapheme that an edge of the range cuts.
-/

namespace Cells

variable {γ : Type*} (width : γ → ℕ)

/-- A grapheme and which of its columns. -/
abbrev Cell (γ : Type*) := γ × ℕ

/-- The cells of a grapheme. -/
def cellsOf (g : γ) : List (Cell γ) := (List.range (width g)).map fun k => (g, k)

/-- The cells of a text, column by column. -/
def cells (text : List γ) : List (Cell γ) := text.flatMap (cellsOf width)

/-- The width of a text. -/
def widthOf (text : List γ) : ℕ := (text.map width).sum

/-- What a text shows in a column, cut to the columns from `lo` up to `hi`. -/
def shows (blank : γ) (lo hi : ℕ) (text : List γ) (column : ℕ) : Cell γ :=
  match (cells width text)[column]? with
  | some (g, k) => if lo ≤ column - k ∧ column - k + width g ≤ hi then (g, k) else (blank, 0)
  | none => (blank, 0)

/-- The graphemes of a text from `column` on that end before `hi`. -/
def fitting (hi : ℕ) : ℕ → List γ → List γ
  | _, [] => []
  | column, g :: text =>
    if column < hi ∧ column + width g ≤ hi then g :: fitting hi (column + width g) text
    else fitting hi (column + width g) text

/-- The column at which the first grapheme starts that starts at `lo` or later, and the text from
it on. -/
def dropTo (lo : ℕ) : ℕ → List γ → ℕ × List γ
  | column, [] => (max lo column, [])
  | column, g :: text =>
    if lo ≤ column then (column, g :: text) else dropTo lo (column + width g) text

variable {width} {blank g : γ} {lo hi column : ℕ} {text : List γ}

@[simp] theorem length_cellsOf (g : γ) : (cellsOf width g).length = width g := by
  rw [cellsOf, List.length_map, List.length_range]

@[simp] theorem cells_nil : cells width ([] : List γ) = [] := rfl

@[simp] theorem cells_cons (g : γ) (text : List γ) :
    cells width (g :: text) = cellsOf width g ++ cells width text := List.flatMap_cons

@[simp] theorem cells_append (a b : List γ) : cells width (a ++ b) = cells width a ++ cells width b :=
  List.flatMap_append

@[simp] theorem widthOf_nil : widthOf width ([] : List γ) = 0 := rfl

@[simp] theorem widthOf_cons (g : γ) (text : List γ) : widthOf width (g :: text) = width g + widthOf width text := by
  rw [widthOf, List.map_cons, List.sum_cons]
  rfl

@[simp] theorem widthOf_append (a b : List γ) : widthOf width (a ++ b) = widthOf width a + widthOf width b := by
  rw [widthOf, List.map_append, List.sum_append]
  rfl

theorem length_cells (text : List γ) : (cells width text).length = widthOf width text := by
  induction text with
  | nil => rfl
  | cons g text ih => rw [cells_cons, List.length_append, length_cellsOf, ih, widthOf_cons]

theorem snd_lt_of_mem_cells {cell : Cell γ} (h : cell ∈ cells width text) : cell.2 < width cell.1 := by
  obtain ⟨g, -, hg⟩ := List.mem_flatMap.mp h
  obtain ⟨k, hk, rfl⟩ := List.mem_map.mp hg
  exact List.mem_range.mp hk

theorem le_of_cells {i k : ℕ} (h : (cells width text)[i]? = some (g, k)) : k ≤ i := by
  induction text generalizing i with
  | nil => cases h
  | cons g' text ih =>
    rw [cells_cons] at h
    by_cases hi : i < (cellsOf width g').length
    · rw [List.getElem?_append_left hi, cellsOf, List.getElem?_map] at h
      obtain ⟨j, hj, heq⟩ := Option.map_eq_some_iff.mp h
      obtain ⟨hlt, rfl⟩ := List.getElem?_eq_some_iff.mp hj
      rw [List.getElem_range] at heq
      exact (congrArg Prod.snd heq).ge
    · rw [List.getElem?_append_right (Nat.le_of_not_lt hi)] at h
      exact (ih h).trans (Nat.sub_le _ _)

theorem cells_replicate (hblank : width blank = 1) (n : ℕ) :
    cells width (List.replicate n blank) = List.replicate n (blank, 0) := by
  induction n with
  | zero => rfl
  | succ n ih =>
    rw [List.replicate_succ, cells_cons, ih, cellsOf, hblank]
    rfl

/-! ## Cutting a text -/

theorem fitting_of_le (h : hi ≤ column) (text : List γ) : fitting width hi column text = [] := by
  induction text generalizing column with
  | nil => rfl
  | cons g text ih => rw [fitting, if_neg (by omega), ih (Nat.le_add_right_of_le h)]

theorem le_dropTo (column : ℕ) (text : List γ) : lo ≤ (dropTo width lo column text).1 := by
  induction text generalizing column with
  | nil => exact Nat.le_max_left _ _
  | cons g text ih =>
    rw [dropTo]
    split
    next h => exact h
    next => exact ih _

theorem fitting_dropTo (h : lo ≤ column) (text : List γ) :
    fitting width hi (dropTo width lo column text).1 (dropTo width lo column text).2 =
      fitting width hi column text := by
  cases text with
  | nil => rfl
  | cons g text => rw [dropTo, if_pos h]

/-! ## What a text shows -/

@[simp] theorem shows_nil : shows width blank lo hi [] column = (blank, 0) := rfl

theorem shows_head (h : column < width g) :
    shows width blank lo hi (g :: text) column =
      if lo = 0 ∧ width g ≤ hi then (g, column) else (blank, 0) := by
  have hcell : (cells width (g :: text))[column]? = some (g, column) := by
    rw [cells_cons, List.getElem?_append_left (by rwa [length_cellsOf]), cellsOf, List.getElem?_map,
      List.getElem?_range h]
    rfl
  rw [shows, hcell]
  simp

theorem shows_tail (h : width g ≤ column) :
    shows width blank lo hi (g :: text) column =
      shows width blank (lo - width g) (hi - width g) text (column - width g) := by
  have hcell : (cells width (g :: text))[column]? = (cells width text)[column - width g]? := by
    rw [cells_cons, List.getElem?_append_right (by rwa [length_cellsOf]), length_cellsOf]
  rw [shows, shows, hcell]
  cases htail : (cells width text)[column - width g]? with
  | none => rfl
  | some cell =>
    obtain ⟨g', k⟩ := cell
    have hk : k < width g' := snd_lt_of_mem_cells (List.mem_of_getElem? htail)
    have hle := le_of_cells htail
    have hiff : (lo ≤ column - k ∧ column - k + width g' ≤ hi) ↔
        (lo - width g ≤ column - width g - k ∧ column - width g - k + width g' ≤ hi - width g) := by
      omega
    simp only [hiff]

/-- What a text shows in some columns, one after another. -/
def row (width : γ → ℕ) (blank : γ) (lo hi : ℕ) (text : List γ) (column n : ℕ) : List (Cell γ) :=
  (List.range n).map fun i => shows width blank lo hi text (column + i)

@[simp] theorem row_zero : row width blank lo hi text column 0 = [] := rfl

@[simp] theorem row_nil (n : ℕ) : row width blank lo hi [] column n = List.replicate n (blank, 0) := by
  simp [row]

/-- The columns of the first grapheme, and those of the others. -/
theorem row_cons {n : ℕ} (h : width g ≤ n) :
    row width blank lo hi (g :: text) 0 n = row width blank lo hi (g :: text) 0 (width g) ++
        row width blank (lo - width g) (hi - width g) text 0 (n - width g) := by
  conv_lhs => rw [row, ← Nat.add_sub_of_le h, List.range_add, List.map_append, List.map_map]
  refine congrArg (row width blank lo hi (g :: text) 0 (width g) ++ ·) ?_
  apply List.map_congr_left
  intro i _
  show shows width blank lo hi (g :: text) (0 + (width g + i)) = _
  rw [shows_tail (by omega)]
  congr 1
  omega

/-- A text that is cut at `hi` shows the graphemes that fit, and blanks behind them. -/
theorem row_fitting (text : List γ) (column : ℕ) :
    widthOf width (fitting width hi column text) ≤ hi - column ∧
      row width blank 0 (hi - column) text 0 (hi - column) = cells width (fitting width hi column text) ++
          List.replicate (hi - column - widthOf width (fitting width hi column text)) (blank, 0) := by
  induction text generalizing column with
  | nil =>
    refine ⟨Nat.zero_le _, ?_⟩
    rw [fitting, row_nil]
    rfl
  | cons g text ih =>
    obtain ⟨hle, hrow⟩ := ih (column + width g)
    rw [Nat.sub_add_eq] at hle hrow
    rw [fitting]
    split
    next hfits =>
      refine ⟨by rw [widthOf_cons]; omega, ?_⟩
      have hhead : row width blank 0 (hi - column) (g :: text) 0 (width g) = cellsOf width g := by
        apply List.map_congr_left
        intro i hrange
        rw [Nat.zero_add, shows_head (List.mem_range.mp hrange), if_pos ⟨rfl, by omega⟩]
      rw [row_cons (by omega), hhead, Nat.zero_sub, hrow, cells_cons, widthOf_cons, List.append_assoc,
        Nat.sub_sub _ (width g)]
    next hnot =>
      have hempty : widthOf width (fitting width hi (column + width g) text) = 0 := by omega
      have hnone : cells width (fitting width hi (column + width g) text) = [] := by
        rw [← List.length_eq_zero_iff, length_cells, hempty]
      rw [hempty, hnone]
      refine ⟨Nat.zero_le _, ?_⟩
      rw [List.nil_append, Nat.sub_zero, List.eq_replicate_iff]
      refine ⟨by rw [row, List.length_map, List.length_range], fun cell hcell => ?_⟩
      -- the columns that are left are all of the grapheme that does not fit
      obtain ⟨i, hrange, rfl⟩ := List.mem_map.mp hcell
      have hlt := List.mem_range.mp hrange
      rw [Nat.zero_add, shows_head (by omega), if_neg (by omega)]

/-- A text that is cut at `lo` shows blanks up to the first grapheme that starts there or later. -/
theorem row_dropTo (text : List γ) {column : ℕ} (hcolumn : column ≤ lo) (hlo : lo ≤ hi) :
    row width blank (lo - column) (hi - column) text (lo - column) (hi - lo) =
      List.replicate (min ((dropTo width lo column text).1 - lo) (hi - lo)) (blank, 0) ++
        row width blank 0 (hi - (dropTo width lo column text).1) (dropTo width lo column text).2 0
          (hi - (dropTo width lo column text).1) := by
  induction text generalizing column with
  | nil =>
    rw [dropTo, Nat.max_eq_left hcolumn, Nat.sub_self, Nat.zero_min, row_nil, row_nil]
    rfl
  | cons g text ih =>
    rw [dropTo]
    split
    next hstarts =>
      obtain rfl : column = lo := Nat.le_antisymm hcolumn hstarts
      rw [Nat.sub_self, Nat.zero_min]
      rfl
    next hbefore =>
      by_cases hnext : column + width g ≤ lo
      · rw [← ih hnext]
        apply List.map_congr_left
        intro i _
        rw [shows_tail (by omega), Nat.sub_add_eq, Nat.sub_add_eq]
        congr 1
        omega
      · -- the grapheme is cut at `lo`
        have hdrop : dropTo width lo (column + width g) text = (column + width g, text) := by
          cases text with
          | nil => rw [dropTo, Nat.max_eq_right (by omega)]
          | cons g' text => rw [dropTo, if_pos (by omega)]
        rw [hdrop]
        have hlength : hi - lo = min (column + width g - lo) (hi - lo) + (hi - (column + width g)) := by
          omega
        conv_lhs => rw [row, hlength, List.range_add, List.map_append, List.map_map]
        refine congrArg₂ (· ++ ·) ?_ ?_
        · rw [List.eq_replicate_iff]
          refine ⟨by rw [List.length_map, List.length_range], fun cell hcell => ?_⟩
          obtain ⟨i, hrange, rfl⟩ := List.mem_map.mp hcell
          have hlt := List.mem_range.mp hrange
          rw [shows_head (by omega), if_neg (by omega)]
        · apply List.map_congr_left
          intro i hrange
          have hlt := List.mem_range.mp hrange
          show shows width blank (lo - column) (hi - column) (g :: text)
            (lo - column + (min (column + width g - lo) (hi - lo) + i)) = _
          rw [shows_tail (by omega)]
          congr 1 <;> omega

/-- A grapheme is cut at `lo` if and only if the column `lo` is not its first. -/
theorem lt_dropTo_iff (text : List γ) {column : ℕ} (hcolumn : column ≤ lo) :
    lo < (dropTo width lo column text).1 ↔ ∃ g k, (cells width text)[lo - column]? = some (g, k) ∧ 0 < k := by
  induction text generalizing column with
  | nil =>
    rw [dropTo, Nat.max_eq_left hcolumn]
    simp
  | cons g text ih =>
    rw [dropTo]
    split
    next hstarts =>
      obtain rfl : column = lo := Nat.le_antisymm hcolumn hstarts
      rw [Nat.sub_self]
      refine iff_of_false (Nat.lt_irrefl _) ?_
      rintro ⟨g', k, hcell, hk⟩
      exact absurd (le_of_cells hcell) (Nat.not_le_of_lt hk)
    next hbefore =>
      by_cases hnext : column + width g ≤ lo
      · rw [ih hnext, cells_cons, List.getElem?_append_right (by rw [length_cellsOf]; omega),
          length_cellsOf, Nat.sub_add_eq]
      · have hdrop : (dropTo width lo (column + width g) text).1 = column + width g := by
          cases text with
          | nil => rw [dropTo, Nat.max_eq_right (by omega)]
          | cons g' text => rw [dropTo, if_pos (by omega)]
        have hcell : (cells width (g :: text))[lo - column]? = some (g, lo - column) := by
          rw [cells_cons, List.getElem?_append_left (by rw [length_cellsOf]; omega), cellsOf,
            List.getElem?_map, List.getElem?_range (by omega)]
          rfl
        rw [hdrop]
        exact iff_of_true (by omega) ⟨g, lo - column, hcell, by omega⟩

/-- A row that is not changed by moving it to the right, blanks coming in, is blank. -/
theorem eq_replicate_of_shift {α : Type*} {a : α} {l : List α} {d : ℕ} (hd : 0 < d)
    (h : l = List.replicate d a ++ l.take (l.length - d)) : l = List.replicate l.length a := by
  have hall : ∀ i, i < l.length → l[i]? = some a := by
    intro i
    induction i using Nat.strongRecOn with
    | ind i ih =>
      intro hi
      by_cases hlt : i < d
      · rw [h, List.getElem?_append_left (by rwa [List.length_replicate]), List.getElem?_replicate_of_lt hlt]
      · rw [h, List.getElem?_append_right (by rw [List.length_replicate]; omega),
          List.length_replicate, List.getElem?_take_of_lt (by omega)]
        exact ih (i - d) (by omega) (by omega)
  rw [List.eq_replicate_iff]
  refine ⟨rfl, fun b hb => ?_⟩
  obtain ⟨i, hi⟩ := List.mem_iff_getElem?.mp hb
  exact Option.some.inj (hi.symm.trans (hall i (List.getElem?_eq_some_iff.mp hi).1))

/-- A text put further to the left than it belongs, blanks coming in behind it, shows the same if
and only if it is where it belongs or there is nothing but blanks. -/
theorem moved_eq_iff {α : Type*} {a : α} {l : List α} {d n : ℕ} (h : l.length ≤ n - d) :
    l ++ List.replicate (n - l.length) a = List.replicate (min d n) a ++ (l ++ List.replicate (n - d - l.length) a) ↔
      d = 0 ∨ List.replicate (min d n) a ++ (l ++ List.replicate (n - d - l.length) a) = List.replicate n a := by
  constructor
  · intro heq
    by_cases hd : min d n = 0
    · rcases Nat.min_eq_zero_iff.mp hd with hzero | rfl
      · exact .inl hzero
      · rw [← heq, Nat.zero_sub] at *
        have hnil : l = [] := List.length_eq_zero_iff.mp (by omega)
        rw [hnil]
        exact .inr rfl
    · right
      have hlength : (l ++ List.replicate (n - l.length) a).length = n := by
        rw [List.length_append, List.length_replicate]
        omega
      have htake : (l ++ List.replicate (n - l.length) a).take (n - min d n) =
          l ++ List.replicate (n - d - l.length) a := by
        rw [List.take_append, List.take_of_length_le (by omega), List.take_replicate]
        congr 2
        omega
      have hshift := eq_replicate_of_shift (a := a) (Nat.pos_of_ne_zero hd)
        (l := l ++ List.replicate (n - l.length) a) (by rw [hlength, htake]; exact heq)
      rw [hlength] at hshift
      rw [← heq, hshift]
  · rintro (rfl | hblank)
    · rw [Nat.zero_min, Nat.sub_zero]
      rfl
    · rw [hblank]
      -- what is in the text is in the row, and so is blank
      have hmem : ∀ b ∈ l, b = a := by
        intro b hb
        have hrow : b ∈ List.replicate n a := by
          rw [← hblank]
          exact List.mem_append_right _ (List.mem_append_left _ hb)
        exact List.eq_of_mem_replicate hrow
      have hl : l = List.replicate l.length a := List.eq_replicate_iff.mpr ⟨rfl, hmem⟩
      conv_lhs => rw [hl, List.length_replicate, List.replicate_append_replicate]
      congr 1
      omega

end Cells
