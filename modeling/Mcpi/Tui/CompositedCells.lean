import Mcpi.Tui.Compositing

/-!
# The cells of a composited line

A composited line is as wide as it should be, and shows the base line before the overlay and the
overlay where they belong. What comes behind the overlay is put right behind it: where a wide
grapheme is cut by the right edge of the overlay, it moves to the left.
-/

namespace Mcpi.Tui

open Cells

variable {κ γ : Type} {f : LineFunctions κ γ} {line line' : List (Token κ γ)}

@[simp] theorem graphemes_nil : graphemes ([] : List (Token κ γ)) = [] := rfl

@[simp] theorem graphemes_append : graphemes (line ++ line') = graphemes line ++ graphemes line' :=
  List.filterMap_append

@[simp] theorem graphemes_ansi (code : κ) : graphemes (.ansi code :: line) = graphemes line := rfl

@[simp] theorem graphemes_grapheme (segment : γ) :
    graphemes (.grapheme segment :: line : List (Token κ γ)) = segment :: graphemes line := rfl

@[simp] theorem graphemes_codes (cs : List κ) : graphemes (codes cs : List (Token κ γ)) = [] := by
  induction cs with
  | nil => rfl
  | cons c cs ih => exact ih

@[simp] theorem graphemes_spaces (n : Nat) : graphemes (spaces f n) = List.replicate n f.blank := by
  induction n with
  | zero => rfl
  | succ n ih => exact congrArg (f.blank :: ·) ih

/-! ## What is sliced -/

@[simp] theorem graphemes_slice_ansi (startCol endCol : Nat) (slice : Slice κ γ) (code : κ) :
    graphemes (slice.ansi startCol endCol code).result = graphemes slice.result ∧
      (slice.ansi startCol endCol code).resultWidth = slice.resultWidth ∧
      (slice.ansi startCol endCol code).currentCol = slice.currentCol := by
  rw [Slice.ansi]
  split
  · exact ⟨by simp, rfl, rfl⟩
  · split <;> exact ⟨rfl, rfl, rfl⟩

theorem slice_grapheme_eq (endCol : Nat) (slice : Slice κ γ) (segment : γ) :
    (slice.grapheme f 0 endCol true segment).currentCol = slice.currentCol + f.graphemeWidth segment ∧
      (graphemes (slice.grapheme f 0 endCol true segment).result,
          (slice.grapheme f 0 endCol true segment).resultWidth) =
        if slice.currentCol < endCol ∧ slice.currentCol + f.graphemeWidth segment ≤ endCol then
          (graphemes slice.result ++ [segment], slice.resultWidth + f.graphemeWidth segment)
        else (graphemes slice.result, slice.resultWidth) := by
  have hcond : (((decide (slice.currentCol ≥ 0) && decide (slice.currentCol < endCol)) &&
      (!true || decide (slice.currentCol + f.graphemeWidth segment ≤ endCol))) = true) ↔
      (slice.currentCol < endCol ∧ slice.currentCol + f.graphemeWidth segment ≤ endCol) := by simp
  rw [Slice.grapheme]
  by_cases h : slice.currentCol < endCol ∧ slice.currentCol + f.graphemeWidth segment ≤ endCol
  · simp only [if_pos (hcond.mpr h), if_pos h]
    simp
  · simp only [if_neg (mt hcond.mp h), if_neg h]
    simp

/-- A slice from the start has the graphemes that fit. -/
theorem sliceLoop_eq (endCol : Nat) (line : List (Token κ γ)) (slice : Slice κ γ) :
    graphemes (sliceLoop f 0 endCol true slice line).result =
        graphemes slice.result ++ fitting f.graphemeWidth endCol slice.currentCol (graphemes line) ∧
      (sliceLoop f 0 endCol true slice line).resultWidth = slice.resultWidth +
        widthOf f.graphemeWidth (fitting f.graphemeWidth endCol slice.currentCol (graphemes line)) := by
  induction line generalizing slice with
  | nil => simp [sliceLoop, fitting]
  | cons token line ih =>
    cases token with
    | ansi code =>
      obtain ⟨htext, hwidth⟩ := ih (slice.ansi 0 endCol code)
      obtain ⟨hresult, hresultWidth, hcol⟩ := graphemes_slice_ansi 0 endCol slice code
      rw [hresult, hcol] at htext
      rw [hresultWidth, hcol] at hwidth
      exact ⟨htext, hwidth⟩
    | grapheme segment =>
      obtain ⟨hcol, hboth⟩ := slice_grapheme_eq (f := f) endCol slice segment
      have hloop : graphemes (sliceLoop f 0 endCol true slice (.grapheme segment :: line)).result =
            graphemes (slice.grapheme f 0 endCol true segment).result ++ fitting f.graphemeWidth
              endCol (slice.currentCol + f.graphemeWidth segment) (graphemes line) ∧
          (sliceLoop f 0 endCol true slice (.grapheme segment :: line)).resultWidth =
            (slice.grapheme f 0 endCol true segment).resultWidth + widthOf f.graphemeWidth
              (fitting f.graphemeWidth endCol (slice.currentCol + f.graphemeWidth segment) (graphemes line)) := by
        rw [sliceLoop]
        split
        next hdone =>
          rw [hcol] at hdone
          rw [fitting_of_le hdone, List.append_nil, widthOf_nil, Nat.add_zero]
          exact ⟨rfl, rfl⟩
        next =>
          rw [← hcol]
          exact ih _
      rw [hloop.1, hloop.2, graphemes_grapheme, fitting]
      by_cases h : slice.currentCol < endCol ∧ slice.currentCol + f.graphemeWidth segment ≤ endCol
      · rw [if_pos h] at hboth ⊢
        rw [(Prod.mk.inj hboth).1, (Prod.mk.inj hboth).2, widthOf_cons]
        exact ⟨by simp, Nat.add_assoc _ _ _⟩
      · rw [if_neg h] at hboth ⊢
        rw [(Prod.mk.inj hboth).1, (Prod.mk.inj hboth).2]
        exact ⟨rfl, rfl⟩

/-- **The overlay** is cut to its width. -/
theorem sliceWithWidth_eq (line : List (Token κ γ)) (length : Nat) :
    graphemes (sliceWithWidth f line 0 length true).1 = fitting f.graphemeWidth length 0 (graphemes line) ∧
      (sliceWithWidth f line 0 length true).2 =
        widthOf f.graphemeWidth (fitting f.graphemeWidth length 0 (graphemes line)) := by
  rw [sliceWithWidth]
  split
  next hzero =>
    rw [hzero, fitting_of_le (Nat.le_refl 0)]
    exact ⟨rfl, rfl⟩
  next =>
    obtain ⟨htext, hwidth⟩ := sliceLoop_eq (f := f) (0 + length) line ⟨[], 0, 0, []⟩
    rw [Nat.zero_add] at htext hwidth
    rw [Nat.zero_add]
    exact ⟨htext, hwidth.trans (Nat.zero_add _)⟩

/-! ## What is extracted -/

/-- The graphemes that come after the overlay. -/
def afterPart (width : γ → Nat) (lo hi column : Nat) (text : List γ) : List γ :=
  fitting width hi (dropTo width lo column text).1 (dropTo width lo column text).2

section Segments

variable {range : SegmentRange} {segments : Segments κ γ}

theorem segments_ansi_eq (range : SegmentRange) (segments : Segments κ γ) (code : κ) :
    graphemes (segments.ansi range code).before = graphemes segments.before ∧
      (segments.ansi range code).beforeWidth = segments.beforeWidth ∧
      graphemes (segments.ansi range code).after = graphemes segments.after ∧
      (segments.ansi range code).afterWidth = segments.afterWidth ∧
      (segments.ansi range code).currentCol = segments.currentCol := by
  rw [Segments.ansi]
  split
  · exact ⟨rfl, rfl, rfl, rfl, rfl⟩
  · split
    · exact ⟨rfl, rfl, by simp, rfl, rfl⟩
    · exact ⟨rfl, rfl, rfl, rfl, rfl⟩

/-- The text and the width of both segments. -/
def Segments.texts (segments : Segments κ γ) : (List γ × Nat) × (List γ × Nat) :=
  ((graphemes segments.before, segments.beforeWidth), (graphemes segments.after, segments.afterWidth))

theorem segments_grapheme_eq (hstrict : range.strictAfter = true) (segments : Segments κ γ) (segment : γ) :
    (segments.grapheme f range segment).currentCol = segments.currentCol + f.graphemeWidth segment ∧
      (segments.grapheme f range segment).texts =
        if segments.currentCol < range.beforeEnd ∧ segments.currentCol + f.graphemeWidth segment ≤ range.beforeEnd then
          ((graphemes segments.before ++ [segment], segments.beforeWidth + f.graphemeWidth segment), segments.texts.2)
        else if range.afterStart ≤ segments.currentCol ∧ segments.currentCol < range.afterEnd ∧
            segments.currentCol + f.graphemeWidth segment ≤ range.afterEnd then
          (segments.texts.1, (graphemes segments.after ++ [segment], segments.afterWidth + f.graphemeWidth segment))
        else segments.texts := by
  rw [Segments.grapheme]
  refine ⟨by split_ifs <;> rfl, ?_⟩
  by_cases hbefore : segments.currentCol < range.beforeEnd ∧
      segments.currentCol + f.graphemeWidth segment ≤ range.beforeEnd
  · rw [if_pos hbefore, if_pos (by simpa using hbefore)]
    simp [Segments.texts]
  · rw [if_neg hbefore, if_neg (by simpa using hbefore)]
    by_cases hrange : range.afterStart ≤ segments.currentCol ∧ segments.currentCol < range.afterEnd
    · rw [if_pos (by simpa using hrange)]
      by_cases hfits : segments.currentCol + f.graphemeWidth segment ≤ range.afterEnd
      · have hmay : (!range.strictAfter ||
            decide (segments.currentCol + f.graphemeWidth segment ≤ range.afterEnd)) = true := by
          simp [hfits]
        have hin : range.afterStart ≤ segments.currentCol ∧ segments.currentCol < range.afterEnd ∧
            segments.currentCol + f.graphemeWidth segment ≤ range.afterEnd :=
          ⟨hrange.1, hrange.2, hfits⟩
        rw [if_pos hmay, if_pos hin]
        simp only [Segments.texts, graphemes_append, graphemes_codes, List.append_nil]
        rfl
      · have hmay : ¬ (!range.strictAfter ||
            decide (segments.currentCol + f.graphemeWidth segment ≤ range.afterEnd)) = true := by
          simp [hstrict, hfits]
        rw [if_neg hmay, if_neg (fun h => hfits h.2.2)]
        rfl
    · rw [if_neg (by simpa using hrange), if_neg (fun h => hrange ⟨h.1, h.2.1⟩)]
      rfl

theorem nothing_after_done (hrange : range.beforeEnd ≤ range.afterStart) {column : Nat}
    (hdone : range.isDone column = true) (text : List γ) :
    fitting f.graphemeWidth range.beforeEnd column text = [] ∧
      afterPart f.graphemeWidth range.afterStart range.afterEnd column text = [] := by
  rw [SegmentRange.isDone] at hdone
  split at hdone
  next hempty =>
    have hcolumn := of_decide_eq_true hdone
    refine ⟨fitting_of_le hcolumn _, fitting_of_le ?_ _⟩
    rw [SegmentRange.afterEnd, hempty]
    exact le_dropTo column text
  next =>
    have hcolumn : range.afterEnd ≤ column := of_decide_eq_true hdone
    have hstart : range.afterStart ≤ column := (Nat.le_add_right _ _).trans hcolumn
    refine ⟨fitting_of_le (hrange.trans hstart) _, ?_⟩
    rw [afterPart, fitting_dropTo hstart, fitting_of_le hcolumn]

/-- What the rest of a line adds to the segments. -/
def Segments.extended (width : γ → Nat) (range : SegmentRange) (texts : (List γ × Nat) × (List γ × Nat))
    (column : Nat) (text : List γ) : (List γ × Nat) × (List γ × Nat) :=
  let before := fitting width range.beforeEnd column text
  let after := afterPart width range.afterStart range.afterEnd column text
  ((texts.1.1 ++ before, texts.1.2 + widthOf width before), (texts.2.1 ++ after, texts.2.2 + widthOf width after))

theorem segments_extended_grapheme (hrange : range.beforeEnd ≤ range.afterStart)
    (hstrict : range.strictAfter = true) (segments : Segments κ γ) (segment : γ) (text : List γ) :
    Segments.extended f.graphemeWidth range (segments.grapheme f range segment).texts
        (segments.currentCol + f.graphemeWidth segment) text =
      Segments.extended f.graphemeWidth range segments.texts segments.currentCol (segment :: text) := by
  rw [(segments_grapheme_eq hstrict segments segment).2, Segments.extended, Segments.extended]
  by_cases hbefore : segments.currentCol < range.beforeEnd ∧
      segments.currentCol + f.graphemeWidth segment ≤ range.beforeEnd
  · have hstart : ¬ range.afterStart ≤ segments.currentCol := by omega
    rw [if_pos hbefore, fitting, if_pos hbefore, afterPart, afterPart, dropTo, if_neg hstart]
    simp [Segments.texts, Nat.add_assoc]
  · rw [if_neg hbefore, fitting, if_neg hbefore]
    by_cases hstart : range.afterStart ≤ segments.currentCol
    · have hnext : range.afterStart ≤ segments.currentCol + f.graphemeWidth segment :=
        Nat.le_add_right_of_le hstart
      rw [afterPart, afterPart, fitting_dropTo hnext, dropTo, if_pos hstart]
      rw [fitting]
      by_cases hfits : segments.currentCol < range.afterEnd ∧
          segments.currentCol + f.graphemeWidth segment ≤ range.afterEnd
      · rw [if_pos ⟨hstart, hfits⟩, if_pos hfits]
        simp [Segments.texts, Nat.add_assoc]
      · rw [if_neg (fun h => hfits h.2), if_neg hfits]
    · rw [if_neg (fun h => hstart h.1), afterPart, afterPart, dropTo, if_neg hstart]

/-- **The segments** are the graphemes that fit before the overlay, and those that start behind it
and fit. -/
theorem segmentsLoop_eq (hrange : range.beforeEnd ≤ range.afterStart)
    (hstrict : range.strictAfter = true) (line : List (Token κ γ)) (segments : Segments κ γ) :
    (segmentsLoop f range segments line).texts =
      Segments.extended f.graphemeWidth range segments.texts segments.currentCol (graphemes line) := by
  induction line generalizing segments with
  | nil =>
    simp [segmentsLoop, Segments.extended, fitting, afterPart, dropTo, Segments.texts]
  | cons token line ih =>
    cases token with
    | ansi code =>
      obtain ⟨hbefore, hbeforeWidth, hafter, hafterWidth, hcol⟩ :=
        segments_ansi_eq range segments code
      have hnext := ih (segments.ansi range code)
      have htexts : (segments.ansi range code).texts = segments.texts := by
        rw [Segments.texts, hbefore, hbeforeWidth, hafter, hafterWidth]
        rfl
      rw [htexts, hcol] at hnext
      exact hnext
    | grapheme segment =>
      obtain ⟨hcol, -⟩ := segments_grapheme_eq (f := f) hstrict segments segment
      rw [segmentsLoop, graphemes_grapheme, ← segments_extended_grapheme hrange hstrict, ← hcol]
      split
      next hdone =>
        obtain ⟨hbefore, hafter⟩ := nothing_after_done (f := f) hrange hdone (graphemes line)
        rw [Segments.extended, hbefore, hafter]
        simp
      next => exact ih _

end Segments

theorem extractSegments_eq (line : List (Token κ γ)) {beforeEnd afterStart : Nat}
    (h : beforeEnd ≤ afterStart) (afterLen : Nat) :
    (extractSegments f line beforeEnd afterStart afterLen true).texts =
      ((fitting f.graphemeWidth beforeEnd 0 (graphemes line),
          widthOf f.graphemeWidth (fitting f.graphemeWidth beforeEnd 0 (graphemes line))),
        (afterPart f.graphemeWidth afterStart (afterStart + afterLen) 0 (graphemes line), widthOf f.graphemeWidth
            (afterPart f.graphemeWidth afterStart (afterStart + afterLen) 0 (graphemes line)))) := by
  have hloop := @segmentsLoop_eq κ γ f ⟨beforeEnd, afterStart, afterLen, true⟩ h rfl line
    ⟨[], 0, [], 0, 0, [], false, []⟩
  rw [extractSegments, hloop]
  simp [Segments.extended, Segments.texts, SegmentRange.afterEnd]

/-! ## The composited line -/

section Composite

variable (f) (baseLine overlayLine : List (Token κ γ)) (startCol overlayWidth totalWidth : Nat)

/-- The cells of a line. -/
def cellsOfLine (line : List (Token κ γ)) : List (Cell γ) := cells f.graphemeWidth (graphemes line)

/-- What a line shows in `n` columns from `column` on, cut to the columns from `lo` up to `hi`. -/
def shownIn (line : List (Token κ γ)) (lo hi column n : Nat) : List (Cell γ) :=
  row f.graphemeWidth f.blank lo hi (graphemes line) column n

/-- The base line before the overlay, the overlay, and the base line behind it. -/
def compositedCells : List (Cell γ) :=
  shownIn f baseLine 0 startCol 0 startCol ++ shownIn f overlayLine 0 overlayWidth 0 overlayWidth ++
    shownIn f baseLine (startCol + overlayWidth) totalWidth (startCol + overlayWidth)
      (totalWidth - (startCol + overlayWidth))

/-- The composited line is as wide as it should be, and shows both lines where they belong. -/
def CellExact : Prop :=
  visibleWidth f (compositeTuiLine f baseLine overlayLine startCol overlayWidth totalWidth) = totalWidth ∧
    cellsOfLine f (compositeTuiLine f baseLine overlayLine startCol overlayWidth totalWidth) =
      compositedCells f baseLine overlayLine startCol overlayWidth totalWidth

/-- The right edge of the overlay cuts no grapheme of the base line, or the base line shows nothing
but blanks behind it. -/
def EdgeClear : Prop :=
  (∀ g k, (cellsOfLine f baseLine)[startCol + overlayWidth]? = some (g, k) → k = 0) ∨
    ∀ column, startCol + overlayWidth ≤ column → column < totalWidth →
      shows f.graphemeWidth f.blank (startCol + overlayWidth) totalWidth (graphemes baseLine) column = (f.blank, 0)

/-- A text and the blanks that fill it up to `n` columns. -/
def filled (n : Nat) (text : List γ) : List γ :=
  text ++ List.replicate (n - widthOf f.graphemeWidth text) f.blank

variable {f baseLine overlayLine startCol overlayWidth totalWidth}

theorem widthOf_filled {n : Nat} {text : List γ} (h : widthOf f.graphemeWidth text ≤ n) :
    widthOf f.graphemeWidth (filled f n text) = n := by
  rw [← length_cells, filled, cells_append, cells_replicate f.graphemeWidth_blank, List.length_append,
    length_cells, List.length_replicate]
  omega

theorem cells_filled (n : Nat) (text : List γ) :
    cells f.graphemeWidth (filled f n text) = cells f.graphemeWidth text ++
      List.replicate (n - widthOf f.graphemeWidth text) (f.blank, 0) := by
  rw [filled, cells_append, cells_replicate f.graphemeWidth_blank]

theorem widthOf_fitting (hi : Nat) (text : List γ) : widthOf f.graphemeWidth (fitting f.graphemeWidth hi 0 text) ≤ hi :=
  (@row_fitting γ f.graphemeWidth f.blank hi text 0).1

theorem widthOf_afterPart (lo hi : Nat) (text : List γ) :
    widthOf f.graphemeWidth (afterPart f.graphemeWidth lo hi 0 text) ≤ hi - lo :=
  (@row_fitting γ f.graphemeWidth f.blank hi _ _).1.trans (Nat.sub_le_sub_left (le_dropTo 0 text) hi)

/-- The composited line of a base line that is no image: the three parts, each filled up. -/
theorem graphemes_composite (hw : startCol + overlayWidth ≤ totalWidth) (himage : f.isImageLine baseLine = false) :
    graphemes (compositeTuiLine f baseLine overlayLine startCol overlayWidth totalWidth) =
      filled f startCol (fitting f.graphemeWidth startCol 0 (graphemes baseLine)) ++
        filled f overlayWidth (fitting f.graphemeWidth overlayWidth 0 (graphemes overlayLine)) ++
        filled f (totalWidth - (startCol + overlayWidth))
          (afterPart f.graphemeWidth (startCol + overlayWidth) totalWidth 0 (graphemes baseLine)) := by
  have hsegments := extractSegments_eq (f := f) baseLine (Nat.le_add_right startCol overlayWidth)
    (totalWidth - (startCol + overlayWidth))
  rw [Nat.add_sub_of_le hw] at hsegments
  obtain ⟨⟨hbefore, hbeforeWidth⟩, hafter, hafterWidth⟩ :=
    (Prod.mk.inj hsegments).imp Prod.mk.inj Prod.mk.inj
  obtain ⟨hoverlay, hoverlayWidth⟩ := sliceWithWidth_eq (f := f) overlayLine overlayWidth
  have hleft := widthOf_fitting (f := f) startCol (graphemes baseLine)
  have hmiddle := widthOf_fitting (f := f) overlayWidth (graphemes overlayLine)
  have hright := widthOf_afterPart (f := f) (startCol + overlayWidth) totalWidth (graphemes baseLine)
  rw [compositeTuiLine, if_neg (by rw [himage]; exact Bool.false_ne_true)]
  dsimp only
  rw [hbeforeWidth, hafterWidth, hoverlayWidth, Nat.max_eq_left hleft, Nat.max_eq_left hmiddle, Nat.sub_sub totalWidth]
  have hresult : ∀ (beforePad overlayPad afterPad : Nat),
      graphemes ((extractSegments f baseLine startCol (startCol + overlayWidth)
          (totalWidth - (startCol + overlayWidth)) true).before ++ spaces f beforePad ++
        codes f.SEGMENT_RESET ++ (sliceWithWidth f overlayLine 0 overlayWidth true).1 ++
        spaces f overlayPad ++ codes f.SEGMENT_RESET ++
        (extractSegments f baseLine startCol (startCol + overlayWidth)
          (totalWidth - (startCol + overlayWidth)) true).after ++ spaces f afterPad) =
      (fitting f.graphemeWidth startCol 0 (graphemes baseLine) ++ List.replicate beforePad f.blank) ++
        (fitting f.graphemeWidth overlayWidth 0 (graphemes overlayLine) ++ List.replicate overlayPad f.blank) ++
        (afterPart f.graphemeWidth (startCol + overlayWidth) totalWidth 0 (graphemes baseLine) ++
          List.replicate afterPad f.blank) := by
    intro beforePad overlayPad afterPad
    simp only [graphemes_append, graphemes_spaces, graphemes_codes, List.nil_append, hbefore, hoverlay,
      hafter, List.append_assoc]
  -- the result is exactly as wide as it should be, so that nothing is cut off
  rw [if_pos]
  · exact hresult _ _ _
  · rw [visibleWidth, hresult, widthOf_append, widthOf_append]
    have hparts := congrArg₂ (· + ·) (congrArg₂ (· + ·) (widthOf_filled hleft) (widthOf_filled hmiddle))
      (widthOf_filled hright)
    exact (hparts.trans (Nat.add_sub_of_le hw)).le

theorem visibleWidth_composite (hw : startCol + overlayWidth ≤ totalWidth) (himage : f.isImageLine baseLine = false) :
    visibleWidth f (compositeTuiLine f baseLine overlayLine startCol overlayWidth totalWidth) =
      totalWidth := by
  rw [visibleWidth, graphemes_composite hw himage, widthOf_append, widthOf_append,
    widthOf_filled (widthOf_fitting _ _), widthOf_filled (widthOf_fitting _ _),
    widthOf_filled (widthOf_afterPart _ _ _)]
  exact Nat.add_sub_of_le hw

/-- Before the overlay, and under it, the composited line shows what it should. -/
theorem cells_filled_fitting (hi : Nat) (line : List (Token κ γ)) :
    cells f.graphemeWidth (filled f hi (fitting f.graphemeWidth hi 0 (graphemes line))) = shownIn f line 0 hi 0 hi := by
  have hrow := (@row_fitting γ f.graphemeWidth f.blank hi (graphemes line) 0).2
  rw [Nat.sub_zero] at hrow
  rw [cells_filled]
  exact hrow.symm

/-- Behind the overlay, it shows the base line where it belongs if and only if the edge is clear. -/
theorem cells_filled_afterPart_iff (hw : startCol + overlayWidth ≤ totalWidth) :
    cells f.graphemeWidth (filled f (totalWidth - (startCol + overlayWidth))
          (afterPart f.graphemeWidth (startCol + overlayWidth) totalWidth 0 (graphemes baseLine))) =
        shownIn f baseLine (startCol + overlayWidth) totalWidth (startCol + overlayWidth)
          (totalWidth - (startCol + overlayWidth)) ↔
      EdgeClear f baseLine startCol overlayWidth totalWidth := by
  have hblank : (shownIn f baseLine (startCol + overlayWidth) totalWidth (startCol + overlayWidth)
        (totalWidth - (startCol + overlayWidth)) =
      List.replicate (totalWidth - (startCol + overlayWidth)) (f.blank, 0)) ↔
      ∀ column, startCol + overlayWidth ≤ column → column < totalWidth →
        shows f.graphemeWidth f.blank (startCol + overlayWidth) totalWidth (graphemes baseLine)
          column = (f.blank, 0) := by
    rw [shownIn, row, List.eq_replicate_iff]
    constructor
    · rintro ⟨-, hall⟩ column hstart hend
      obtain ⟨i, rfl⟩ := Nat.exists_eq_add_of_le hstart
      exact hall _ (List.mem_map.mpr ⟨i, List.mem_range.mpr (by omega), rfl⟩)
    · intro hall
      refine ⟨by rw [List.length_map, List.length_range], fun cell hcell => ?_⟩
      obtain ⟨i, hi, rfl⟩ := List.mem_map.mp hcell
      exact hall _ (Nat.le_add_right _ _) (by have := List.mem_range.mp hi; omega)
  have hcut := @lt_dropTo_iff γ f.graphemeWidth _ (graphemes baseLine) 0 (Nat.zero_le (startCol + overlayWidth))
  have hstart := @le_dropTo γ f.graphemeWidth (startCol + overlayWidth) 0 (graphemes baseLine)
  have hshown := @row_dropTo γ f.graphemeWidth f.blank _ _ (graphemes baseLine) 0
    (Nat.zero_le (startCol + overlayWidth)) hw
  obtain ⟨hfits, htaken⟩ := @row_fitting γ f.graphemeWidth f.blank totalWidth
    (dropTo f.graphemeWidth (startCol + overlayWidth) 0 (graphemes baseLine)).2
    (dropTo f.graphemeWidth (startCol + overlayWidth) 0 (graphemes baseLine)).1
  rw [Nat.sub_zero, Nat.sub_zero, htaken] at hshown
  have hfirst : (∀ g k, (cellsOfLine f baseLine)[startCol + overlayWidth]? = some (g, k) → k = 0) ↔
      (dropTo f.graphemeWidth (startCol + overlayWidth) 0 (graphemes baseLine)).1 - (startCol + overlayWidth) = 0 := by
    rw [Nat.sub_eq_zero_iff_le, ← Nat.not_lt, hcut]
    simp [cellsOfLine]
  have hrest : totalWidth - (dropTo f.graphemeWidth (startCol + overlayWidth) 0 (graphemes baseLine)).1 =
      totalWidth - (startCol + overlayWidth) -
        ((dropTo f.graphemeWidth (startCol + overlayWidth) 0 (graphemes baseLine)).1 -
          (startCol + overlayWidth)) := by omega
  rw [EdgeClear, hfirst, ← hblank, shownIn, hshown, cells_filled, afterPart, ← length_cells, hrest]
  apply moved_eq_iff
  rw [length_cells, ← hrest]
  exact hfits

/-- **Compositing is cell exact** if and only if the right edge of the overlay is clear. -/
theorem compositeTuiLine_cellExact_iff (hw : startCol + overlayWidth ≤ totalWidth)
    (himage : f.isImageLine baseLine = false) :
    CellExact f baseLine overlayLine startCol overlayWidth totalWidth ↔
      EdgeClear f baseLine startCol overlayWidth totalWidth := by
  rw [← cells_filled_afterPart_iff hw, CellExact, cellsOfLine, graphemes_composite hw himage,
    cells_append, cells_append, cells_filled_fitting, cells_filled_fitting, compositedCells,
    List.append_cancel_left_eq]
  exact and_iff_right (visibleWidth_composite hw himage)

end Composite

/-- Lines without codes, in which one character is wide. -/
def wideLines : LineFunctions Unit Char where
  graphemeWidth c := if c = '世' then 2 else 1
  blank := ' '
  graphemeWidth_blank := rfl
  getActiveCodes := id
  isImageLine _ := false
  SEGMENT_RESET := [()]

def textLine (text : List Char) : List (Token Unit Char) := text.map .grapheme

/-- An overlay up to a wide grapheme. -/
theorem compositeTuiLine_cellExact_before :
    CellExact wideLines (textLine ['a', 'b', '世', 'c', 'd']) (textLine ['x']) 1 1 6 := by
  apply (compositeTuiLine_cellExact_iff (by decide) rfl).mpr
  left
  intro g k hcell
  have hwide : (cellsOfLine wideLines (textLine ['a', 'b', '世', 'c', 'd']))[1 + 1]? = some ('世', 0) := by decide
  rw [hwide] at hcell
  exact (congrArg Prod.snd (Option.some.inj hcell)).symm

/-- An overlay over its first column. -/
theorem compositeTuiLine_not_cellExact :
    ¬ CellExact wideLines (textLine ['a', 'b', '世', 'c', 'd']) (textLine ['x', 'y']) 1 2 6 := by
  rintro ⟨-, hcells⟩
  have hshifted : cellsOfLine wideLines (compositeTuiLine wideLines
      (textLine ['a', 'b', '世', 'c', 'd']) (textLine ['x', 'y']) 1 2 6) =
      cellsOfLine wideLines (textLine ['a', 'x', 'y', 'c', 'd', ' ']) := by decide
  have hplaced : compositedCells wideLines (textLine ['a', 'b', '世', 'c', 'd']) (textLine ['x', 'y']) 1 2 6 =
      cellsOfLine wideLines (textLine ['a', 'x', 'y', ' ', 'c', 'd']) := by decide
  rw [hshifted, hplaced] at hcells
  exact absurd hcells (by decide)

end Mcpi.Tui
