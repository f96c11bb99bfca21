import Mcpi.Tui.Redraw
import Mcpi.Lib.Transition

/-!
# Frames

A run of frames, with resizes between them: the screen shows the last frame as long as each cursor marker
can be reached. A marker above the viewport cannot: the terminal stops at its top row, the renderer counts
on.
-/

namespace Mcpi.Tui

/-! ## Painting over what changed -/

section Changed

variable {tui : MainScreen} {lines : List Line} {first last : Nat}

/-- **The changed lines** are painted, from the first one to the last. -/
theorem Shows.paintChanged {columns rows top : Nat} {old : List Line} {s : Screen} {finish : Nat}
    (h : Shows columns rows lines old top first first s) (hcolumn : s.column = 0)
    (hold : old.length ≤ top + rows) (hfirst : first ≤ finish) (hfinish : finish < lines.length) :
    Shows columns rows lines old (max top (finish + 1 - rows)) (finish + 1) finish
      (MainScreen.paint true s ((lines.take (finish + 1)).drop first)) := by
  have hlength : ((lines.take (finish + 1)).drop first).length = finish + 1 - first := by
    rw [List.length_drop, List.length_take]
    omega
  have hget : ∀ k, k < finish + 1 - first → ((lines.take (finish + 1)).drop first)[k]? = lines[first + k]? := by
    intro k hk
    rw [List.getElem?_drop, List.getElem?_take_of_lt (by omega)]
  cases hcase : (lines.take (finish + 1)).drop first with
  | nil =>
    rw [hcase, List.length_nil] at hlength
    omega
  | cons line rest =>
    rw [hcase] at hlength hget
    rw [List.length_cons] at hlength
    have hline : lines[first]? = some line := (hget 0 (by omega)).symm
    have hwrite := h.write hline hcolumn true nofun
    have hrest := hwrite.paintRest rest true (fun k l hl => by
      have hk : k < rest.length := by
        refine Nat.lt_of_not_le fun hge => ?_
        rw [List.getElem?_eq_none hge] at hl
        cases hl
      have hnext := hget (k + 1) (by omega)
      rw [List.getElem?_cons_succ, hl] at hnext
      rw [show first + 1 + k = first + (k + 1) by omega]
      exact hnext.symm) hold nofun
    rw [show first + rest.length = finish by omega] at hrest
    exact hrest

/-- Below the last line that stays a line begins. -/
theorem Tracked.shows_append (h : Tracked tui) (hbefore : ∀ i, i < first → lines[i]? = tui.previousLines[i]?)
    (hfirst : first = tui.previousLines.length) (hpos : 0 < first) :
    Shows tui.terminal.columns tui.terminal.rows lines tui.previousLines
      (max tui.previousViewportTop (first + 1 - tui.terminal.rows)) first first
      (tui.terminal.moveBy (((first - 1 : Nat) : Int) - tui.hardwareCursorRow)).newLine ∧
      (tui.terminal.moveBy (((first - 1 : Nat) : Int) - tui.hardwareCursorRow)).newLine.column = 0 := by
  have hrows : 0 < tui.terminal.rows := Nat.lt_of_le_of_lt (Nat.zero_le _) h.inside
  have hfits := h.fits
  have hne : tui.previousLines ≠ [] := fun hnil => by
    rw [hnil, List.length_nil] at hfirst
    omega
  have hbelow := h.below hne
  have hmoved := (h.shows hbefore).moveBy (first - 1) (by omega) (by omega)
  obtain ⟨hnew, hcolumn⟩ := hmoved.newLine (by omega) hfits
  rw [show first - 1 + 2 - tui.terminal.rows = first + 1 - tui.terminal.rows by omega,
    show first - 1 + 1 = first by omega] at hnew
  exact ⟨hnew, hcolumn⟩

/-- The cursor goes to the first changed line. -/
theorem Tracked.shows_changed (h : Tracked tui) (hbefore : ∀ i, i < first → lines[i]? = tui.previousLines[i]?)
    (hviewport : tui.previousViewportTop ≤ first) (hinside : first < tui.previousViewportTop + tui.terminal.rows) :
    Shows tui.terminal.columns tui.terminal.rows lines tui.previousLines
      (max tui.previousViewportTop (first + 1 - tui.terminal.rows)) first first
      (tui.terminal.moveBy ((first : Int) - tui.hardwareCursorRow)).carriageReturn := by
  rw [show max tui.previousViewportTop (first + 1 - tui.terminal.rows) = tui.previousViewportTop by omega]
  exact ((h.shows hbefore).moveBy first hviewport hinside).carriageReturn

/-- Rows that are left over below the last line are erased. -/
theorem Shows.erased {columns rows top : Nat} {old : List Line} {s : Screen}
    (h : Shows columns rows lines old top lines.length (lines.length - 1) s) (hlines : 0 < lines.length)
    (hshrunk : lines.length < old.length) (htop : top < lines.length) (hfits : old.length ≤ top + rows) :
    Shows columns rows lines lines top 0 (lines.length - 1)
      ((MainScreen.clearBelow s (old.length - lines.length)).cursorUp (old.length - lines.length)) := by
  obtain ⟨n, hn⟩ : ∃ n, lines.length = n + 1 := ⟨lines.length - 1, by omega⟩
  rw [hn, Nat.add_sub_cancel] at h ⊢
  have hcleared := h.clearBelow (old.length - (n + 1)) (by omega) hfits (by omega)
  have hup := hcleared.cursorUp (k := old.length - (n + 1)) (by omega)
  rw [Nat.add_sub_cancel] at hup
  exact hup.whole fun i hi => same_of_max_le (by omega)

/-- The last step of a frame that is not empty -/
theorem synced_painted (painted : MainScreen) {columns rows : Nat}
    (hshows : Shows columns rows lines lines painted.previousViewportTop 0 painted.hardwareCursorRow painted.terminal)
    (hcolumns : 0 < columns) (hfits : lines.length ≤ painted.previousViewportTop + rows)
    (hbelow : painted.previousViewportTop < lines.length)
    (hmarker : ∀ row col, painted.cursorPos = some (row, col) →
      row < lines.length ∧ painted.previousViewportTop ≤ row) :
    Synced { painted.positionHardwareCursor painted.cursorPos lines.length with
      previousLines := lines
      previousWidth := painted.terminal.columns
      previousHeight := rows } :=
  synced_position painted hshows hcolumns hfits (fun _ => hbelow) (fun hnil => by simp [hnil] at hbelow) hmarker

/-- **The lines from the first changed one on** are painted over what was there. -/
theorem synced_renderChanged (h : Tracked tui) {appendStart : Bool} (hfirst : first < lines.length)
    (hviewport : tui.previousViewportTop ≤ first) (hle : first ≤ last)
    (hbefore : ∀ i, i < first → lines[i]? = tui.previousLines[i]?)
    (hafter : ∀ i, last < i → lines[i]? = tui.previousLines[i]?)
    (hgrown : tui.previousLines.length < lines.length → last = lines.length - 1)
    (happend : appendStart = true → first = tui.previousLines.length ∧ 0 < first)
    (hinside : appendStart = false → first < tui.previousViewportTop + tui.terminal.rows)
    (hmarker : ∀ row col, tui.cursorPos = some (row, col) →
      row < lines.length ∧ lines.length - tui.terminal.rows ≤ row ∧ tui.previousViewportTop ≤ row) :
    Synced (tui.renderChanged lines tui.cursorPos first last appendStart) := by
  have hrows : 0 < tui.terminal.rows := Nat.lt_of_le_of_lt (Nat.zero_le _) h.inside
  have hfits := h.fits
  have hcursor := h.cursor
  have hrowInside := h.inside
  -- the cursor starts at the first changed line, or below the last one that stays
  have hstart : Shows tui.terminal.columns tui.terminal.rows lines tui.previousLines
      (max tui.previousViewportTop (first + 1 - tui.terminal.rows)) first first
      (if appendStart then (tui.terminal.moveBy
          (((if appendStart then first - 1 else first : Nat) : Int) - tui.hardwareCursorRow)).newLine
        else (tui.terminal.moveBy (((if appendStart then first - 1 else first : Nat) : Int) -
            tui.hardwareCursorRow)).carriageReturn) ∧
      (if appendStart then (tui.terminal.moveBy
          (((if appendStart then first - 1 else first : Nat) : Int) - tui.hardwareCursorRow)).newLine
        else (tui.terminal.moveBy (((if appendStart then first - 1 else first : Nat) : Int) -
            tui.hardwareCursorRow)).carriageReturn).column = 0 := by
    cases appendStart with
    | true =>
      obtain ⟨hlength, hpos⟩ := happend rfl
      exact h.shows_append hbefore hlength hpos
    | false => exact ⟨h.shows_changed hbefore hviewport (hinside rfl), rfl⟩
  have htarget : ¬ (if appendStart then first - 1 else first) > tui.previousViewportTop + tui.terminal.rows - 1 := by
    cases appendStart with
    | true =>
      obtain ⟨hfirstEq, hpos⟩ := happend rfl
      rw [if_pos rfl]
      omega
    | false =>
      have := hinside rfl
      rw [if_neg Bool.false_ne_true]
      omega
  obtain ⟨hfrom, hcolumn⟩ := hstart
  have hpainted := hfrom.paintChanged hcolumn (by omega) (show first ≤ min last (lines.length - 1) by omega) (by omega)
  have htop : max (max tui.previousViewportTop (first + 1 - tui.terminal.rows))
      (min last (lines.length - 1) + 1 - tui.terminal.rows) =
        max tui.previousViewportTop (min last (lines.length - 1) + 1 - tui.terminal.rows) := by
    omega
  rw [htop] at hpainted
  have hreached : ∀ row col, tui.cursorPos = some (row, col) → row < lines.length ∧
      max tui.previousViewportTop (min last (lines.length - 1) + 1 - tui.terminal.rows) ≤ row := by
    intro row col hpos
    have := hmarker row col hpos
    omega
  unfold MainScreen.renderChanged
  dsimp only
  rw [if_neg htarget]
  generalize MainScreen.paint true _ _ = s at hpainted ⊢
  by_cases hshrunk : tui.previousLines.length > lines.length
  · have hlast : tui.previousLines.length - 1 ≤ last := by
      refine Nat.le_of_not_lt fun hlt => ?_
      have hsame := hafter _ hlt
      rw [List.getElem?_eq_none (by omega), eq_comm, List.getElem?_eq_none_iff] at hsame
      omega
    have hend : min last (lines.length - 1) = lines.length - 1 := by omega
    rw [if_pos hshrunk]
    rw [hend] at hpainted hreached ⊢
    rw [Nat.sub_self, if_neg (Nat.lt_irrefl 0), Nat.max_self]
    rw [show lines.length - 1 + 1 = lines.length by omega] at hpainted hreached ⊢
    have hwhole := hpainted.erased (by omega) hshrunk (by omega) (by omega)
    refine synced_painted { tui with
      terminal := _, cursorRow := lines.length - 1, hardwareCursorRow := lines.length - 1
      maxLinesRendered := _
      previousViewportTop := max tui.previousViewportTop (lines.length - tui.terminal.rows) }
      hwhole h.columns_pos ?_ ?_ hreached
    · show lines.length ≤ max _ _ + tui.terminal.rows
      omega
    · show max _ _ < lines.length
      omega
  · rw [if_neg hshrunk]
    have hwhole := hpainted.whole fun i hi => by
      rcases Nat.lt_or_ge last i with hlt | hge
      · exact hafter i hlt
      · exact same_of_max_le (by omega)
    refine synced_painted { tui with
      terminal := s, cursorRow := lines.length - 1
      hardwareCursorRow := min last (lines.length - 1)
      maxLinesRendered := _
      previousViewportTop :=
        max tui.previousViewportTop (min last (lines.length - 1) + 1 - tui.terminal.rows) }
      hwhole h.columns_pos ?_ ?_ hreached
    · show lines.length ≤ max _ _ + tui.terminal.rows
      omega
    · show max _ _ < lines.length
      omega

end Changed

/-! ## A frame -/

section Frames

variable {tui : MainScreen} {frame : Frame}

/-- What `doRender` writes of a frame, and where it has found the cursor marker. -/
def Frame.rendered (frame : Frame) : Option (Nat × Nat) × List Line :=
  MainScreen.extractCursorPosition frame.lines frame.size.rows

/-- The frame is written whole: the first one, one after a resize, or one whose changes are not inside the
viewport. -/
def MainScreen.RedrawsAll (tui : MainScreen) (frame : Frame) : Prop :=
  tui.previousLines = [] ∨ tui.previousWidth ≠ frame.size.columns ∨ tui.previousHeight ≠ frame.size.rows ∨
      ∃ first last, changedRange tui.previousLines frame.rendered.2 = some (first, last) ∧
        if first ≥ frame.rendered.2.length then
          frame.rendered.2.length - 1 < tui.previousViewportTop ∨
            tui.previousLines.length - frame.rendered.2.length > frame.size.rows
        else first < tui.previousViewportTop

/-- The cursor marker is not above the viewport, unless the frame is written whole. -/
def MainScreen.MarkerReachable (tui : MainScreen) (frame : Frame) : Prop :=
  ∀ row col, frame.rendered.1 = some (row, col) → tui.previousViewportTop ≤ row ∨ tui.RedrawsAll frame

theorem Tracked.setCursorPos (h : Tracked tui) (cursorPos : Option (Nat × Nat)) : Tracked { tui with cursorPos } :=
  ⟨h.shown, h.cursor, h.inside, h.columns_pos, h.fits, h.below, h.empty, h.size⟩

/-- A resize keeps what is tracked before the first frame, and is noticed after it. -/
theorem Tracked.resized (h : Tracked tui) (frame : Frame) :
    (tui.resized frame).terminal.columns = frame.size.columns ∧ (tui.resized frame).terminal.rows = frame.size.rows ∧
      (Tracked (tui.resized frame) ∨ (tui.previousWidth ≠ 0 ∧ tui.previousWidth ≠ frame.size.columns) ∨
          (tui.previousHeight ≠ 0 ∧ tui.previousHeight ≠ frame.size.rows)) := by
  have hcolumns := h.columns_pos
  have hrows := Nat.lt_of_le_of_lt (Nat.zero_le _) h.inside
  unfold MainScreen.resized
  by_cases hsame : frame.size.columns = tui.terminal.columns ∧ frame.size.rows = tui.terminal.rows
  · rw [if_pos hsame]
    exact ⟨hsame.1.symm, hsame.2.symm, .inl h⟩
  · rw [if_neg hsame]
    by_cases hnew : tui.previousHeight = 0
    · rw [if_pos hnew]
      refine ⟨rfl, rfl, .inl ?_⟩
      rcases h.size with ⟨-, hheight⟩ | ⟨hnil, hwidth, hheight⟩
      · omega
      · obtain ⟨htop, hrow, hcolumn⟩ := h.empty hnil
        have hcursor := h.cursor
        refine ⟨fun j _ => ?_, ?_, frame.size.rows_pos, frame.size.columns_pos, ?_,
          fun hne => absurd hnil hne, fun _ => ⟨htop, rfl, rfl⟩, .inr ⟨hnil, hwidth, hheight⟩⟩
        · show [] = want tui.previousLines _
          rw [hnil]
          rfl
        · show 0 + tui.previousViewportTop = tui.hardwareCursorRow
          omega
        · show tui.previousLines.length ≤ _
          rw [hnil]
          exact Nat.zero_le _
    · rw [if_neg hnew]
      refine ⟨rfl, rfl, .inr ?_⟩
      rcases h.size with ⟨hwidth, hheight⟩ | ⟨-, -, hheight⟩
      · omega
      · exact absurd hheight hnew

@[simp] theorem resized_previousLines : (tui.resized frame).previousLines = tui.previousLines := by
  unfold MainScreen.resized
  split
  · rfl
  · split <;> rfl

@[simp] theorem resized_previousWidth : (tui.resized frame).previousWidth = tui.previousWidth := by
  unfold MainScreen.resized
  split
  · rfl
  · split <;> rfl

@[simp] theorem resized_previousHeight : (tui.resized frame).previousHeight = tui.previousHeight := by
  unfold MainScreen.resized
  split
  · rfl
  · split <;> rfl

@[simp] theorem resized_previousViewportTop : (tui.resized frame).previousViewportTop = tui.previousViewportTop := by
  unfold MainScreen.resized
  split
  · rfl
  · split <;> rfl

theorem positionHardwareCursor_previous (cursorPos : Option (Nat × Nat)) (totalLines : Nat) :
    (tui.positionHardwareCursor cursorPos totalLines).previousLines = tui.previousLines ∧
      (tui.positionHardwareCursor cursorPos totalLines).previousWidth = tui.previousWidth ∧
      (tui.positionHardwareCursor cursorPos totalLines).previousViewportTop =
        tui.previousViewportTop := by
  unfold MainScreen.positionHardwareCursor
  split
  · exact ⟨rfl, rfl, rfl⟩
  · split <;> exact ⟨rfl, rfl, rfl⟩

/-- **Nothing has changed** but the cursor marker. -/
theorem synced_unchanged (h : Tracked tui) (hwidth : tui.previousWidth = tui.terminal.columns)
    (hmarker : ∀ row col, tui.cursorPos = some (row, col) →
      row < tui.previousLines.length ∧ tui.previousViewportTop ≤ row) :
    Synced { tui.positionHardwareCursor tui.cursorPos tui.previousLines.length with
      previousHeight := tui.terminal.rows } := by
  have hshows := @Tracked.shows tui tui.previousLines 0 h fun _ _ => rfl
  have hsynced := synced_position tui hshows h.columns_pos h.fits h.below h.empty hmarker
  obtain ⟨hlines, hprevious, -⟩ :=
    @positionHardwareCursor_previous tui tui.cursorPos tui.previousLines.length
  rw [← hwidth] at hsynced
  have hsame : { tui.positionHardwareCursor tui.cursorPos tui.previousLines.length with
      previousLines := tui.previousLines
      previousWidth := tui.previousWidth
      previousHeight := tui.terminal.rows } =
        { tui.positionHardwareCursor tui.cursorPos tui.previousLines.length with
          previousHeight := tui.terminal.rows } := by
    generalize tui.positionHardwareCursor tui.cursorPos tui.previousLines.length = moved at *
    obtain ⟨⟩ := moved
    dsimp only at hlines hprevious
    rw [hlines, hprevious]
  rwa [hsame] at hsynced

/-- **A frame at the size of the terminal**: the renderer knows what the screen shows, or sees that the size
has changed. -/
theorem synced_doRender (hcolumns : tui.terminal.columns = frame.size.columns)
    (hrows : tui.terminal.rows = frame.size.rows)
    (hready : Tracked tui ∨ (tui.previousWidth ≠ 0 ∧ tui.previousWidth ≠ frame.size.columns) ∨
      (tui.previousHeight ≠ 0 ∧ tui.previousHeight ≠ frame.size.rows))
    (hmarker : tui.MarkerReachable frame) : Synced (tui.doRender frame.lines) := by
  have hspec := (extractCursorPosition_spec frame.lines frame.size.rows).2
  have hlength := (extractCursorPosition_spec frame.lines frame.size.rows).1
  unfold MainScreen.MarkerReachable MainScreen.RedrawsAll Frame.rendered at hmarker
  unfold MainScreen.doRender
  dsimp only
  rw [hcolumns, hrows]
  generalize MainScreen.extractCursorPosition frame.lines frame.size.rows = found at *
  obtain ⟨cursorPos, lines⟩ := found
  rw [← hlength, ← hrows] at hspec
  by_cases hwidth : tui.previousWidth ≠ 0 ∧ tui.previousWidth ≠ frame.size.columns
  · rw [if_neg fun hboth => hboth.2.1 hwidth, if_pos (.inl hwidth)]
    exact @synced_fullRender { tui with cursorPos } lines true
      (hcolumns ▸ frame.size.columns_pos) (hrows ▸ frame.size.rows_pos) nofun hspec
  by_cases hheight : tui.previousHeight ≠ 0 ∧ tui.previousHeight ≠ frame.size.rows
  · rw [if_neg fun hboth => hboth.2.2 hheight, if_pos (.inr hheight)]
    exact @synced_fullRender { tui with cursorPos } lines true
      (hcolumns ▸ frame.size.columns_pos) (hrows ▸ frame.size.rows_pos) nofun hspec
  rw [if_neg (c := _ ∨ _) (fun hor => hor.elim hwidth hheight)]
  -- the size is the same
  have h : Tracked tui := by
    rcases hready with h | h | h
    · exact h
    · exact absurd h hwidth
    · exact absurd h hheight
  have htracked := h.setCursorPos cursorPos
  have hcolumnsPos := h.columns_pos
  have hrowsPos := Nat.lt_of_le_of_lt (Nat.zero_le _) h.inside
  by_cases hfirstFrame : tui.previousLines = []
  · rw [if_pos ⟨congrArg List.length hfirstFrame, hwidth, hheight⟩]
    obtain ⟨-, hrow, hcolumn⟩ := h.empty hfirstFrame
    refine @synced_fullRender { tui with cursorPos } lines false hcolumnsPos hrowsPos
      (fun _ => ⟨hrow, hcolumn, fun j hj => ?_⟩) hspec
    show tui.terminal.content j = []
    rw [h.shown j hj, hfirstFrame]
    rfl
  · have hsome : tui.previousLines.length ≠ 0 := fun hzero =>
      hfirstFrame (List.length_eq_zero_iff.mp hzero)
    rw [if_neg fun hboth => hsome hboth.1]
    have hsize : tui.previousWidth = tui.terminal.columns ∧ tui.previousHeight = tui.terminal.rows := by
      rcases h.size with hsize | ⟨hnil, -⟩
      · exact hsize
      · exact absurd hnil hfirstFrame
    cases hrange : MainScreen.changedRange tui.previousLines lines with
    | none =>
      obtain rfl := changedRange_none hrange
      rw [← hrows]
      refine synced_unchanged htracked hsize.1 fun row col hpos => ⟨(hspec row col hpos).1, ?_⟩
      rcases hmarker row col hpos with htop | hnil | hcols | hheights | ⟨first, last, hsome', -⟩
      · exact htop
      · exact absurd hnil hfirstFrame
      · exact absurd (hsize.1.trans hcolumns) hcols
      · exact absurd (hsize.2.trans hrows) hheights
      · cases hrange.symm.trans hsome'
    | some range =>
      obtain ⟨first, last⟩ := range
      obtain ⟨hbefore, hafter, hle, hshrink, hgrow⟩ := changedRange_some hrange
      have hreach : ∀ row col, cursorPos = some (row, col) → tui.previousViewportTop ≤ row ∨
          (if first ≥ lines.length then lines.length - 1 < tui.previousViewportTop ∨
            tui.previousLines.length - lines.length > tui.terminal.rows
          else first < tui.previousViewportTop) := by
        intro row col hpos
        rcases hmarker row col hpos with htop | hnil | hcols | hheights | ⟨f, l, hsome', hall⟩
        · exact .inl htop
        · exact absurd hnil hfirstFrame
        · exact absurd (hsize.1.trans hcolumns) hcols
        · exact absurd (hsize.2.trans hrows) hheights
        · obtain ⟨rfl, rfl⟩ := Prod.mk.inj (Option.some.inj (hrange.symm.trans hsome'))
          rw [hrows]
          exact .inr hall
      dsimp only
      by_cases hdeleted : first ≥ lines.length
      · rw [if_pos hdeleted]
        refine synced_renderDeleted htracked hdeleted hbefore ?_ fun row col hpos => ?_
        · show lines.length < tui.previousLines.length
          omega
        · obtain ⟨h₁, h₂⟩ := hspec row col hpos
          have h₃ := hreach row col hpos
          rw [if_pos hdeleted] at h₃
          exact ⟨h₁, h₂, h₃⟩
      · rw [if_neg hdeleted]
        by_cases habove : first < tui.previousViewportTop
        · rw [if_pos habove]
          exact @synced_fullRender { tui with cursorPos } lines true hcolumnsPos hrowsPos nofun
            hspec
        · rw [if_neg habove]
          have hfits := h.fits
          refine synced_renderChanged htracked (Nat.lt_of_not_le hdeleted)
            (Nat.le_of_not_lt habove) hle hbefore hafter (fun hlt => (hgrow hlt).2) ?_ ?_ ?_
          · intro happend
            obtain ⟨-, hat, hpos⟩ := of_decide_eq_true happend
            exact ⟨hat, hpos⟩
          · intro happend
            have hnot := of_decide_eq_false happend
            show first < tui.previousViewportTop + tui.terminal.rows
            omega
          · intro row col hpos
            obtain ⟨h₁, h₂⟩ := hspec row col hpos
            have h₃ := hreach row col hpos
            rw [if_neg hdeleted] at h₃
            refine ⟨h₁, h₂, ?_⟩
            show tui.previousViewportTop ≤ row
            omega

/-- **One frame.** -/
theorem synced_frame (h : Tracked tui) (hmarker : tui.MarkerReachable frame) : Synced (tui.frame frame) := by
  obtain ⟨hcolumns, hrows, hresized⟩ := h.resized frame
  apply synced_doRender hcolumns hrows
  · simpa only [resized_previousWidth, resized_previousHeight] using hresized
  · simpa only [MainScreen.MarkerReachable, MainScreen.RedrawsAll, resized_previousLines,
      resized_previousWidth, resized_previousHeight, resized_previousViewportTop] using hmarker

theorem positionHardwareCursor_row {row col totalLines : Nat} (h : row < totalLines) :
    (tui.positionHardwareCursor (some (row, col)) totalLines).hardwareCursorRow = row ∧
      (tui.positionHardwareCursor (some (row, col)) totalLines).previousViewportTop =
        tui.previousViewportTop := by
  refine ⟨?_, (positionHardwareCursor_previous _ _).2.2⟩
  unfold MainScreen.positionHardwareCursor
  dsimp only
  rw [if_neg (Nat.ne_of_gt (Nat.lt_of_le_of_lt (Nat.zero_le _) h))]
  show min row (totalLines - 1) = row
  omega

/-- Where the changes are painted the cursor row is the marker's, and the viewport does not go up. -/
theorem renderChanged_cursor {lines : List Line} {row col first last : Nat} {appendStart : Bool}
    (h : row < lines.length) :
    (tui.renderChanged lines (some (row, col)) first last appendStart).hardwareCursorRow = row ∧
      tui.previousViewportTop ≤
        (tui.renderChanged lines (some (row, col)) first last appendStart).previousViewportTop := by
  unfold MainScreen.renderChanged
  refine ⟨(positionHardwareCursor_row h).1, ?_⟩
  refine Nat.le_trans ?_ (Nat.le_of_eq (positionHardwareCursor_row h).2.symm)
  refine Nat.le_trans ?_ (Nat.le_max_left _ _)
  split
  · split
    · exact Nat.le_add_right _ _
    · exact Nat.le_refl _
  · split
    · exact Nat.le_add_right _ _
    · exact Nat.le_refl _

/-- Where deleted lines are erased the cursor row is the marker's, and the viewport stays. -/
theorem renderDeleted_cursor {lines : List Line} {row col : Nat} (h : row < lines.length)
    (hinside : tui.previousViewportTop ≤ lines.length - 1)
    (hextra : tui.previousLines.length - lines.length ≤ tui.terminal.rows) :
    (tui.renderDeleted lines (some (row, col))).hardwareCursorRow = row ∧
      (tui.renderDeleted lines (some (row, col))).previousViewportTop = tui.previousViewportTop := by
  unfold MainScreen.renderDeleted
  dsimp only
  rw [if_neg (Nat.not_lt.mpr hinside), if_neg (Nat.not_lt.mpr hextra)]
  split
  · exact positionHardwareCursor_row h
  · exact positionHardwareCursor_row h

/-- **A marker above the viewport**: the tracked cursor is put above the screen. -/
theorem frame_of_not_reachable (h : Tracked tui) (hmarker : ¬ tui.MarkerReachable frame) :
    (tui.frame frame).hardwareCursorRow < (tui.frame frame).previousViewportTop := by
  have hspec := (extractCursorPosition_spec frame.lines frame.size.rows).2
  have hlength := (extractCursorPosition_spec frame.lines frame.size.rows).1
  unfold MainScreen.MarkerReachable at hmarker
  push Not at hmarker
  obtain ⟨row, col, hpos, habove, hnot⟩ := hmarker
  unfold MainScreen.RedrawsAll at hnot
  push Not at hnot
  obtain ⟨hsome, hwidth, hheight, hrange⟩ := hnot
  have hsize : tui.previousWidth = tui.terminal.columns ∧ tui.previousHeight = tui.terminal.rows := by
    rcases h.size with hsize | ⟨hnil, -⟩
    · exact hsize
    · exact absurd hnil hsome
  have hresized : tui.resized frame = tui := by
    unfold MainScreen.resized
    rw [if_pos ⟨hwidth.symm.trans hsize.1, hheight.symm.trans hsize.2⟩]
  have hlines : tui.previousLines.length ≠ 0 := fun hzero =>
    hsome (List.length_eq_zero_iff.mp hzero)
  have hrows : tui.terminal.rows = frame.size.rows := hsize.2.symm.trans hheight
  unfold MainScreen.frame MainScreen.doRender
  rw [hresized]
  unfold Frame.rendered at hpos hrange
  dsimp only
  rw [hrows]
  generalize MainScreen.extractCursorPosition frame.lines frame.size.rows = found at *
  obtain ⟨cursorPos, lines⟩ := found
  subst hpos
  have hrow : row < lines.length := hlength ▸ (hspec row col rfl).1
  rw [if_neg fun hboth => hlines hboth.1, if_neg fun hor => hor.elim
    (fun hchanged => hchanged.2 (hsize.1 ▸ rfl)) (fun hchanged => hchanged.2 hheight)]
  cases hchanged : MainScreen.changedRange tui.previousLines lines with
  | none =>
    obtain ⟨hcursor, htop⟩ := @positionHardwareCursor_row
      { tui with cursorPos := some (row, col) } row col lines.length hrow
    exact Nat.lt_of_le_of_lt (Nat.le_of_eq hcursor) (Nat.lt_of_lt_of_eq habove htop.symm)
  | some range =>
    obtain ⟨first, last⟩ := range
    have hinside := hrange first last hchanged
    dsimp only
    by_cases hdeleted : first ≥ lines.length
    · rw [if_pos hdeleted] at hinside ⊢
      push Not at hinside
      obtain ⟨hcursor, htop⟩ := @renderDeleted_cursor
        { tui with cursorPos := some (row, col) } lines row col hrow hinside.1
        (hrows ▸ hinside.2)
      exact Nat.lt_of_le_of_lt (Nat.le_of_eq hcursor) (Nat.lt_of_lt_of_eq habove htop.symm)
    · rw [if_neg hdeleted] at hinside ⊢
      rw [if_neg hinside]
      obtain ⟨hcursor, htop⟩ := @renderChanged_cursor
        { tui with cursorPos := some (row, col) } lines row col first last
        (lines.length > tui.previousLines.length ∧ first = tui.previousLines.length ∧
          first > 0) hrow
      exact Nat.lt_of_le_of_lt (Nat.le_of_eq hcursor) (Nat.lt_of_lt_of_le habove htop)

end Frames

/-! ## The frame that is rendered

The renderer remembers what it has made of a frame, and the terminal keeps its size.
-/

section Rendered

variable {tui : MainScreen} {lines : List Line} {cursorPos : Option (Nat × Nat)} {s : Screen} {n : Nat}

theorem size_foldl {step : Screen → Line → Screen} (h : ∀ s line, (step s line).size = s.size) (rest : List Line)
    (s : Screen) : (rest.foldl step s).size = s.size := by
  induction rest generalizing s with
  | nil => rfl
  | cons line rest ih => rw [List.foldl_cons, ih, h]

@[simp] theorem size_paint {erase : Bool} : (MainScreen.paint erase s lines).size = s.size := by
  cases lines with
  | nil => rfl
  | cons line rest =>
    refine (size_foldl (fun s line => ?_) rest _).trans ?_
    · cases erase <;> simp
    · cases erase <;> rfl

@[simp] theorem size_clearRows : (MainScreen.clearRows s n).size = s.size := by
  fun_induction MainScreen.clearRows s n with
  | case1 => rfl
  | case2 => rfl
  | case3 s n ih => rw [ih, Screen.size_cursorDown, Screen.size_eraseLine, Screen.size_carriageReturn]

@[simp] theorem size_clearBelow : (MainScreen.clearBelow s n).size = s.size := by
  fun_induction MainScreen.clearBelow s n with
  | case1 => rfl
  | case2 s n ih => rw [ih, Screen.size_eraseLine, Screen.size_newLine]

@[simp] theorem size_newLines : (MainScreen.newLines s n).size = s.size := by
  fun_induction MainScreen.newLines s n with
  | case1 => rfl
  | case2 s n ih => rw [ih, Screen.size_newLine]

/-- What the renderer remembers of a frame, on a terminal of some size. -/
structure MainScreen.Remembers (tui : MainScreen) (cursorPos : Option (Nat × Nat)) (lines : List Line)
    (size : Nat × Nat) : Prop where
  previousLines : tui.previousLines = lines
  cursorPos : tui.cursorPos = cursorPos
  size : tui.terminal.size = size

theorem positionHardwareCursor_keeps :
    (tui.positionHardwareCursor cursorPos n).cursorPos = tui.cursorPos ∧
      (tui.positionHardwareCursor cursorPos n).terminal.size = tui.terminal.size := by
  unfold MainScreen.positionHardwareCursor
  split
  · exact ⟨rfl, rfl⟩
  · split
    · exact ⟨rfl, rfl⟩
    · exact ⟨rfl, by simp⟩

theorem remembers_position {width height : Nat} {size : Nat × Nat} (hsize : tui.terminal.size = size) :
    MainScreen.Remembers { tui.positionHardwareCursor cursorPos n with
      previousLines := lines
      previousWidth := width
      previousHeight := height } tui.cursorPos lines size :=
  ⟨rfl, positionHardwareCursor_keeps.1, positionHardwareCursor_keeps.2.trans hsize⟩

theorem remembers_fullRender {clear : Bool} :
    (tui.fullRender clear lines cursorPos).Remembers tui.cursorPos lines tui.terminal.size := by
  apply remembers_position
  rw [size_paint]
  cases clear <;> rfl

theorem remembers_renderDeleted :
    (tui.renderDeleted lines cursorPos).Remembers tui.cursorPos lines tui.terminal.size := by
  unfold MainScreen.renderDeleted
  dsimp only
  split
  · split
    · exact remembers_fullRender
    · split
      · exact remembers_fullRender
      · apply remembers_position
        rw [Screen.size_cursorUp, size_clearRows]
        split <;> simp
  · exact remembers_position rfl

theorem remembers_renderChanged {first last : Nat} {appendStart : Bool} :
    (tui.renderChanged lines cursorPos first last appendStart).Remembers tui.cursorPos lines tui.terminal.size := by
  unfold MainScreen.renderChanged
  dsimp only
  apply remembers_position
  split <;> split <;> split <;> (try split) <;> simp

/-- **The last frame is remembered**, whichever way it has been rendered. -/
theorem remembers_doRender (lines : List Line) : (tui.doRender lines).Remembers
    (MainScreen.extractCursorPosition lines tui.terminal.rows).1
    (MainScreen.extractCursorPosition lines tui.terminal.rows).2 tui.terminal.size := by
  unfold MainScreen.doRender
  dsimp only
  generalize MainScreen.extractCursorPosition lines tui.terminal.rows = found
  obtain ⟨cursorPos, lines⟩ := found
  split
  · exact remembers_fullRender
  split
  · exact remembers_fullRender
  split
  next hnone =>
    -- no line has changed, and the lines are those of the frame before
    obtain rfl := changedRange_none hnone
    exact ⟨positionHardwareCursor_previous _ _ |>.1, positionHardwareCursor_keeps.1, positionHardwareCursor_keeps.2⟩
  · split
    · exact remembers_renderDeleted
    · split
      · exact remembers_fullRender
      · exact remembers_renderChanged

theorem remembers_frame {frame : Frame} (hsize : (tui.resized frame).terminal.columns = frame.size.columns ∧
    (tui.resized frame).terminal.rows = frame.size.rows) : (tui.frame frame).Remembers frame.rendered.1
      frame.rendered.2 (frame.size.columns, frame.size.rows) := by
  have h := @remembers_doRender (tui.resized frame) frame.lines
  rwa [hsize.2, show (tui.resized frame).terminal.size = (frame.size.columns, frame.size.rows) from
    Prod.ext hsize.1 hsize.2] at h

end Rendered

/-! ## Runs -/

/-- What a full redraw of a frame would show: each row has its line of the frame, the tracked cursor is the
terminal's, and the cursor is at the marker of the frame if that is shown. -/
structure MainScreen.Displayed (tui : MainScreen) (frame : Frame) : Prop where
  shown : ∀ r < frame.size.rows,
    tui.terminal.content r = want frame.rendered.2 (tui.previousViewportTop + r)
  cursor : (tui.terminal.row : Int) = tui.hardwareCursorRow - tui.previousViewportTop
  marker : ∀ row col, frame.rendered.1 = some (row, col) →
    tui.previousViewportTop ≤ row → row < tui.previousViewportTop + frame.size.rows → col < frame.size.columns →
        tui.terminal.row = row - tui.previousViewportTop ∧ tui.terminal.column = col

theorem Synced.displayed {tui : MainScreen} {frame : Frame} (h : Synced tui) (hframe : tui.Remembers
    frame.rendered.1 frame.rendered.2 (frame.size.columns, frame.size.rows)) : tui.Displayed frame := by
  have hcursor := h.cursor
  obtain ⟨hcolumns, hrows⟩ := Prod.mk.inj hframe.size
  refine ⟨fun r hr => ?_, by omega, fun row col hpos _ _ hcol => ?_⟩
  · rw [h.shown r (hrows ▸ hr), hframe.previousLines]
  · obtain ⟨hrow, hcolumn⟩ := h.marker row col (hframe.cursorPos.trans hpos)
    omega

theorem synced_create (size : Size) : Synced (.create size) := by
  refine ⟨⟨fun _ _ => rfl, rfl, size.rows_pos, size.columns_pos, Nat.zero_le _, fun hne => ?_,
    fun _ => ⟨rfl, rfl, rfl⟩, .inr ⟨rfl, rfl, rfl⟩⟩, nofun⟩
  exact absurd rfl hne

/-- The renderer, and the last frame it has been given. -/
structure Rendering where
  tui : MainScreen
  frame : Option Frame

/-- A frame as a step. -/
def Rendering.step (s : Rendering) (frame : Frame) : Option Rendering := some ⟨s.tui.frame frame, some frame⟩

/-- Nothing has been rendered yet. -/
def Rendering.create (size : Size) : Rendering := ⟨.create size, none⟩

/-- The screen shows the last frame. -/
def Rendering.Displayed (s : Rendering) : Prop := ∀ frame ∈ s.frame, s.tui.Displayed frame

/-- **The invariant of a run.** -/
structure Rendering.Invariant (s : Rendering) : Prop where
  synced : Synced s.tui
  remembers : ∀ frame ∈ s.frame,
    s.tui.Remembers frame.rendered.1 frame.rendered.2 (frame.size.columns, frame.size.rows)

theorem exists_run_frames (s : Rendering) (frames : List Frame) :
    ∃ s', Transition.run Rendering.step s frames = some s' := by
  induction frames generalizing s with
  | nil => exact ⟨s, rfl⟩
  | cons frame frames ih => exact ih ⟨s.tui.frame frame, some frame⟩

/-- **The difference shows what a full redraw would show** after every frame, exactly along the runs whose
cursor markers are all below the top of the viewport where the difference is painted. -/
theorem frames_displayed_iff (size : Size) (frames : List Frame) :
    Transition.Always Rendering.step Rendering.Displayed (.create size) frames ↔
      Transition.Clean Rendering.step (fun s frame => s.tui.MarkerReachable frame) (.create size) frames := by
  obtain ⟨last, hrun⟩ := exists_run_frames (.create size) frames
  have hinit : (Rendering.create size).Invariant := ⟨synced_create size, by rintro frame ⟨⟩⟩
  refine Transition.always_iff_clean ?_ ?_ ?_ hinit hrun
  · exact fun s h frame hframe => h.synced.displayed (h.remembers frame hframe)
  · intro s frame s' h hmarker hstep
    cases hstep
    refine ⟨synced_frame h.synced.toTracked hmarker, ?_⟩
    rintro _ ⟨⟩
    obtain ⟨hcolumns, hrows, -⟩ := h.synced.toTracked.resized frame
    exact remembers_frame ⟨hcolumns, hrows⟩
  · intro s frame s' h hmarker hstep hgood
    cases hstep
    have habove := frame_of_not_reachable h.synced.toTracked hmarker
    have hcursor := (hgood frame rfl).cursor
    dsimp only at hcursor
    omega

/-- Four lines on two rows, of which the last is deleted. The marker is on the second one. -/
theorem marker_above_viewport : ∃ size frames,
    ¬ Transition.Always Rendering.step Rendering.Displayed (.create size) frames := by
  refine ⟨⟨20, 2, by decide, by decide⟩, [⟨⟨20, 2, by decide, by decide⟩,
      [⟨"a", 1, none⟩, ⟨"b", 1, none⟩, ⟨"c", 1, none⟩, ⟨"d", 1, none⟩], .blank 20 2, by decide⟩,
    ⟨⟨20, 2, by decide, by decide⟩,
      [⟨"a", 1, none⟩, ⟨"b", 1, some 1⟩, ⟨"c", 1, none⟩], .blank 20 2, by decide⟩], fun h => ?_⟩
  have hcursor := (h _ (List.prefix_refl _) _ rfl _ rfl).cursor
  revert hcursor
  decide +kernel

end Mcpi.Tui
