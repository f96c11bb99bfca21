import Mcpi.Tui.MainScreen

/-!
# What the screen shows

After every frame the screen shows the end of the frame and the tracked cursor is the terminal's, as long
as no frame has its cursor marker above what is shown. Each way to render paints rows from one on down,
or moves the cursor inside the screen.
-/

namespace Mcpi.Tui

/-- What a row should show. -/
def want (lines : List Line) (i : Nat) : Row :=
  match lines[i]? with
  | some line => [(0, line)]
  | none => []

variable {i : Nat}

theorem want_of_le {lines : List Line} (h : lines.length ≤ i) : want lines i = [] := by
  unfold want
  rw [List.getElem?_eq_none h]

theorem want_of_some {lines : List Line} {line : Line} (h : lines[i]? = some line) : want lines i = [(0, line)] := by
  unfold want
  rw [h]

theorem want_congr {lines old : List Line} (h : lines[i]? = old[i]?) : want lines i = want old i := by
  unfold want
  rw [h]

/-! ## Painting -/

/-- The screen shows the rows from `top` on: the first `n` lines as they should be, what comes after
them as it was. The cursor is at line `c`. -/
structure Shows (columns rows : Nat) (lines old : List Line) (top n c : Nat) (s : Screen) : Prop where
  columnsEq : s.columns = columns
  rowsEq : s.rows = rows
  cursor : s.row + top = c
  inside : s.row < rows
  content : ∀ j < rows, s.content j =
    if top + j < n then want lines (top + j) else want old (top + j)

section Painting

variable {columns rows top n c : Nat} {lines old : List Line} {s : Screen}

theorem Shows.carriageReturn (h : Shows columns rows lines old top n c s) :
    Shows columns rows lines old top n c s.carriageReturn :=
  ⟨h.columnsEq, h.rowsEq, h.cursor, h.inside, h.content⟩

theorem Shows.cursorDown (h : Shows columns rows lines old top n c s) {k : Nat}
    (hk : c + k < top + rows) : Shows columns rows lines old top n (c + k) (s.cursorDown k) := by
  have hcursor := h.cursor
  have hrows := h.rowsEq
  have hrow : min (s.rows - 1) (s.row + k) = s.row + k := by omega
  refine ⟨h.columnsEq, h.rowsEq, ?_, ?_, h.content⟩
  · show min (s.rows - 1) (s.row + k) + top = c + k
    omega
  · show min (s.rows - 1) (s.row + k) < rows
    omega

theorem Shows.cursorUp (h : Shows columns rows lines old top n c s) {k : Nat} (hk : top + k ≤ c) :
    Shows columns rows lines old top n (c - k) (s.cursorUp k) := by
  have hcursor := h.cursor
  have hinside := h.inside
  refine ⟨h.columnsEq, h.rowsEq, ?_, ?_, h.content⟩
  · show s.row - k + top = c - k
    omega
  · show s.row - k < rows
    omega

theorem Shows.moveBy (h : Shows columns rows lines old top n c s) (target : Nat)
    (htop : top ≤ target) (hbottom : target < top + rows) :
    Shows columns rows lines old top n target (s.moveBy ((target : Int) - c)) := by
  unfold Screen.moveBy
  split
  next hdown =>
    have hk : c + ((target : Int) - c).toNat = target := by omega
    have hmove := h.cursorDown (k := ((target : Int) - c).toNat) (by omega)
    rwa [hk] at hmove
  · split
    next hup =>
      have hk : c - (-((target : Int) - c)).toNat = target := by omega
      have hmove := h.cursorUp (k := (-((target : Int) - c)).toNat) (by omega)
      rwa [hk] at hmove
    · have hsame : c = target := by omega
      rwa [hsame] at h

/-- A new line, which scrolls at the bottom: nothing is lost, as what was shown ends there. -/
theorem Shows.newLine (h : Shows columns rows lines old top n c s) (hn : n ≤ c + 1) (hold : old.length ≤ top + rows) :
    Shows columns rows lines old (max top (c + 2 - rows)) n (c + 1) s.newLine ∧ s.newLine.column = 0 := by
  have hcursor := h.cursor
  have hinside := h.inside
  have hrows := h.rowsEq
  unfold Screen.newLine Screen.lineFeed Screen.carriageReturn
  by_cases hroom : s.row + 1 < s.rows
  · rw [if_pos hroom]
    have htop : max top (c + 2 - rows) = top := by omega
    rw [htop]
    refine ⟨⟨h.columnsEq, h.rowsEq, ?_, ?_, h.content⟩, rfl⟩
    · show s.row + 1 + top = c + 1
      omega
    · show s.row + 1 < rows
      omega
  · rw [if_neg hroom]
    have htop : max top (c + 2 - rows) = top + 1 := by omega
    rw [htop]
    refine ⟨⟨h.columnsEq, h.rowsEq, ?_, h.inside, ?_⟩, rfl⟩
    · show s.row + (top + 1) = c + 1
      omega
    · intro j hj
      show (if j + 1 < s.rows then s.content (j + 1) else []) = _
      have hindex : top + 1 + j = top + (j + 1) := by omega
      rw [hindex]
      by_cases hnext : j + 1 < s.rows
      · rw [if_pos hnext]
        exact h.content (j + 1) (by omega)
      · rw [if_neg hnext, if_neg (by omega), want_of_le (by omega)]

theorem Shows.set (h : Shows columns rows lines old top n n s) {s' : Screen}
    (hcolumns : s'.columns = s.columns) (hrows : s'.rows = s.rows) (hrow : s'.row = s.row)
    (hset : s'.content s.row = want lines n) (hother : ∀ j, j ≠ s.row → s'.content j = s.content j) :
    Shows columns rows lines old top (n + 1) n s' := by
  have hcursor := h.cursor
  refine ⟨hcolumns.trans h.columnsEq, hrows.trans h.rowsEq, ?_, ?_, ?_⟩
  · rw [hrow]
    exact hcursor
  · rw [hrow]
    exact h.inside
  · intro j hj
    by_cases hat : j = s.row
    · subst hat
      have hindex : top + s.row = n := by omega
      rw [hset, hindex, if_pos (Nat.lt_succ_self n)]
    · rw [hother j hat, h.content j hj]
      have hiff : top + j < n ↔ top + j < n + 1 := by omega
      simp only [hiff]

theorem Shows.write (h : Shows columns rows lines old top n n s) {line : Line}
    (hline : lines[n]? = some line) (hcolumn : s.column = 0) (erase : Bool)
    (hblank : erase = false → old.length ≤ n) :
    Shows columns rows lines old top (n + 1) n ((if erase then s.eraseLine else s).write line) := by
  have hcursor := h.cursor
  cases erase with
  | true =>
    refine h.set rfl rfl rfl ?_ ?_
    · show (if s.row = s.row then (if s.row = s.row then [] else s.content s.row) ++ [(s.column, line)] else _) = _
      rw [if_pos rfl, if_pos rfl, hcolumn, want_of_some hline]
      rfl
    · intro j hj
      show (if j = s.row then _ else if j = s.row then _ else s.content j) = _
      rw [if_neg hj, if_neg hj]
  | false =>
    refine h.set rfl rfl rfl ?_ ?_
    · show (if s.row = s.row then s.content s.row ++ [(s.column, line)] else _) = _
      have hindex : top + s.row = n := by omega
      rw [if_pos rfl, h.content s.row h.inside, hindex, if_neg (Nat.lt_irrefl n),
        want_of_le (hblank rfl), hcolumn, want_of_some hline]
      rfl
    · intro j hj
      show (if j = s.row then _ else s.content j) = _
      rw [if_neg hj]

theorem Shows.eraseLine (h : Shows columns rows lines old top n n s) (hline : lines.length ≤ n) :
    Shows columns rows lines old top (n + 1) n s.eraseLine := by
  refine h.set rfl rfl rfl ?_ ?_
  · show (if s.row = s.row then [] else _) = _
    rw [if_pos rfl, want_of_le hline]
  · intro j hj
    show (if j = s.row then _ else s.content j) = _
    rw [if_neg hj]

/-- **Painting** lines one below the other. -/
theorem Shows.paintRest (rest : List Line) (erase : Bool) (h : Shows columns rows lines old top (c + 1) c s)
    (hrest : ∀ k line, rest[k]? = some line → lines[c + 1 + k]? = some line)
    (hold : old.length ≤ top + rows) (hblank : erase = false → old.length ≤ c) :
    Shows columns rows lines old (max top (c + rest.length + 1 - rows)) (c + rest.length + 1)
      (c + rest.length) (rest.foldl (fun s line =>
        ((if erase then s.newLine.eraseLine else s.newLine).write line)) s) := by
  have hcursor := h.cursor
  have hinside := h.inside
  induction rest generalizing c top s with
  | nil =>
    have htop : max top (c + ([] : List Line).length + 1 - rows) = top := by
      rw [List.length_nil]
      omega
    rw [htop]
    exact h
  | cons line rest ih =>
    obtain ⟨hnext, hcolumn⟩ := h.newLine (Nat.le_refl _) hold
    have hline : lines[c + 1]? = some line := hrest 0 line rfl
    have hwrite := hnext.write hline hcolumn erase fun he => Nat.le_succ_of_le (hblank he)
    have hlater := ih hwrite (fun k l hl => by
      have hk := hrest (k + 1) l hl
      rwa [show c + 1 + (k + 1) = c + 1 + 1 + k by omega] at hk) (by omega)
      (fun he => Nat.le_succ_of_le (hblank he)) hwrite.cursor hwrite.inside
    have hlength : c + (line :: rest).length = c + 1 + rest.length := by
      rw [List.length_cons]
      omega
    have htop : max top (c + (line :: rest).length + 1 - rows) =
        max (max top (c + 2 - rows)) (c + 1 + rest.length + 1 - rows) := by
      rw [hlength]
      omega
    rw [htop, hlength, List.foldl_cons]
    exact hlater

theorem Shows.clearBelow (k : Nat) (h : Shows columns rows lines old top (c + 1) c s)
    (hlines : lines.length ≤ c + 1) (hold : old.length ≤ top + rows) (hroom : c + k < top + rows) :
    Shows columns rows lines old top (c + k + 1) (c + k) (MainScreen.clearBelow s k) := by
  induction k generalizing c s with
  | zero => exact h
  | succ k ih =>
    obtain ⟨hnext, -⟩ := h.newLine (Nat.le_refl _) hold
    have htop : max top (c + 2 - rows) = top := by omega
    rw [htop] at hnext
    have hlater := ih (hnext.eraseLine hlines) (Nat.le_succ_of_le hlines) (by omega)
    rw [show c + (k + 1) = c + 1 + k by omega]
    exact hlater

theorem Shows.clearRows (k : Nat) (h : Shows columns rows lines old top n n s)
    (hlines : lines.length ≤ n) (hroom : n + k < top + rows) :
    Shows columns rows lines old top (n + k + 1) (n + k) (MainScreen.clearRows s (k + 1)) ∧
      (MainScreen.clearRows s (k + 1)).column = 0 := by
  induction k generalizing n s with
  | zero => exact ⟨h.carriageReturn.eraseLine hlines, rfl⟩
  | succ k ih =>
    have herased := h.carriageReturn.eraseLine hlines
    have hdown := herased.cursorDown (k := 1) (by omega)
    have hlater := ih hdown (Nat.le_succ_of_le hlines) (by omega)
    rw [show n + (k + 1) = n + 1 + k by omega]
    exact hlater

/-- The screen shows the lines, where what has not been painted was there before. -/
theorem Shows.all (h : Shows columns rows lines old top n c s) (hsame : ∀ i, n ≤ i → lines[i]? = old[i]?) :
    ∀ j < rows, s.content j = want lines (top + j) := by
  intro j hj
  rw [h.content j hj]
  split
  · rfl
  next hlate => exact (want_congr (hsame (top + j) (Nat.le_of_not_lt hlate))).symm

end Painting

/-! ## Frames -/

/-- The screen shows the last frame from the tracked viewport on, and the tracked cursor is where the
cursor is. -/
structure Tracked (tui : MainScreen) : Prop where
  shown : ∀ j < tui.terminal.rows, tui.terminal.content j = want tui.previousLines (tui.previousViewportTop + j)
  cursor : tui.terminal.row + tui.previousViewportTop = tui.hardwareCursorRow
  inside : tui.terminal.row < tui.terminal.rows
  columns_pos : 0 < tui.terminal.columns
  fits : tui.previousLines.length ≤ tui.previousViewportTop + tui.terminal.rows
  below : tui.previousLines ≠ [] → tui.previousViewportTop < tui.previousLines.length
  empty : tui.previousLines = [] → tui.previousViewportTop = 0 ∧ tui.terminal.row = 0 ∧ tui.terminal.column = 0
  size : (tui.previousWidth = tui.terminal.columns ∧ tui.previousHeight = tui.terminal.rows) ∨
    (tui.previousLines = [] ∧ tui.previousWidth = 0 ∧ tui.previousHeight = 0)

/-- **The invariant**: so is the cursor marker, if the last frame has one. -/
structure Synced (tui : MainScreen) : Prop extends Tracked tui where
  marker : ∀ row col, tui.cursorPos = some (row, col) → tui.terminal.row + tui.previousViewportTop = row ∧
      tui.terminal.column = min col (tui.terminal.columns - 1)

section Frames

variable {tui : MainScreen} {lines : List Line} {cursorPos : Option (Nat × Nat)}

theorem extractCursorPosition_spec (lines : List Line) (height : Nat) :
    (MainScreen.extractCursorPosition lines height).2.length = lines.length ∧
      ∀ row col, (MainScreen.extractCursorPosition lines height).1 = some (row, col) →
        row < lines.length ∧ lines.length - height ≤ row := by
  unfold MainScreen.extractCursorPosition
  split
  · exact ⟨rfl, nofun⟩
  next found hfound =>
    refine ⟨List.length_modify _ _ _, ?_⟩
    intro row col hpos
    obtain ⟨col', -, hpair⟩ := Option.map_eq_some_iff.mp hpos
    obtain ⟨rfl, -⟩ := Prod.mk.inj hpair
    have hmem := List.mem_of_find?_eq_some hfound
    rw [List.mem_reverse, List.mem_range] at hmem
    have hcond := List.find?_some hfound
    rw [Bool.and_eq_true, decide_eq_true_iff] at hcond
    exact ⟨hmem, hcond.1⟩

/-- What a frame comes to when its rows have been painted: the cursor goes to the marker. -/
theorem synced_position (painted : MainScreen) {columns rows : Nat}
    (hshows : Shows columns rows lines lines painted.previousViewportTop 0 painted.hardwareCursorRow painted.terminal)
    (hcolumns : 0 < columns) (hfits : lines.length ≤ painted.previousViewportTop + rows)
    (hbelow : lines ≠ [] → painted.previousViewportTop < lines.length)
    (hempty : lines = [] → painted.previousViewportTop = 0 ∧ painted.terminal.row = 0 ∧ painted.terminal.column = 0)
    (hmarker : ∀ row col, painted.cursorPos = some (row, col) →
      row < lines.length ∧ painted.previousViewportTop ≤ row) :
    Synced { painted.positionHardwareCursor painted.cursorPos lines.length with
      previousLines := lines
      previousWidth := painted.terminal.columns
      previousHeight := rows } := by
  have hcontent : ∀ {c : Nat} {s : Screen},
      Shows columns rows lines lines painted.previousViewportTop 0 c s → ∀ j < s.rows,
        s.content j = want lines (painted.previousViewportTop + j) := by
    intro c s hs j hj
    exact hs.all (fun _ _ => rfl) j (hs.rowsEq ▸ hj)
  cases hpos : painted.cursorPos with
  | none =>
    -- without a marker the cursor stays where it is
    have hcursor := hshows.cursor
    refine ⟨⟨?_, hcursor, ?_, ?_, ?_, hbelow, hempty, .inl ⟨rfl, hshows.rowsEq.symm⟩⟩, ?_⟩
    · exact hcontent hshows
    · show painted.terminal.row < painted.terminal.rows
      rw [hshows.rowsEq]
      exact hshows.inside
    · show 0 < painted.terminal.columns
      rw [hshows.columnsEq]
      exact hcolumns
    · show lines.length ≤ painted.previousViewportTop + painted.terminal.rows
      rw [hshows.rowsEq]
      exact hfits
    · intro row col hfound
      cases hpos.symm.trans hfound
  | some pos =>
    obtain ⟨row, col⟩ := pos
    obtain ⟨hrow, htop⟩ := hmarker row col hpos
    have hlines : lines.length ≠ 0 := by omega
    have htarget : min row (lines.length - 1) = row := by omega
    -- the row of the marker is on the screen, and the cursor moves there
    have hmoved := hshows.moveBy row htop (by omega)
    have hposition : painted.positionHardwareCursor (some (row, col)) lines.length =
        { painted with
          terminal := (painted.terminal.moveBy ((row : Int) - painted.hardwareCursorRow)).cursorColumn col
          hardwareCursorRow := row } := by
      unfold MainScreen.positionHardwareCursor
      dsimp only
      rw [if_neg hlines, htarget]
    rw [hposition]
    have hcursor := hmoved.cursor
    refine ⟨⟨?_, hcursor, ?_, ?_, ?_, hbelow, fun hnil => ?_, .inl ⟨?_, hmoved.rowsEq.symm⟩⟩, ?_⟩
    · intro j hj
      exact hcontent hmoved j hj
    · show (painted.terminal.moveBy _).row < (painted.terminal.moveBy _).rows
      rw [hmoved.rowsEq]
      exact hmoved.inside
    · show 0 < (painted.terminal.moveBy _).columns
      rw [hmoved.columnsEq]
      exact hcolumns
    · show lines.length ≤ painted.previousViewportTop + (painted.terminal.moveBy _).rows
      rw [hmoved.rowsEq]
      exact hfits
    · have hlength : lines.length = 0 := congrArg List.length hnil
      exact absurd hlength hlines
    · show painted.terminal.columns = (painted.terminal.moveBy _).columns
      rw [hmoved.columnsEq, hshows.columnsEq]
    · intro row' col' hfound
      obtain ⟨rfl, rfl⟩ := Prod.mk.inj (Option.some.inj (hpos.symm.trans hfound))
      exact ⟨hcursor, rfl⟩

/-- A screen that shows all lines, wherever they have been painted from. -/
theorem Shows.whole {columns rows top n c : Nat} {old : List Line} {s : Screen}
    (h : Shows columns rows lines old top n c s) (hsame : ∀ i, n ≤ i → lines[i]? = old[i]?) :
    Shows columns rows lines lines top 0 c s := by
  refine ⟨h.columnsEq, h.rowsEq, h.cursor, h.inside, fun j hj => ?_⟩
  rw [h.all hsame j hj, if_neg (Nat.not_lt_zero _)]

/-- **The whole frame** is written to a blank screen. -/
theorem synced_fullRender (clear : Bool) (hcolumns : 0 < tui.terminal.columns) (hrows : 0 < tui.terminal.rows)
    (hblank : clear = false → tui.terminal.row = 0 ∧ tui.terminal.column = 0 ∧
      ∀ j < tui.terminal.rows, tui.terminal.content j = [])
    (hmarker : ∀ row col, tui.cursorPos = some (row, col) →
      row < lines.length ∧ lines.length - tui.terminal.rows ≤ row) :
    Synced (tui.fullRender clear lines tui.cursorPos) := by
  -- the screen to begin with
  have hstart : ∃ s, (if clear then tui.terminal.clear else tui.terminal) = s ∧ s.column = 0 ∧
      s.row = 0 ∧ Shows tui.terminal.columns tui.terminal.rows lines [] 0 0 0 s := by
    cases clear with
    | true =>
      refine ⟨_, rfl, rfl, rfl, rfl, rfl, rfl, hrows, fun j hj => ?_⟩
      rw [if_neg (Nat.not_lt_zero _)]
      rfl
    | false =>
      obtain ⟨hrow, hcolumn, hcontent⟩ := hblank rfl
      refine ⟨_, rfl, hcolumn, hrow, rfl, rfl, hrow, ?_, fun j hj => ?_⟩
      · show tui.terminal.row < tui.terminal.rows
        rw [hrow]
        exact hrows
      · show tui.terminal.content j = _
        rw [hcontent j hj, if_neg (Nat.not_lt_zero _)]
        rfl
  obtain ⟨s, hs, hcolumn, hrow, hshows⟩ := hstart
  have hpainted : ∃ n, lines.length ≤ n ∧ Shows tui.terminal.columns tui.terminal.rows lines []
      (max tui.terminal.rows lines.length - tui.terminal.rows) n (lines.length - 1)
      (MainScreen.paint false s lines) := by
    cases hcase : lines with
    | nil =>
      rw [hcase] at hshows
      have htop : max tui.terminal.rows ([] : List Line).length - tui.terminal.rows = 0 := by
        rw [List.length_nil]
        omega
      rw [htop]
      exact ⟨0, Nat.le_refl _, hshows⟩
    | cons line rest =>
      rw [hcase] at hshows
      have hwrite := hshows.write (show (line :: rest)[0]? = some line from rfl) hcolumn false fun _ => Nat.le_refl _
      have hrest := hwrite.paintRest rest false (fun k l hl => by
        rw [show 0 + 1 + k = k + 1 by omega]
        exact hl) (Nat.zero_le _) fun _ => Nat.zero_le _
      have htop : max tui.terminal.rows (line :: rest).length - tui.terminal.rows =
          max 0 (0 + rest.length + 1 - tui.terminal.rows) := by
        rw [List.length_cons]
        omega
      have hlast : (line :: rest).length - 1 = 0 + rest.length := by
        rw [List.length_cons]
        omega
      rw [htop, hlast]
      refine ⟨0 + rest.length + 1, ?_, hrest⟩
      rw [List.length_cons]
      omega
  obtain ⟨n, hn, hall⟩ := hpainted
  have hwhole := hall.whole fun i hi => by
    rw [List.getElem?_eq_none (Nat.le_trans hn hi)]
    rfl
  have hpos := synced_position ({ tui with
      terminal := MainScreen.paint false s lines
      cursorRow := lines.length - 1
      hardwareCursorRow := lines.length - 1
      maxLinesRendered := if clear then lines.length else max tui.maxLinesRendered lines.length
      previousViewportTop := max tui.terminal.rows lines.length - tui.terminal.rows })
    hwhole hcolumns (by dsimp only; omega) (fun hne => by
      have hlength := List.length_pos_iff.mpr hne
      dsimp only
      omega) (fun hnil => by
      subst hnil
      dsimp only
      refine ⟨?_, hrow, hcolumn⟩
      rw [List.length_nil]
      omega) (fun row col hfound => by
      obtain ⟨h₁, h₂⟩ := hmarker row col hfound
      refine ⟨h₁, ?_⟩
      dsimp only
      omega)
  unfold MainScreen.fullRender
  rw [hs]
  exact hpos

end Frames


/-! ## Differences -/

section Differences

variable {previousLines lines : List Line} {first last : Nat}

theorem find?_reverse_range {p : Nat → Bool} {n i : Nat} (h : (List.range n).reverse.find? p = some i) :
    p i = true ∧ i < n ∧ ∀ j, i < j → j < n → p j = false := by
  induction n with
  | zero => cases h
  | succ n ih =>
    rw [List.range_succ, List.reverse_concat, List.find?_cons] at h
    cases hp : p n with
    | true =>
      rw [hp] at h
      obtain rfl := Option.some.inj h
      exact ⟨hp, Nat.lt_succ_self _, fun j hj hj' => absurd hj' (by omega)⟩
    | false =>
      rw [hp] at h
      obtain ⟨hi, hlt, hlate⟩ := ih h
      refine ⟨hi, Nat.lt_succ_of_lt hlt, fun j hj hj' => ?_⟩
      rcases Nat.lt_succ_iff_lt_or_eq.mp hj' with hlt' | rfl
      · exact hlate j hj hlt'
      · exact hp

theorem same_of_not_changed (h : MainScreen.changed previousLines lines i = false) : lines[i]? = previousLines[i]? := by
  exact (Decidable.not_not.mp (of_decide_eq_false h)).symm

theorem same_of_max_le (h : max lines.length previousLines.length ≤ i) : lines[i]? = previousLines[i]? := by
  rw [List.getElem?_eq_none (by omega), List.getElem?_eq_none (by omega)]

theorem changedRange_none (h : MainScreen.changedRange previousLines lines = none) : lines = previousLines := by
  unfold MainScreen.changedRange at h
  split at h
  · cases h
  · rw [Option.map_eq_none_iff, List.find?_eq_none] at h
    refine List.ext_getElem? fun i => ?_
    rcases Nat.lt_or_ge i (max lines.length previousLines.length) with hlt | hge
    · exact same_of_not_changed (Bool.eq_false_iff.mpr (h i (List.mem_range.mpr hlt)))
    · exact same_of_max_le hge

/-- **The changed range**: outside of it nothing has changed. -/
theorem changedRange_some (h : MainScreen.changedRange previousLines lines = some (first, last)) :
    (∀ i, i < first → lines[i]? = previousLines[i]?) ∧ (∀ i, last < i → lines[i]? = previousLines[i]?) ∧ first ≤ last ∧
      (lines.length ≤ previousLines.length → first < previousLines.length) ∧
      (previousLines.length < lines.length →
        first ≤ previousLines.length ∧ last = lines.length - 1) := by
  unfold MainScreen.changedRange at h
  have hbefore : ∀ found, (List.range (max lines.length previousLines.length)).find?
      (MainScreen.changed previousLines lines) = some found → found < max lines.length previousLines.length ∧
          MainScreen.changed previousLines lines found = true ∧
          ∀ i, i < found → lines[i]? = previousLines[i]? := by
    intro found hfound
    obtain ⟨hp, hmem, hnone⟩ := List.find?_range_eq_some.mp hfound
    refine ⟨List.mem_range.mp hmem, hp, fun i hi => ?_⟩
    exact same_of_not_changed (by simpa using hnone i hi)
  split at h
  next happended =>
    obtain ⟨rfl, rfl⟩ := Prod.mk.inj (Option.some.inj h)
    have hlate : ∀ i, lines.length - 1 < i → lines[i]? = previousLines[i]? :=
      fun i hi => same_of_max_le (by omega)
    cases hfound : (List.range (max lines.length previousLines.length)).find?
        (MainScreen.changed previousLines lines) with
    | none =>
      -- the first line that has been appended has changed
      rw [List.find?_eq_none] at hfound
      have hsame := same_of_not_changed (Bool.eq_false_iff.mpr
        (hfound previousLines.length (List.mem_range.mpr (by omega))))
      rw [List.getElem?_eq_none (Nat.le_refl _), List.getElem?_eq_none_iff] at hsame
      omega
    | some found =>
      obtain ⟨hlt, -, hearly⟩ := hbefore found hfound
      have hle : found ≤ previousLines.length := by
        refine Nat.le_of_not_lt fun hgt => ?_
        have hsame := hearly previousLines.length hgt
        rw [List.getElem?_eq_none (Nat.le_refl _), List.getElem?_eq_none_iff] at hsame
        omega
      show (∀ i, i < found → _) ∧ _ ∧ found ≤ _ ∧ (_ → found < _) ∧ (_ → found ≤ _ ∧ _)
      exact ⟨hearly, hlate, by omega, fun hle' => by omega, fun _ => ⟨hle, rfl⟩⟩
  next hnot =>
    obtain ⟨found, hfound, hpair⟩ := Option.map_eq_some_iff.mp h
    obtain ⟨rfl, hlast⟩ := Prod.mk.inj hpair
    obtain ⟨hlt, hchanged, hearly⟩ := hbefore found hfound
    cases hlastFound : (List.range (max lines.length previousLines.length)).reverse.find?
        (MainScreen.changed previousLines lines) with
    | none =>
      rw [List.find?_eq_none] at hlastFound
      exact absurd hchanged (hlastFound found (List.mem_reverse.mpr (List.mem_range.mpr hlt)))
    | some found' =>
      obtain ⟨-, hlt', hlate⟩ := find?_reverse_range hlastFound
      rw [hlastFound] at hlast
      obtain rfl : found' = last := hlast
      refine ⟨hearly, fun i hi => ?_, ?_, fun _ => by omega, fun hgt => absurd hgt hnot⟩
      · rcases Nat.lt_or_ge i (max lines.length previousLines.length) with hin | hout
        · exact same_of_not_changed (hlate i hi hin)
        · exact same_of_max_le hout
      · refine Nat.le_of_not_lt fun hgt => ?_
        have hfalse := hlate found hgt hlt
        rw [hchanged] at hfalse
        cases hfalse

end Differences

section Rendering

variable {tui : MainScreen} {lines : List Line} {first last : Nat}

theorem Tracked.shows (h : Tracked tui) (hsame : ∀ i, i < first → lines[i]? = tui.previousLines[i]?) :
    Shows tui.terminal.columns tui.terminal.rows lines tui.previousLines tui.previousViewportTop first
      tui.hardwareCursorRow tui.terminal := by
  refine ⟨rfl, rfl, h.cursor, h.inside, fun j hj => ?_⟩
  rw [h.shown j hj]
  split
  next hlt => exact (want_congr (hsame _ hlt)).symm
  · rfl

/-- **Lines have been deleted** at the end. -/
theorem synced_renderDeleted (h : Tracked tui) (hfirst : lines.length ≤ first)
    (hbefore : ∀ i, i < first → lines[i]? = tui.previousLines[i]?)
    (hdeleted : lines.length < tui.previousLines.length)
    (hmarker : ∀ row col, tui.cursorPos = some (row, col) →
      row < lines.length ∧ lines.length - tui.terminal.rows ≤ row ∧
        (tui.previousViewportTop ≤ row ∨ lines.length - 1 < tui.previousViewportTop ∨
          tui.terminal.rows < tui.previousLines.length - lines.length)) :
    Synced (tui.renderDeleted lines tui.cursorPos) := by
  have hrows : 0 < tui.terminal.rows := Nat.lt_of_le_of_lt (Nat.zero_le _) h.inside
  have hfull : Synced (tui.fullRender true lines tui.cursorPos) :=
    synced_fullRender true h.columns_pos hrows nofun fun row col hpos => by
      obtain ⟨h₁, h₂, -⟩ := hmarker row col hpos
      exact ⟨h₁, h₂⟩
  unfold MainScreen.renderDeleted
  rw [if_pos hdeleted]
  split
  · exact hfull
  next htop =>
    split
    · exact hfull
    next hextra =>
      have hfits := h.fits
      have hbelow : lines = [] → tui.previousViewportTop = 0 := by
        intro hnil
        rw [hnil] at htop
        simpa using htop
      have hsame : ∀ i, i < lines.length → lines[i]? = tui.previousLines[i]? :=
        fun i hi => hbefore i (by omega)
      have hstart := (h.shows hsame).moveBy (lines.length - 1) (by omega) (by omega)
      -- the cursor goes below the last line that stays
      have hcleared : ∀ s, Shows tui.terminal.columns tui.terminal.rows lines tui.previousLines
          tui.previousViewportTop lines.length (lines.length - 1) s →
          Shows tui.terminal.columns tui.terminal.rows lines tui.previousLines
            tui.previousViewportTop lines.length lines.length
            (if (if lines.length = 0 then 0 else 1) > 0 then
              s.cursorDown (if lines.length = 0 then 0 else 1) else s) := by
        intro s hs
        by_cases hzero : lines.length = 0
        · rw [if_pos hzero, if_neg (Nat.lt_irrefl 0)]
          rw [hzero] at hs ⊢
          exact hs
        · rw [if_neg hzero, if_pos Nat.one_pos]
          have hdown := hs.cursorDown (k := 1) (by omega)
          rwa [Nat.sub_add_cancel (Nat.pos_of_ne_zero hzero)] at hdown
      have hat := hcleared _ hstart.carriageReturn
      obtain ⟨k, hk⟩ : ∃ k, tui.previousLines.length - lines.length = k + 1 :=
        ⟨tui.previousLines.length - lines.length - 1, by omega⟩
      obtain ⟨hrowsCleared, hcolumn⟩ := hat.clearRows k (Nat.le_refl _) (by omega)
      rw [hk]
      have hup := hrowsCleared.cursorUp (k := k + 1 - 1 + (if lines.length = 0 then 0 else 1)) (by
          by_cases hzero : lines.length = 0
          · have hnil := hbelow (List.length_eq_zero_iff.mp hzero)
            rw [if_pos hzero]
            omega
          · rw [if_neg hzero]
            omega)
      have hcursor : lines.length + k - (k + 1 - 1 + (if lines.length = 0 then 0 else 1)) = lines.length - 1 := by
        split <;> omega
      rw [hcursor] at hup
      have hwhole := hup.whole fun i hi => by
        rw [List.getElem?_eq_none (by omega), List.getElem?_eq_none (by omega)]
      refine synced_position { tui with
        terminal := _, cursorRow := lines.length - 1, hardwareCursorRow := lines.length - 1 }
        hwhole h.columns_pos ?_ ?_ ?_ ?_
      · show lines.length ≤ tui.previousViewportTop + tui.terminal.rows
        omega
      · intro hne
        have hlength := List.length_pos_iff.mpr hne
        show tui.previousViewportTop < lines.length
        omega
      · intro hnil
        have hzero : lines.length = 0 := congrArg List.length hnil
        have hviewport := hbelow hnil
        refine ⟨hviewport, Nat.le_zero.mp ?_, hcolumn⟩
        have hrow := Nat.le_of_eq hwhole.cursor
        exact Nat.le_trans (Nat.le_add_right _ _) (Nat.le_trans hrow (by omega))
      · intro row col hpos
        obtain ⟨h₁, -, h₄⟩ := hmarker row col hpos
        refine ⟨h₁, ?_⟩
        show tui.previousViewportTop ≤ row
        omega

end Rendering

end Mcpi.Tui
