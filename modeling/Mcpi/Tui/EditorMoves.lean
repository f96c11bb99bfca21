import Mcpi.Tui.EditorEdits
import Mathlib.Data.List.Chain

/-!
# Moves over visual lines

The visual lines of a line cover it, so that a position in the text is on one of them. A move lands in the
text as long as the columns that it counts belong to the lines that it counts them from.
-/

namespace Mcpi.Tui

open EditorText

namespace Editor

/-! ## Visual lines -/

/-- The visual lines of one line follow one another from a column to another. -/
def Block (i : Nat) : Nat → Nat → List VisualLine → Prop
  | a, b, [] => a = b
  | a, b, vl :: rest => vl.logicalLine = i ∧ vl.startCol = a ∧ Block i (a + vl.length) b rest

/-- The visual lines of lines, from the one with number `i` on. -/
def Covers : Nat → List Text → List VisualLine → Prop
  | _, [], visualLines => visualLines = []
  | i, line :: lines, visualLines => ∃ block rest, visualLines = block ++ rest ∧ block ≠ [] ∧
      Block i 0 line.length block ∧ Covers (i + 1) lines rest

section Covers

variable {p : Platform} {i a b : Nat} {visualLines block rest : List VisualLine} {lines : List Text} {line : Text}

theorem block_of_tiles {chunks : List TextChunk} (h : Tiles a b chunks) :
    Block i a b (chunks.map fun chunk => ⟨i, chunk.startIndex, chunk.endIndex - chunk.startIndex⟩) := by
  induction chunks generalizing a with
  | nil => exact h
  | cons chunk chunks ih =>
    obtain ⟨hstart, hle, hrest⟩ := h
    refine ⟨rfl, hstart, ?_⟩
    have hend : a + (chunk.endIndex - chunk.startIndex) = chunk.endIndex := by omega
    show Block i (a + (chunk.endIndex - chunk.startIndex)) b _
    rw [hend]
    exact ih hrest

theorem visualLinesOf_block {stack width : Nat} {e : Editor} (hwidth : 0 < width)
    (h : visualLinesOf p stack e width i line = some block) : block ≠ [] ∧ Block i 0 line.length block := by
  unfold visualLinesOf at h
  split at h
  next hempty =>
    obtain rfl := Option.some.inj h
    exact ⟨List.cons_ne_nil _ _, rfl, rfl, hempty.symm⟩
  · split at h
    · obtain rfl := Option.some.inj h
      exact ⟨List.cons_ne_nil _ _, rfl, rfl, Nat.zero_add _⟩
    · obtain ⟨chunks, hchunks, rfl⟩ := Option.map_eq_some_iff.mp h
      obtain ⟨htiles, hne⟩ := wordWrapLine_tiles p hwidth stack line _ chunks (e.placed_graphemes line) hchunks
      exact ⟨fun hmap => hne (List.map_eq_nil_iff.mp hmap), block_of_tiles htiles⟩

theorem visualLinesFrom_covers {stack width : Nat} {e : Editor} (hwidth : 0 < width)
    (h : visualLinesFrom p stack e width i lines = some visualLines) : Covers i lines visualLines := by
  induction lines generalizing i visualLines with
  | nil => exact (Option.some.inj h).symm
  | cons line lines ih =>
    obtain ⟨block, hblock, h⟩ := Option.bind_eq_some_iff.mp h
    obtain ⟨rest, hrest, h⟩ := Option.bind_eq_some_iff.mp h
    obtain rfl := Option.some.inj h
    obtain ⟨hne, hcover⟩ := visualLinesOf_block hwidth hblock
    exact ⟨block, rest, rfl, hne, hcover, ih hrest⟩

variable {vl : VisualLine}

theorem Block.mem (h : Block i a b block) (hmem : vl ∈ block) :
    vl.logicalLine = i ∧ a ≤ vl.startCol ∧ vl.startCol + vl.length ≤ b := by
  induction block generalizing a with
  | nil => cases hmem
  | cons first block ih =>
    obtain ⟨hline, hstart, hrest⟩ := h
    have hle : ∀ {c : Nat} {vls : List VisualLine}, Block i c b vls → c ≤ b := by
      intro c vls hvls
      induction vls generalizing c with
      | nil => exact Nat.le_of_eq hvls
      | cons vl vls ih => exact Nat.le_trans (Nat.le_add_right _ _) (ih hvls.2.2)
    rcases List.mem_cons.mp hmem with rfl | hin
    · exact ⟨hline, Nat.le_of_eq hstart.symm, by rw [hstart]; exact hle hrest⟩
    · obtain ⟨hline', hle', hend⟩ := ih hrest hin
      exact ⟨hline', by omega, hend⟩

theorem Covers.mem (h : Covers i lines visualLines) (hmem : vl ∈ visualLines) :
    i ≤ vl.logicalLine ∧ vl.logicalLine < i + lines.length ∧
      vl.startCol + vl.length ≤ (lines.getD (vl.logicalLine - i) []).length := by
  induction lines generalizing i visualLines with
  | nil =>
    rw [show visualLines = [] from h] at hmem
    cases hmem
  | cons line lines ih =>
    obtain ⟨block, rest, rfl, -, hblock, hrest⟩ := h
    rw [List.length_cons]
    rcases List.mem_append.mp hmem with hin | hin
    · obtain ⟨rfl, -, hend⟩ := hblock.mem hin
      refine ⟨Nat.le_refl _, by omega, ?_⟩
      rw [Nat.sub_self]
      exact hend
    · obtain ⟨hle, hlt, hend⟩ := ih hrest hin
      refine ⟨by omega, by omega, ?_⟩
      rw [show vl.logicalLine - i = vl.logicalLine - (i + 1) + 1 by omega]
      exact hend

/-- A visual line that is not the first of its line starts where the one before it ends. -/
def Follows (vl next : VisualLine) : Prop :=
  next.startCol = 0 ∨ next.logicalLine = vl.logicalLine ∧ next.startCol = vl.startCol + vl.length

theorem Block.follows (h : Block i (vl.startCol + vl.length) b block)
    (hline : vl.logicalLine = i) : List.IsChain Follows (vl :: block) := by
  induction block generalizing vl with
  | nil => exact List.IsChain.singleton vl
  | cons next block ih =>
    obtain ⟨hnext, hstart, hrest⟩ := h
    rw [List.isChain_cons_cons]
    refine ⟨.inr ⟨by rw [hnext, hline], hstart⟩, ih ?_ hnext⟩
    rw [hstart]
    exact hrest

theorem Covers.head (h : Covers i lines visualLines) (hhead : vl ∈ visualLines.head?) : vl.startCol = 0 := by
  cases lines with
  | nil =>
    rw [show visualLines = [] from h] at hhead
    cases hhead
  | cons line lines =>
    obtain ⟨block, rest, rfl, hne, hblock, -⟩ := h
    cases block with
    | nil => exact absurd rfl hne
    | cons first block =>
      obtain rfl : first = vl := Option.some.inj hhead
      exact hblock.2.1

theorem Covers.follows (h : Covers i lines visualLines) : List.IsChain Follows visualLines := by
  induction lines generalizing i visualLines with
  | nil =>
    rw [show visualLines = [] from h]
    exact List.isChain_nil
  | cons line lines ih =>
    obtain ⟨block, rest, rfl, hne, hblock, hrest⟩ := h
    rw [List.isChain_append]
    refine ⟨?_, ih hrest, fun last _ next hnext => .inl (hrest.head hnext)⟩
    cases block with
    | nil => exact absurd rfl hne
    | cons first block =>
      obtain ⟨hline, hstart, htail⟩ := hblock
      rw [← hstart] at htail
      exact htail.follows hline

/-! ## The visual line of a position -/

variable {col : Int} {k : Nat}

theorem findIn_sound (h : findIn i col visualLines = some k) :
    ∃ vl, visualLines[k]? = some vl ∧ vl.logicalLine = i ∧ (vl.startCol : Int) ≤ col := by
  induction visualLines generalizing k with
  | nil => cases h
  | cons vl rest ih =>
    rw [findIn] at h
    split at h
    next hholds =>
      obtain rfl := Option.some.inj h
      obtain ⟨hline, hcol⟩ := hholds
      refine ⟨vl, rfl, hline, ?_⟩
      simp only [holdsColumn, Bool.and_eq_true, decide_eq_true_eq] at hcol
      omega
    · obtain ⟨j, hj, rfl⟩ := Option.map_eq_some_iff.mp h
      exact ih hj

theorem findIn_append (h : (findIn i col rest).isSome) : (findIn i col (block ++ rest)).isSome := by
  induction block with
  | nil => exact h
  | cons vl block ih =>
    rw [List.cons_append, findIn]
    split
    · rfl
    · rw [Option.isSome_map]
      exact ih

theorem Block.find (h : Block i a b block) (hne : block ≠ []) (hrest : ∀ next ∈ rest.head?, next.logicalLine ≠ i)
    (hge : (a : Int) ≤ col) (hle : col ≤ b) : (findIn i col (block ++ rest)).isSome := by
  induction block generalizing a with
  | nil => exact absurd rfl hne
  | cons vl block ih =>
    obtain ⟨hline, hstart, htail⟩ := h
    rw [List.cons_append, findIn]
    split
    · rfl
    next hnot =>
      rw [Option.isSome_map]
      simp only [holdsColumn, isLastSegment, hline, hstart, true_and, Bool.and_eq_true, Bool.or_eq_true,
        decide_eq_true_eq, not_and, not_or] at hnot
      obtain ⟨hbehind, hlast⟩ := hnot (by omega)
      cases block with
      | nil =>
        have hend : a + vl.length = b := htail
        refine absurd (show col - a = vl.length by omega) (hlast ?_)
        rw [List.nil_append]
        cases hhead : rest.head? with
        | none => rfl
        | some next => simpa using hrest next hhead
      | cons next block => exact ih htail (List.cons_ne_nil _ _) (by omega)

theorem Covers.find {j : Nat} (h : Covers i lines visualLines) (hle : i ≤ j) (hlt : j < i + lines.length)
    (h0 : 0 ≤ col) (hcol : col ≤ (lines.getD (j - i) []).length) : (findIn j col visualLines).isSome := by
  induction lines generalizing i visualLines with
  | nil => exact absurd hlt (Nat.not_lt_of_le hle)
  | cons line lines ih =>
    obtain ⟨block, rest, rfl, hne, hblock, hrest⟩ := h
    rw [List.length_cons] at hlt
    by_cases heq : j = i
    · subst heq
      rw [Nat.sub_self] at hcol
      apply hblock.find hne _ h0 hcol
      intro next hnext
      have := (hrest.mem (List.mem_of_mem_head? hnext)).1
      omega
    · apply findIn_append
      apply ih hrest (by omega) (by omega)
      rw [show j - i = j - (i + 1) + 1 by omega] at hcol
      exact hcol

end Covers

theorem findCurrentVisualLine_eq {e : Editor} {visualLines : List VisualLine} (h : e.state.Valid)
    (hcovers : Covers 0 e.state.lines visualLines) :
    ∃ vl, visualLines[e.findCurrentVisualLine visualLines]? = some vl ∧
      vl.logicalLine = e.state.cursorLine ∧ (vl.startCol : Int) ≤ e.state.cursorCol := by
  have hline := h.line
  have hfound : (findIn e.state.cursorLine e.state.cursorCol visualLines).isSome :=
    hcovers.find (Nat.zero_le _) (by omega) h.nonneg h.inLine
  obtain ⟨k, hk⟩ := Option.isSome_iff_exists.mp hfound
  obtain ⟨vl, hvl, hlogical, hstart⟩ := findIn_sound hk
  refine ⟨vl, ?_, hlogical, hstart⟩
  rw [findCurrentVisualLine, findVisualLineAt, hk]
  exact hvl

/-! ## Landing -/

/-- The column to go on from is not before the line. -/
def ColumnKnown (e : Editor) (visualLines : List VisualLine) (currentVL : VisualLine) : Prop :=
  ∀ col ∈ e.snappedFromCursorCol,
    ((visualLines.getD (findVisualLineAt visualLines currentVL.logicalLine col) ⟨0, 0, 0⟩).startCol : Int) ≤ col

/-- No segment goes over the start of the visual line, or its columns can be counted from the current one. -/
def Reachable (p : Platform) (e : Editor) (currentVL targetVL : VisualLine) : Prop :=
  e.snappedFromCursorCol ≠ none ∨ currentVL.startCol ≤ targetVL.startCol ∨
    ∀ seg ∈ e.graphemes p (e.state.lines.getD targetVL.logicalLine []),
      ¬(seg.index < targetVL.startCol ∧ targetVL.startCol < seg.index + seg.segment.length)

section Landing

variable {p : Platform} {e : Editor} {visualLines rest : List VisualLine} {currentVL targetVL : VisualLine}
  {sourceMaxVisualCol : Nat}

theorem computeVerticalMoveColumn_nonneg {preferred : Option Int} {current s target : Int}
    (hpreferred : ∀ col ∈ preferred, 0 ≤ col) (hcurrent : 0 ≤ current) (htarget : 0 ≤ target) :
    0 ≤ (computeVerticalMoveColumn preferred current s target).2 ∧
      ∀ col ∈ (computeVerticalMoveColumn preferred current s target).1, 0 ≤ col := by
  unfold computeVerticalMoveColumn
  cases preferred with
  | none =>
    dsimp only
    split
    · exact ⟨htarget, fun col hcol => by cases hcol; exact hcurrent⟩
    · exact ⟨hcurrent, nofun⟩
  | some column =>
    have hcolumn := hpreferred column rfl
    dsimp only
    split
    · split
      · exact ⟨htarget, fun col hcol => by cases hcol; exact hcurrent⟩
      · exact ⟨hcurrent, nofun⟩
    · split
      · exact ⟨htarget, fun col hcol => by cases hcol; exact hcolumn⟩
      · exact ⟨hcolumn, nofun⟩

/-- What stays the same while the cursor moves over visual lines. -/
structure Moved (e e' : Editor) : Prop where
  lines : e'.state.lines = e.state.lines
  pastes : e'.pastes = e.pastes
  undoStack : e'.undoStack = e.undoStack
  historyDraft : e'.historyDraft = e.historyDraft
  width : e'.lastWidth = e.lastWidth
  action : e'.lastAction = e.lastAction

theorem Moved.trans {e' e'' : Editor} (h : Moved e e') (h' : Moved e' e'') : Moved e e'' :=
  ⟨h'.lines.trans h.lines, h'.pastes.trans h.pastes, h'.undoStack.trans h.undoStack,
    h'.historyDraft.trans h.historyDraft, h'.width.trans h.width, h'.action.trans h.action⟩

/-- The cursor is in the text, and what is remembered is a column. -/
structure Landed (e : Editor) : Prop where
  state : e.state.Valid
  preferred : ∀ col ∈ e.preferredVisualCol, 0 ≤ col

theorem landOn_landed (sourceMaxVisualCol : Nat) (rest : List VisualLine) (h : e.Landed)
    (hcurrent : 0 ≤ e.currentVisualCol visualLines currentVL)
    (hline : targetVL.logicalLine < e.state.lines.length)
    (hin : targetVL.startCol ≤ (e.state.lines.getD targetVL.logicalLine []).length) :
    (e.landOn visualLines currentVL sourceMaxVisualCol targetVL rest).Landed ∧ (targetVL.startCol : Int) ≤
        (e.landOn visualLines currentVL sourceMaxVisualCol targetVL rest).state.cursorCol := by
  obtain ⟨hcol, hpreferred⟩ := computeVerticalMoveColumn_nonneg (s := sourceMaxVisualCol)
    h.preferred hcurrent (Int.natCast_nonneg (maxVisualCol targetVL rest))
  unfold landOn
  generalize computeVerticalMoveColumn _ _ _ _ = move at hcol hpreferred ⊢
  refine ⟨⟨⟨hline, h.state.clean, ?_, ?_⟩, hpreferred⟩, ?_⟩
  · show 0 ≤ min _ _
    omega
  · exact Int.min_le_right _ _
  · show (targetVL.startCol : Int) ≤ min _ _
    omega

theorem segmentAt_eq {seg : Segment} (hseg : e.segmentAt p = some seg) :
    seg ∈ e.graphemes p e.state.currentLine ∧ (seg.index : Int) ≤ e.state.cursorCol ∧
      e.state.cursorCol < seg.index + seg.segment.length := by
  have hmem := List.mem_of_find?_eq_some hseg
  have htaken := List.all_eq_true.mp List.all_takeWhile seg hmem
  have hfound := List.find?_some hseg
  simp only [Bool.and_eq_true, decide_eq_true_eq] at htaken hfound
  exact ⟨(List.takeWhile_sublist _).subset hmem, htaken, hfound.2⟩

theorem snapTo_landed {seg : Segment} (h : e.Landed) (hseg : e.segmentAt p = some seg) : (e.snapTo seg).Landed := by
  have hbefore := (segmentAt_eq hseg).2.1
  have hin := h.state.inLine
  exact ⟨h.state.moveIn (Int.natCast_nonneg _) (by omega), h.preferred⟩

/-- What a move over visual lines needs to land: the first of them that it does not pass over is reachable. -/
def Ready (p : Platform) (e : Editor) (currentVL : VisualLine) (rest : List VisualLine) :
    Option (Nat × Nat) → Prop
  | none => ∀ targetVL ∈ rest.head?, Reachable p e currentVL targetVL
  | some (logicalLine, segEnd) => (∃ vl, vl.logicalLine = logicalLine ∧ List.IsChain Follows (vl :: rest)) ∧
      (e.snappedFromCursorCol ≠ none ∨ currentVL.startCol ≤ segEnd)

theorem Ready.reachable {skip : Option (Nat × Nat)} (h : Ready p e currentVL (targetVL :: rest) skip)
    (hskip : (skip.any fun behind =>
      decide (targetVL.logicalLine = behind.1) && decide (targetVL.startCol < behind.2)) = false) :
    Reachable p e currentVL targetVL := by
  match skip with
  | none => exact h targetVL rfl
  | some (logicalLine, segEnd) =>
    obtain ⟨⟨vl, hline, hchain⟩, hstart⟩ := h
    rw [List.isChain_cons_cons] at hchain
    rcases hchain.1 with hfirst | ⟨hsame, -⟩
    · refine .inr (.inr fun seg _ hover => ?_)
      omega
    · rcases hstart with hsnapped | hle
      · exact .inl hsnapped
      · simp only [Option.any_some, Bool.and_eq_false_iff, decide_eq_false_iff_not] at hskip
        refine .inr (.inl ?_)
        omega

theorem Ready.skip {behind : Nat × Nat} (h : Ready p e currentVL (targetVL :: rest) (some behind))
    (hline : targetVL.logicalLine = behind.1) : Ready p e currentVL rest (some behind) := by
  obtain ⟨⟨vl, -, hchain⟩, hstart⟩ := h
  rw [List.isChain_cons_cons] at hchain
  exact ⟨⟨targetVL, hline, hchain.2⟩, hstart⟩

theorem moveToVisualLine_landed (isMovingDown : Bool) (skip : Option (Nat × Nat)) {e' : Editor}
    (hmove : moveToVisualLine p visualLines currentVL sourceMaxVisualCol isMovingDown skip rest e = some e')
    (h : e.Landed) (hcurrent : 0 ≤ e.currentVisualCol visualLines currentVL)
    (hin : ∀ vl ∈ rest, vl.logicalLine < e.state.lines.length ∧
      vl.startCol ≤ (e.state.lines.getD vl.logicalLine []).length)
    (hfollows : List.IsChain Follows rest) (hready : isMovingDown → Ready p e currentVL rest skip)
    (hdown : skip.isSome → isMovingDown) : e'.Landed ∧ Moved e e' := by
  induction rest generalizing skip e e' with
  | nil => cases hmove
  | cons targetVL rest ih =>
    rw [moveToVisualLine] at hmove
    have hrest := fun vl hvl => hin vl (List.mem_cons_of_mem _ hvl)
    split at hmove
    next hskip =>
      cases skip with
      | none => cases hskip
      | some behind =>
        have hline : targetVL.logicalLine = behind.1 := by
          simp only [Option.any_some, Bool.and_eq_true, decide_eq_true_eq] at hskip
          exact hskip.1
        exact ih (some behind) hmove h hcurrent hrest hfollows.tail (fun hmoving => (hready hmoving).skip hline) hdown
    next hskip =>
      obtain ⟨hlogical, hstart⟩ := hin targetVL List.mem_cons_self
      obtain ⟨hlanded, hcol⟩ := landOn_landed sourceMaxVisualCol rest h hcurrent hlogical hstart
      dsimp only at hmove
      have hmoved : Moved e (e.landOn visualLines currentVL sourceMaxVisualCol targetVL rest) :=
        ⟨rfl, rfl, rfl, rfl, rfl, rfl⟩
      have hsnapped : (e.landOn visualLines currentVL sourceMaxVisualCol targetVL rest).snappedFromCursorCol =
        e.snappedFromCursorCol := rfl
      have hcursorLine : (e.landOn visualLines currentVL sourceMaxVisualCol targetVL rest).state.cursorLine =
        targetVL.logicalLine := rfl
      generalize e.landOn visualLines currentVL sourceMaxVisualCol targetVL rest = landed
        at hmove hlanded hcol hmoved hsnapped hcursorLine
      split at hmove
      · obtain rfl := Option.some.inj hmove
        exact ⟨⟨hlanded.state, hlanded.preferred⟩, hmoved.lines, hmoved.pastes, hmoved.undoStack,
          hmoved.historyDraft, hmoved.width, hmoved.action⟩
      next seg hseg =>
        have hsnap := snapTo_landed hlanded hseg
        have hsnapMoved : Moved e (landed.snapTo seg) :=
          ⟨hmoved.lines, hmoved.pastes, hmoved.undoStack, hmoved.historyDraft, hmoved.width, hmoved.action⟩
        split at hmove
        next hcontinues =>
          rw [Bool.and_eq_true, decide_eq_true_eq] at hcontinues
          obtain ⟨hbefore, hmoving⟩ := hcontinues
          obtain ⟨hseg, -, hbehind⟩ := segmentAt_eq hseg
          have hreach := (hready hmoving).reachable (Bool.eq_false_iff.mpr hskip)
          -- the current visual line starts no later, unless the column comes from a snap
          have hstarts : e.snappedFromCursorCol ≠ none ∨ currentVL.startCol ≤ targetVL.startCol := by
            rcases hreach with hsome | hle | hnone
            · exact .inl hsome
            · exact .inr hle
            · refine absurd ⟨hbefore, ?_⟩ (hnone seg ?_)
              · rw [EditorState.currentLine, hmoved.lines, hcursorLine, graphemes, hmoved.pastes] at hseg
                exact hseg
              · omega
          have hcurrent' : 0 ≤ landed.currentVisualCol visualLines currentVL := by
            unfold currentVisualCol at hcurrent ⊢
            rw [hsnapped]
            cases hcase : e.snappedFromCursorCol with
            | none =>
              have hle := hstarts.resolve_left (fun hne => hne hcase)
              show 0 ≤ landed.state.cursorCol - currentVL.startCol
              omega
            | some col =>
              rw [hcase] at hcurrent
              exact hcurrent
          cases hnext : moveToVisualLine p visualLines currentVL sourceMaxVisualCol isMovingDown
              (some (targetVL.logicalLine, seg.index + seg.segment.length)) rest landed with
          | none =>
            rw [hnext] at hmove
            obtain rfl := Option.some.inj hmove
            exact ⟨hsnap, hsnapMoved⟩
          | some next =>
            rw [hnext] at hmove
            obtain rfl : next = e' := Option.some.inj hmove
            have hready' : Ready p landed currentVL rest
                (some (targetVL.logicalLine, seg.index + seg.segment.length)) := by
              refine ⟨⟨targetVL, rfl, hfollows⟩, ?_⟩
              rw [hsnapped]
              exact hstarts.imp_right fun hle => by omega
            obtain ⟨hresult, hmoved'⟩ := ih _ hnext hlanded hcurrent' (by rw [hmoved.lines]; exact hrest)
              hfollows.tail (fun _ => hready') (fun _ => hmoving)
            exact ⟨hresult, hmoved.trans hmoved'⟩
        · obtain rfl := Option.some.inj hmove
          exact ⟨hsnap, hsnapMoved⟩

/-- What a move from one visual line to another needs. -/
def MoveKnown (p : Platform) (e : Editor) (visualLines : List VisualLine) (targetVisualLine : Nat) : Prop :=
  ∀ currentVL ∈ visualLines[e.findCurrentVisualLine visualLines]?, ColumnKnown e visualLines currentVL ∧
    (e.findCurrentVisualLine visualLines < targetVisualLine →
      ∀ targetVL ∈ visualLines[targetVisualLine]?, Reachable p e currentVL targetVL)

theorem moveBetween_landed {targetVisualLine : Nat} (h : e.Landed) (hcovers : Covers 0 e.state.lines visualLines)
    (hknown : MoveKnown p e visualLines targetVisualLine) :
    (e.moveBetween p visualLines (e.findCurrentVisualLine visualLines) targetVisualLine).Landed ∧
      Moved e (e.moveBetween p visualLines (e.findCurrentVisualLine visualLines) targetVisualLine) := by
  obtain ⟨currentVL, hcurrentVL, hline, hstart⟩ := findCurrentVisualLine_eq h.state hcovers
  obtain ⟨hcolumn, hreach⟩ := hknown currentVL hcurrentVL
  have hcurrent : 0 ≤ e.currentVisualCol visualLines currentVL := by
    unfold currentVisualCol
    cases hsnapped : e.snappedFromCursorCol with
    | none =>
      show 0 ≤ e.state.cursorCol - currentVL.startCol
      omega
    | some col =>
      have := hcolumn col hsnapped
      show 0 ≤ col - _
      omega
  unfold moveBetween
  rw [hcurrentVL]
  dsimp only
  cases hmove : moveToVisualLine p visualLines currentVL _ _ none (visualLines.drop targetVisualLine) e with
  | none => exact ⟨h, rfl, rfl, rfl, rfl, rfl, rfl⟩
  | some e' =>
    refine moveToVisualLine_landed _ none hmove h hcurrent ?_ (hcovers.follows.drop targetVisualLine) ?_ nofun
    · intro vl hvl
      obtain ⟨-, hlt, hend⟩ := hcovers.mem (List.mem_of_mem_drop hvl)
      rw [Nat.sub_zero] at hend
      exact ⟨by omega, by omega⟩
    · intro hmoving targetVL htarget
      rw [List.head?_drop] at htarget
      exact hreach (of_decide_eq_true hmoving) targetVL htarget

theorem Inv.landed (h : e.Inv) : (e.act none).Landed := ⟨h.state, h.preferred⟩

theorem step_of_landed {e' : Editor} (h : e.Inv) (hlanded : e'.Landed) (hmoved : Moved (e.act none) e') :
    Step e e' := by
  refine Step.of h hlanded.state (.inl hmoved.undoStack) ?_ hlanded.preferred hmoved.width (yanked_of_lastAction ?_)
  · rw [hmoved.historyDraft]
    exact h.historyDraft
  · rw [hmoved.action]
    nofun

/-- What a vertical move by a line needs. -/
def VerticalKnown (p : Platform) (stack : Nat) (e : Editor) (down : Bool) : Prop :=
  ∀ visualLines ∈ buildVisualLineMap p stack e e.lastWidth,
    let currentVisualLine := e.findCurrentVisualLine visualLines
    if down then currentVisualLine + 1 < visualLines.length → MoveKnown p e visualLines (currentVisualLine + 1)
    else 0 < currentVisualLine → MoveKnown p e visualLines (currentVisualLine - 1)

/-- What a scroll by a page needs. -/
def PageKnown (p : Platform) (stack : Nat) (e : Editor) (down : Bool) (pageSize : Nat) : Prop :=
  ∀ visualLines ∈ buildVisualLineMap p stack e e.lastWidth,
    let currentVisualLine := e.findCurrentVisualLine visualLines
    MoveKnown p e visualLines
      (if down then min (visualLines.length - 1) (currentVisualLine + pageSize) else currentVisualLine - pageSize)

variable {stack : Nat}

theorem moveVertically_step (h : e.Inv) (down : Bool) (hknown : VerticalKnown p stack (e.act none) down) :
    Step e (moveVertically p stack e down) := by
  unfold moveVertically
  dsimp only
  split
  · exact act_step h
  next visualLines hmap =>
    have hcovers := visualLinesFrom_covers (p := p) h.width hmap
    have hknown := hknown visualLines hmap
    cases down with
    | true =>
      rw [if_pos rfl]
      split
      next hlt =>
        obtain ⟨hlanded, hmoved⟩ := moveBetween_landed h.landed hcovers (hknown hlt)
        exact step_of_landed h hlanded hmoved
      · exact act_step h
    | false =>
      rw [if_neg Bool.false_ne_true]
      split
      next hpos =>
        obtain ⟨hlanded, hmoved⟩ := moveBetween_landed h.landed hcovers (hknown hpos)
        exact step_of_landed h hlanded hmoved
      · exact act_step h

theorem pageScroll_step (h : e.Inv) (down : Bool) (pageSize : Nat)
    (hknown : PageKnown p stack (e.act none) down pageSize) : Step e (pageScroll p stack e down pageSize) := by
  unfold pageScroll
  dsimp only
  split
  · exact act_step h
  next visualLines hmap =>
    have hcovers := visualLinesFrom_covers (p := p) h.width hmap
    obtain ⟨hlanded, hmoved⟩ := moveBetween_landed h.landed hcovers (hknown visualLines hmap)
    exact step_of_landed h hlanded hmoved

theorem moveRight_step (h : e.Inv) : Step e (moveRight p stack e) := by
  unfold moveRight
  dsimp only
  split
  · exact act_step h
  next visualLines hmap =>
    have hcovers := visualLinesFrom_covers (p := p) h.width hmap
    split
    next hlt =>
      have hafter := (e.act none).graphemeAfter_le (p := p) h.state hlt
      have hnonneg := h.state.nonneg
      have hcol : 0 ≤ e.state.cursorCol + graphemeLength ((e.act none).graphemeAfter p) := by omega
      exact moveTo_step h h.state.line hcol hafter
    · split
      · exact toNextLine_step h
      · split
        next currentVL hcurrentVL =>
          obtain ⟨vl, hvl, -, hstart⟩ := findCurrentVisualLine_eq (e := e.act none) h.state hcovers
          obtain rfl : currentVL = vl := Option.some.inj (hcurrentVL.symm.trans hvl)
          refine Step.of h h.state (.inl rfl) h.historyDraft (fun col hcol => ?_) rfl (yanked_of_lastAction nofun)
          obtain rfl := Option.some.inj hcol
          exact Int.sub_nonneg.mpr hstart
        · exact act_step h

theorem moveLeft_step (h : e.Inv) : Step e (moveLeft p stack e) := by
  unfold moveLeft
  dsimp only
  split
  · exact act_step h
  · split
    next hpos =>
      have hbefore := (e.act none).graphemeBefore_le (p := p) h.state hpos
      have hin := h.state.inLine
      have hlength : (0 : Int) ≤ graphemeLength ((e.act none).graphemeBefore p) := Int.natCast_nonneg _
      have hcol : e.state.cursorCol - graphemeLength ((e.act none).graphemeBefore p) ≤ e.state.currentLine.length := by
        omega
      exact moveTo_step h h.state.line (Int.sub_nonneg.mpr hbefore) hcol
    · exact toPreviousLine_step h

end Landing

end Editor

end Mcpi.Tui
