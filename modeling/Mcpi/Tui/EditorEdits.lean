import Mcpi.Tui.Editor

/-!
# Edits keep the cursor in the text

What every operation has to keep, and that those keep it which do not move over visual lines. The only one
that needs more is the deletion of a paste marker, which numbers other markers anew.
-/

namespace Mcpi.Tui

namespace EditorText

/-! ## Slices and lines -/

section Slices

variable {text : Text} {k : Int}

theorem not_mem_sliceTo (h : newline ∉ text) (k : Int) : newline ∉ sliceTo text k := by
  unfold sliceTo
  split
  · exact fun hmem => h (List.mem_of_mem_take hmem)
  · exact fun hmem => h (List.mem_of_mem_take hmem)

theorem not_mem_sliceFrom (h : newline ∉ text) (k : Int) : newline ∉ sliceFrom text k := by
  unfold sliceFrom
  split
  · exact fun hmem => h (List.mem_of_mem_drop hmem)
  · exact fun hmem => h (List.mem_of_mem_drop hmem)

theorem length_sliceTo (h0 : 0 ≤ k) (hle : k ≤ text.length) : ((sliceTo text k).length : Int) = k := by
  unfold sliceTo
  rw [if_neg (by omega), List.length_take]
  omega

theorem length_sliceFrom (h0 : 0 ≤ k) (hle : k ≤ text.length) :
    ((sliceFrom text k).length : Int) = text.length - k := by
  unfold sliceFrom
  rw [if_neg (by omega), List.length_drop]
  omega

end Slices

section SplitLines

variable {text : Text}

theorem splitLines_ne_nil (text : Text) : splitLines text ≠ [] := by
  cases text with
  | nil => exact List.cons_ne_nil _ _
  | cons u text =>
    rw [splitLines]
    split
    · exact List.cons_ne_nil _ _
    · split <;> exact List.cons_ne_nil _ _

theorem splitLines_clean (text : Text) : ∀ line ∈ splitLines text, newline ∉ line := by
  induction text with
  | nil =>
    intro line hline
    rw [List.mem_singleton.mp hline]
    exact List.not_mem_nil
  | cons u text ih =>
    intro line hline
    rw [splitLines] at hline
    split at hline
    · rcases List.mem_cons.mp hline with rfl | hrest
      · exact List.not_mem_nil
      · exact ih line hrest
    next hu =>
      split at hline
      · rw [List.mem_singleton.mp hline, List.mem_singleton]
        exact Ne.symm hu
      next first rest hsplit =>
        rw [hsplit] at ih
        rcases List.mem_cons.mp hline with rfl | hrest
        · intro hmem
          rcases List.mem_cons.mp hmem with hnew | hfirst
          · exact hu hnew.symm
          · exact ih first (by simp) hfirst
        · exact ih line (by simp [hrest])

end SplitLines

/-! ## Markers hold no line break -/

section Markers

variable {text suffix : Text}

theorem newline_not_mem_decimal (n : Nat) : newline ∉ units (toString n) := by
  intro hmem
  obtain ⟨c, hc, hunit⟩ := List.mem_map.mp hmem
  rw [show toString n = n.repr from rfl, Nat.toList_repr] at hc
  have hdigit := Nat.isDigit_of_mem_toDigits (by decide) (by decide) hc
  have hrange : 48 ≤ c.toNat ∧ c.toNat ≤ 57 := by
    simpa [Char.isDigit, UInt32.le_iff_toNat_le] using hdigit
  have hval := congrArg UInt16.toNat hunit
  rw [show unit c = UInt16.ofNat c.toNat from rfl, UInt16.toNat_ofNat'] at hval
  change c.toNat % 2 ^ 16 = 10 at hval
  omega

theorem countOf_clean {word : Text} (hword : newline ∉ word) (h : countOf word text = some suffix) :
    newline ∉ suffix := by
  obtain ⟨-, h⟩ := Option.ite_none_right_eq_some.mp h
  obtain rfl := Option.some.inj h
  intro hmem
  rcases List.mem_append.mp hmem with hdigits | hin
  · have hdigit := List.all_eq_true.mp List.all_takeWhile newline hdigits
    exact absurd hdigit (by decide)
  · exact hword hin

theorem suffixMatch_clean (h : suffixMatch text = some suffix) : newline ∉ suffix := by
  unfold suffixMatch at h
  split at h
  · obtain ⟨count, hcount, rfl⟩ := Option.map_eq_some_iff.mp h
    have hclean := countOf_clean (by decide) hcount
    intro hmem
    rcases List.mem_append.mp hmem with hhead | hin
    · exact absurd hhead (by decide)
    · exact hclean hin
  · split at h
    · obtain ⟨count, hcount, rfl⟩ := Option.map_eq_some_iff.mp h
      have hclean := countOf_clean (by decide) hcount
      intro hmem
      rcases List.mem_cons.mp hmem with hhead | hin
      · exact absurd hhead (by decide)
      · exact hclean hin
    · cases h

theorem matchMarker_suffix {marker : MarkerMatch} (h : matchMarker text = some marker) :
    newline ∉ marker.suffix.getD [] := by
  unfold matchMarker at h
  dsimp only at h
  split at h
  · split at h
    · obtain rfl := Option.some.inj h
      show newline ∉ (suffixMatch _).getD []
      cases hsuffix : suffixMatch _ with
      | none => exact List.not_mem_nil
      | some suffix => exact suffixMatch_clean hsuffix
    · cases h
  · cases h

theorem replaceMarkers_clean {replace : Text → MarkerMatch → Text}
    (hreplace : ∀ text marker, matchMarker text = some marker → newline ∉ text.take marker.length →
      newline ∉ replace (text.take marker.length) marker)
    (skip : Nat) (h : newline ∉ text) : newline ∉ replaceMarkers replace skip text := by
  induction text generalizing skip with
  | nil => cases skip <;> exact List.not_mem_nil
  | cons u text ih =>
    have hu : newline ≠ u := fun heq => h (by simp [heq])
    have htext : newline ∉ text := fun hmem => h (by simp [hmem])
    cases skip with
    | succ skip => exact ih skip htext
    | zero =>
      rw [replaceMarkers]
      split
      next marker hmarker =>
        intro hmem
        rcases List.mem_append.mp hmem with hfirst | hrest
        · exact hreplace _ _ hmarker (fun hin => h (List.mem_of_mem_take hin)) hfirst
        · exact ih _ htext hrest
      · intro hmem
        rcases List.mem_cons.mp hmem with heq | hrest
        · exact hu heq
        · exact ih 0 htext hrest

end Markers

end EditorText

open EditorText

theorem Editor.renumberLine_clean (p : Platform) (targetId : Nat) {line : Text} (h : newline ∉ line) :
    newline ∉ renumberLine p targetId line := by
  apply replaceMarkers_clean _ 0 h
  intro text marker hmarker htake
  unfold renumberMarker
  split
  · exact htake
  · have hsuffix : newline ∉ marker.suffix.getD (units "undefined") := by
      have hclean := matchMarker_suffix hmarker
      cases hcase : marker.suffix with
      | none => decide
      | some suffix => rwa [hcase] at hclean
    have hnumber : newline ∉ (if marker.id ≤ 2 ^ 53 then units (toString (marker.id - 1))
        else p.predecessor marker.id) := by
      split
      · exact newline_not_mem_decimal _
      · exact p.predecessor_clean _
    simp only [List.mem_append, not_or]
    exact ⟨⟨⟨by decide, hnumber⟩, hsuffix⟩, by decide⟩

/-! ## The cursor in the text -/

variable {i : Nat}

namespace EditorState

variable {s : EditorState} {line line' : Text} {col : Int}

variable {lines : List Text}

theorem getD_clean (h : ∀ line ∈ lines, newline ∉ line) (i : Nat) : newline ∉ lines.getD i [] := by
  rw [List.getD_eq_getElem?_getD]
  cases hget : lines[i]? with
  | none => exact List.not_mem_nil
  | some line => exact h line (List.mem_of_getElem? hget)

theorem Valid.currentLine_clean (h : s.Valid) : newline ∉ s.currentLine := getD_clean h.clean _

theorem Valid.take_clean (h : s.Valid) (n : Nat) : ∀ line ∈ s.lines.take n, newline ∉ line :=
  fun line hline => h.clean line (List.mem_of_mem_take hline)

theorem Valid.drop_clean (h : s.Valid) (n : Nat) : ∀ line ∈ s.lines.drop n, newline ∉ line :=
  fun line hline => h.clean line (List.mem_of_mem_drop hline)

theorem Valid.before_clean (h : s.Valid) (col : Int) : newline ∉ sliceTo s.currentLine col :=
  not_mem_sliceTo h.currentLine_clean col

theorem Valid.after_clean (h : s.Valid) (col : Int) : newline ∉ sliceFrom s.currentLine col :=
  not_mem_sliceFrom h.currentLine_clean col

theorem Valid.length_before (h : s.Valid) : ((sliceTo s.currentLine s.cursorCol).length : Int) = s.cursorCol :=
  length_sliceTo h.nonneg h.inLine

theorem Valid.length_after (h : s.Valid) :
    ((sliceFrom s.currentLine s.cursorCol).length : Int) = s.currentLine.length - s.cursorCol :=
  length_sliceFrom h.nonneg h.inLine

theorem valid_empty : (⟨[[]], 0, 0⟩ : EditorState).Valid where
  line := Nat.zero_lt_one
  clean := fun line hline => by
    rw [List.mem_singleton.mp hline]
    exact List.not_mem_nil
  nonneg := Int.le_refl 0
  inLine := Int.le_refl 0

theorem Valid.moveTo (h : s.Valid) (hi : i < s.lines.length) (h0 : 0 ≤ col)
    (hle : col ≤ (s.lines.getD i []).length) : (⟨s.lines, i, col⟩ : EditorState).Valid :=
  ⟨hi, h.clean, h0, hle⟩

theorem Valid.moveIn (h : s.Valid) (h0 : 0 ≤ col) (hle : col ≤ s.currentLine.length) :
    (⟨s.lines, s.cursorLine, col⟩ : EditorState).Valid :=
  h.moveTo h.line h0 hle

theorem valid_set (hi : i < lines.length) (hclean : ∀ line ∈ lines, newline ∉ line)
    (hline : newline ∉ line) (h0 : 0 ≤ col) (hle : col ≤ line.length) :
    (⟨lines.set i line, i, col⟩ : EditorState).Valid where
  line := by
    rw [List.length_set]
    exact hi
  clean := fun other hother => by
    rcases List.mem_or_eq_of_mem_set hother with hold | rfl
    · exact hclean other hold
    · exact hline
  nonneg := h0
  inLine := by
    have hget : (lines.set i line).getD i [] = line := by
      rw [List.getD_eq_getElem?_getD, List.getElem?_set_self hi, Option.getD_some]
    show col ≤ ((lines.set i line).getD i []).length
    rw [hget]
    exact hle

theorem Valid.setLine (h : s.Valid) (hline : newline ∉ line) (h0 : 0 ≤ col) (hle : col ≤ line.length) :
    (⟨s.lines.set s.cursorLine line, s.cursorLine, col⟩ : EditorState).Valid :=
  valid_set h.line h.clean hline h0 hle

theorem Valid.join (h : s.Valid) (hi : i + 1 < s.lines.length) (h0 : 0 ≤ col) (hle : col ≤ (s.lines.getD i []).length) :
    (⟨(s.lines.set i (s.lines.getD i [] ++ s.lines.getD (i + 1) [])).eraseIdx (i + 1), i, col⟩ :
      EditorState).Valid where
  line := by
    show i < ((s.lines.set i _).eraseIdx (i + 1)).length
    rw [List.length_eraseIdx_of_lt (by rw [List.length_set]; exact hi), List.length_set]
    omega
  clean := fun other hother => by
    rcases List.mem_or_eq_of_mem_set (List.mem_of_mem_eraseIdx hother) with hold | rfl
    · exact h.clean other hold
    · intro hmem
      rcases List.mem_append.mp hmem with hfirst | hsecond
      · exact getD_clean h.clean _ hfirst
      · exact getD_clean h.clean _ hsecond
  nonneg := h0
  inLine := by
    have hget : ((s.lines.set i (s.lines.getD i [] ++ s.lines.getD (i + 1) [])).eraseIdx (i + 1)).getD i [] =
        s.lines.getD i [] ++ s.lines.getD (i + 1) [] := by
      rw [List.getD_eq_getElem?_getD, List.getElem?_eraseIdx_of_lt (by omega),
        List.getElem?_set_self (by omega), Option.getD_some]
    show col ≤ (((s.lines.set i _).eraseIdx (i + 1)).getD i []).length
    rw [hget, List.length_append]
    omega

theorem valid_between {before after : List Text} (hbefore : ∀ line ∈ before, newline ∉ line)
    (hafter : ∀ line ∈ after, newline ∉ line) (hline : newline ∉ line) (h0 : 0 ≤ col)
    (hle : col ≤ line.length) : (⟨before ++ line :: after, before.length, col⟩ : EditorState).Valid where
  line := by
    rw [List.length_append, List.length_cons]
    exact Nat.lt_add_of_pos_right (Nat.succ_pos _)
  clean := fun other hother => by
    rcases List.mem_append.mp hother with hold | hrest
    · exact hbefore other hold
    · rcases List.mem_cons.mp hrest with rfl | hold
      · exact hline
      · exact hafter other hold
  nonneg := h0
  inLine := by
    show col ≤ ((before ++ line :: after).getD before.length []).length
    rw [List.getD_eq_getElem?_getD, List.getElem?_append_right (Nat.le_refl _), Nat.sub_self,
      List.getElem?_cons_zero, Option.getD_some]
    exact hle

/-- Lines take the place of the line of the cursor, which goes to the last of them. -/
theorem Valid.replaceLine (h : s.Valid) {last : Text}
    (hclean : ∀ line ∈ lines ++ [last], newline ∉ line) (h0 : 0 ≤ col) (hle : col ≤ last.length) :
    (⟨s.lines.take s.cursorLine ++ (lines ++ [last]) ++ s.lines.drop (s.cursorLine + 1),
      s.cursorLine + ((lines ++ [last]).length - 1), col⟩ : EditorState).Valid := by
  have htake : (s.lines.take s.cursorLine).length = s.cursorLine := by
    have := h.line
    rw [List.length_take]
    omega
  have hlast : s.cursorLine + ((lines ++ [last]).length - 1) = (s.lines.take s.cursorLine ++ lines).length := by
    simp only [List.length_append, htake, List.length_singleton]
    omega
  have hlines : s.lines.take s.cursorLine ++ (lines ++ [last]) ++ s.lines.drop (s.cursorLine + 1) =
      (s.lines.take s.cursorLine ++ lines) ++ last :: s.lines.drop (s.cursorLine + 1) := by simp
  rw [hlast, hlines]
  apply valid_between _ (h.drop_clean _) (hclean last (by simp)) h0 hle
  intro other hother
  rcases List.mem_append.mp hother with hold | hnew
  · exact h.take_clean _ other hold
  · exact hclean other (by simp [hnew])

end EditorState

/-! ## What an operation keeps -/

namespace Editor

/-- There is room for the lines before the cursor, the first of them at the end of a line. -/
structure InsertedAt (lines : List Text) (s : EditorState) : Prop where
  single : lines.length = 1 → ((lines.getD 0 []).length : Int) ≤ s.cursorCol
  above : lines.length - 1 ≤ s.cursorLine
  first : lines.length ≠ 1 → (lines.getD 0 []).length ≤ (s.lines.getD (s.cursorLine - (lines.length - 1)) []).length

/-- The text that was just yanked is before the cursor. -/
def Yanked (e : Editor) : Prop :=
  e.lastAction = some .yank → ∀ text ∈ e.killRing.getLast?, InsertedAt (splitLines text) e.state

structure Inv (e : Editor) : Prop where
  state : e.state.Valid
  undoStack : ∀ snapshot ∈ e.undoStack, snapshot.state.Valid
  historyDraft : ∀ draft ∈ e.historyDraft, draft.Valid
  preferred : ∀ col ∈ e.preferredVisualCol, 0 ≤ col
  width : 0 < e.lastWidth
  yanked : e.Yanked

/-- What undo goes back to. -/
def snapshot (e : Editor) : EditorSnapshot := ⟨e.state, e.pastes, e.pasteCounter⟩

/-- An operation keeps the invariant, and puts no more on the undo stack than what the editor was before. -/
structure Step (e e' : Editor) : Prop where
  inv : e'.Inv
  stack : e'.undoStack = e.undoStack ∨ e'.undoStack = e.snapshot :: e.undoStack

section Step

variable {e e' : Editor}

theorem Inv.pushed (h : e.Inv) : ∀ snapshot ∈ e.snapshot :: e.undoStack, snapshot.state.Valid := by
  intro snapshot hsnapshot
  rcases List.mem_cons.mp hsnapshot with rfl | hold
  · exact h.state
  · exact h.undoStack snapshot hold

theorem Step.of (h : e.Inv) (hstate : e'.state.Valid)
    (hstack : e'.undoStack = e.undoStack ∨ e'.undoStack = e.snapshot :: e.undoStack)
    (hdraft : ∀ draft ∈ e'.historyDraft, draft.Valid) (hpreferred : ∀ col ∈ e'.preferredVisualCol, 0 ≤ col)
    (hwidth : e'.lastWidth = e.lastWidth) (hyanked : e'.Yanked) : Step e e' := by
  refine ⟨⟨hstate, ?_, hdraft, hpreferred, ?_, hyanked⟩, hstack⟩
  · rcases hstack with heq | heq
    · rw [heq]
      exact h.undoStack
    · rw [heq]
      exact h.pushed
  · rw [hwidth]
    exact h.width

theorem yanked_of_lastAction (h : e.lastAction ≠ some .yank) : e.Yanked := fun hyank => absurd hyank h

theorem Inv.yanked_of_eq (h : e.Inv) (hlast : e'.lastAction = e.lastAction) (hring : e'.killRing = e.killRing)
    (hstate : e'.state = e.state) : e'.Yanked := by
  intro hyank
  rw [hring, hstate]
  exact h.yanked (hlast ▸ hyank)

end Step

/-! ## Insertions -/

/-- The state changes, and no column is remembered. -/
def place (e : Editor) (s : EditorState) : Editor :=
  { e with state := s, preferredVisualCol := none, snappedFromCursorCol := none }

variable {e₁ : Editor}

section Insertions

variable {e : Editor} {lines : List Text} {text : Text}

theorem insertLines_place (h : e.state.Valid) (hne : lines ≠ []) (hclean : ∀ line ∈ lines, newline ∉ line) :
    ∃ s, s.Valid ∧ InsertedAt lines s ∧ e.insertLines lines = e.place s := by
  have hbefore := h.length_before
  have hafter := h.length_after
  have hjoin : ∀ {xs ys : Text}, newline ∉ xs → newline ∉ ys → newline ∉ xs ++ ys := by
    intro xs ys hxs hys hmem
    exact (List.mem_append.mp hmem).elim hxs hys
  match lines with
  | [] => exact absurd rfl hne
  | [line] =>
    have hline := hclean line (by simp)
    have hnonneg := h.nonneg
    have hin := h.inLine
    refine ⟨⟨_, _, e.state.cursorCol + line.length⟩,
      h.setLine (hjoin (hjoin (h.before_clean _) hline) (h.after_clean _)) (by omega) ?_,
      ⟨fun _ => ?_, Nat.zero_le _, nofun⟩, rfl⟩
    · simp only [List.length_append]
      omega
    · show (line.length : Int) ≤ e.state.cursorCol + line.length
      omega
  | first :: second :: rest =>
    obtain ⟨middle, last, hrest⟩ := (List.eq_nil_or_concat (second :: rest)).resolve_left (List.cons_ne_nil _ _)
    rw [List.concat_eq_append] at hrest
    have hfirst := hclean first (by simp)
    have hmiddle : ∀ line ∈ middle, newline ∉ line := fun line hline => hclean line (by simp [hrest, hline])
    have hlast := hclean last (by simp [hrest])
    -- the new lines, without the last
    let before := (sliceTo e.state.currentLine e.state.cursorCol ++ first) :: middle
    have hnew : ∀ line ∈ before ++ [last ++ sliceFrom e.state.currentLine e.state.cursorCol], newline ∉ line := by
      intro line hline
      rcases List.mem_append.mp hline with hold | hend
      · rcases List.mem_cons.mp hold with rfl | hin
        · exact hjoin (h.before_clean _) hfirst
        · exact hmiddle line hin
      · rw [List.mem_singleton.mp hend]
        exact hjoin hlast (h.after_clean _)
    have hcount : (before ++ [last ++ sliceFrom e.state.currentLine e.state.cursorCol]).length =
        (first :: second :: rest).length := by
      rw [hrest]
      simp [before]
    refine ⟨⟨_, _, last.length⟩, h.replaceLine hnew (by omega) ?_, ⟨nofun, ?_, fun _ => ?_⟩, ?_⟩
    · rw [List.length_append]
      omega
    · show _ ≤ e.state.cursorLine + (_ - 1)
      rw [hcount]
      omega
    · show first.length ≤ (List.getD _ (e.state.cursorLine + (_ - 1) - _) []).length
      have htake : (e.state.lines.take e.state.cursorLine).length = e.state.cursorLine := by
        have := h.line
        rw [List.length_take]
        omega
      rw [hcount, Nat.add_sub_cancel, List.append_assoc, List.getD_eq_getElem?_getD,
        List.getElem?_append_right (by omega), htake, Nat.sub_self, List.append_assoc]
      show first.length ≤ (sliceTo e.state.currentLine e.state.cursorCol ++ first).length
      rw [List.length_append]
      omega
    · show e.replaceLine _ _ = _
      rw [hrest, List.getLastD_concat, List.dropLast_concat]
      rfl

theorem insertTextAtCursorInternal_place (h : e.state.Valid) (text : Text) :
    e.insertTextAtCursorInternal text = e ∨ ∃ s, s.Valid ∧ e.insertTextAtCursorInternal text = e.place s := by
  unfold insertTextAtCursorInternal
  split
  · exact .inl rfl
  · obtain ⟨s, hs, -, heq⟩ := insertLines_place h (splitLines_ne_nil _) (splitLines_clean (normalizeText text))
    exact .inr ⟨s, hs, heq⟩

/-- What comes before the change of the text. -/
structure Prepared (e e₁ : Editor) : Prop where
  state : e₁.state = e.state
  stack : e₁.undoStack = e.undoStack ∨ e₁.undoStack = e.snapshot :: e.undoStack
  draft : ∀ draft ∈ e₁.historyDraft, draft.Valid
  preferred : ∀ col ∈ e₁.preferredVisualCol, 0 ≤ col
  width : e₁.lastWidth = e.lastWidth
  action : e₁.lastAction ≠ some .yank

theorem Prepared.place (hprepared : Prepared e e₁) (h : e.Inv) {s : EditorState} (hs : s.Valid) : Step e (e₁.place s) :=
  Step.of h hs hprepared.stack hprepared.draft nofun hprepared.width (yanked_of_lastAction hprepared.action)

theorem Prepared.step (hprepared : Prepared e e₁) (h : e.Inv) : Step e e₁ := by
  apply Step.of h _ hprepared.stack hprepared.draft hprepared.preferred hprepared.width
    (yanked_of_lastAction hprepared.action)
  rw [hprepared.state]
  exact h.state

theorem Prepared.insertText (hprepared : Prepared e e₁) (h : e.Inv) (text : Text) :
    Step e (e₁.insertTextAtCursorInternal text) := by
  rcases insertTextAtCursorInternal_place (hprepared.state ▸ h.state) text with heq | ⟨s, hs, heq⟩
  · rw [heq]
    exact hprepared.step h
  · rw [heq]
    exact hprepared.place h hs

theorem insertCharacter_step (h : e.Inv) {char : Text} (hchar : newline ∉ char) : Step e (e.insertCharacter char) := by
  have hclean : ∀ line ∈ [char], newline ∉ line := fun line hline => by
    rw [List.mem_singleton.mp hline]
    exact hchar
  unfold insertCharacter
  dsimp only
  split
  · obtain ⟨s, hs, -, heq⟩ :=
      insertLines_place (e := e.exitHistoryBrowsing.pushUndoSnapshot.act (some .typeWord)) h.state
        (List.cons_ne_nil _ _) hclean
    rw [heq]
    refine Prepared.place ?_ h hs
    exact ⟨rfl, .inr rfl, nofun, h.preferred, rfl, nofun⟩
  · obtain ⟨s, hs, -, heq⟩ :=
      insertLines_place (e := e.exitHistoryBrowsing.act (some .typeWord)) h.state (List.cons_ne_nil _ _) hclean
    rw [heq]
    refine Prepared.place ?_ h hs
    exact ⟨rfl, .inl rfl, nofun, h.preferred, rfl, nofun⟩

theorem handlePaste_step (h : e.Inv) (text : Text) : Step e (e.handlePaste text) := by
  unfold handlePaste
  dsimp only
  split
  · refine Prepared.insertText ?_ h _
    exact ⟨rfl, .inr rfl, nofun, h.preferred, rfl, nofun⟩
  · refine Prepared.insertText ?_ h _
    exact ⟨rfl, .inr rfl, nofun, h.preferred, rfl, nofun⟩

theorem addNewLine_step (h : e.Inv) : Step e e.addNewLine := by
  have hclean : ∀ line ∈ [sliceTo e.state.currentLine e.state.cursorCol] ++
      [sliceFrom e.state.currentLine e.state.cursorCol], newline ∉ line := by
    intro line hline
    rcases List.mem_cons.mp hline with rfl | hrest
    · exact h.state.before_clean _
    · rw [List.mem_singleton.mp hrest]
      exact h.state.after_clean _
  have hstate := h.state.replaceLine hclean (Int.le_refl 0) (Int.natCast_nonneg _)
  show Step e ((e.exitHistoryBrowsing.act none).pushUndoSnapshot.place _)
  refine Prepared.place ?_ h hstate
  exact ⟨rfl, .inr rfl, nofun, h.preferred, rfl, nofun⟩

theorem insertTextAtCursor_step (h : e.Inv) (text : Text) : Step e (e.insertTextAtCursor text) := by
  unfold insertTextAtCursor
  split
  · exact ⟨h, .inl rfl⟩
  · refine Prepared.insertText ?_ h _
    exact ⟨rfl, .inr rfl, nofun, h.preferred, rfl, nofun⟩

theorem setTextInternal_place (e : Editor) (text : Text) (atStart : Bool) :
    ∃ s, s.Valid ∧ e.setTextInternal text atStart = e.place s := by
  have hpos : 0 < (splitLines text).length := List.length_pos_iff.mpr (splitLines_ne_nil text)
  unfold setTextInternal
  split
  · exact ⟨_, ⟨hpos, splitLines_clean text, Int.le_refl 0, Int.natCast_nonneg _⟩, rfl⟩
  · exact ⟨_, ⟨Nat.sub_lt hpos Nat.zero_lt_one, splitLines_clean text, Int.natCast_nonneg _, Int.le_refl _⟩, rfl⟩

theorem setText_step (h : e.Inv) (text : Text) : Step e (e.setText text) := by
  unfold setText
  dsimp only
  generalize hprepared : (if (e.act none).exitHistoryBrowsing.getText ≠ normalizeText text
    then (e.act none).exitHistoryBrowsing.pushUndoSnapshot else (e.act none).exitHistoryBrowsing) = e₁
  obtain ⟨s, hs, heq⟩ :=
    setTextInternal_place { e₁ with pastes := [], pasteCounter := 0 } (normalizeText text) false
  rw [heq]
  refine Prepared.place ?_ h hs
  rw [← hprepared]
  split
  · exact ⟨rfl, .inr rfl, nofun, h.preferred, rfl, nofun⟩
  · exact ⟨rfl, .inl rfl, nofun, h.preferred, rfl, nofun⟩

end Insertions

/-! ## Deletions -/

section Deletions

variable {p : Platform} {e : Editor}

theorem kill_eq (e : Editor) (text : Text) (prepend accumulate : Bool) :
    ∃ killRing, e.kill text prepend accumulate = { e with killRing } := by
  unfold kill
  split
  · exact ⟨e.killRing, rfl⟩
  · split
    · exact ⟨_, rfl⟩
    · exact ⟨_, rfl⟩

theorem killed_eq (e : Editor) (text : Text) (prepend wasKill : Bool) :
    ∃ killRing, e.killed text prepend wasKill = { e with killRing, lastAction := some .kill } := by
  obtain ⟨killRing, heq⟩ := e.kill_eq text prepend wasKill
  exact ⟨killRing, by rw [killed, heq, act]⟩

theorem placed_graphemes (e : Editor) (text : Text) : Placed 0 text.length (e.graphemes p text) :=
  placed_segmentWithMarkers text _ _

theorem placed_words (e : Editor) (text : Text) : Placed 0 text.length (e.words p text) :=
  placed_segmentWithMarkers text _ _

theorem graphemeLength_le {text : Text} {grapheme : Option Segment} (hpos : 0 < text.length)
    (hmem : ∀ seg ∈ grapheme, seg ∈ e.graphemes p text) : graphemeLength grapheme ≤ text.length := by
  cases grapheme with
  | none => exact hpos
  | some seg =>
    have hin := ((e.placed_graphemes text).mem (hmem seg rfl)).2
    show seg.segment.length ≤ text.length
    omega

theorem graphemeBefore_le (h : e.state.Valid) (hpos : 0 < e.state.cursorCol) :
    (graphemeLength (e.graphemeBefore p) : Int) ≤ e.state.cursorCol := by
  have hlength := h.length_before
  have hle : graphemeLength (e.graphemeBefore p) ≤ _ :=
    graphemeLength_le (by omega) fun seg hseg => List.mem_of_getLast? hseg
  omega

theorem graphemeAfter_le (h : e.state.Valid) (hlt : e.state.cursorCol < e.state.currentLine.length) :
    e.state.cursorCol + graphemeLength (e.graphemeAfter p) ≤ e.state.currentLine.length := by
  have hlength := h.length_after
  have hle : graphemeLength (e.graphemeAfter p) ≤ _ :=
    graphemeLength_le (by omega) fun seg hseg => List.mem_of_mem_head? hseg
  omega

theorem wordBackward_bounds (h : e.state.Valid) : 0 ≤ e.wordBackward p ∧ e.wordBackward p ≤ e.state.cursorCol := by
  have hle := (e.placed_words (p := p) (sliceTo e.state.currentLine e.state.cursorCol)).total_le
  have hlength := h.length_before
  exact findWordBackward_bounds h.nonneg (by omega)

theorem wordForward_bounds (h : e.state.Valid) :
    e.state.cursorCol ≤ e.wordForward p ∧ e.wordForward p ≤ e.state.currentLine.length := by
  have hle := (e.placed_words (p := p) (sliceFrom e.state.currentLine e.state.cursorCol)).total_le
  have hlength := h.length_after
  exact findWordForward_bounds h.inLine (by omega)

theorem clean_append {xs ys : Text} (hxs : newline ∉ xs) (hys : newline ∉ ys) : newline ∉ xs ++ ys :=
  fun hmem => (List.mem_append.mp hmem).elim hxs hys

/-- A part of the line of the cursor goes, from a column that is not behind the cursor. -/
theorem valid_cut (h : e.state.Valid) {start stop : Int} (h0 : 0 ≤ start) (hle : start ≤ e.state.cursorCol) :
    (⟨e.state.lines.set e.state.cursorLine (sliceTo e.state.currentLine start ++ sliceFrom e.state.currentLine stop),
      e.state.cursorLine, start⟩ : EditorState).Valid := by
  apply h.setLine (clean_append (h.before_clean _) (h.after_clean _)) h0
  have hin := h.inLine
  have hlength := length_sliceTo h0 (Int.le_trans hle hin)
  rw [List.length_append]
  omega

theorem valid_joinPrevious (h : e.state.Valid) (hpos : 0 < e.state.cursorLine) :
    ∃ s, s.Valid ∧ e.joinPrevious = e.place s := by
  have hline := h.line
  have hprevious : e.state.cursorLine - 1 + 1 < e.state.lines.length := by omega
  have hjoin := h.join hprevious (Int.natCast_nonneg _) (Int.le_refl _)
  rw [Nat.sub_add_cancel hpos] at hjoin
  exact ⟨_, hjoin, rfl⟩

theorem valid_joinNext (h : e.state.Valid) (hlt : e.state.cursorLine < e.state.lines.length - 1) :
    e.joinNext.state.Valid :=
  h.join (by omega) h.nonneg h.inLine

theorem handleForwardDelete_step (h : e.Inv) : Step e (e.handleForwardDelete p) := by
  unfold handleForwardDelete
  dsimp only
  split
  · exact Step.of h (valid_cut h.state h.state.nonneg (Int.le_refl _)) (.inr rfl) nofun h.preferred rfl
      (yanked_of_lastAction nofun)
  · split
    next hlt =>
      exact Step.of h (valid_joinNext h.state hlt) (.inr rfl) nofun h.preferred rfl (yanked_of_lastAction nofun)
    · exact Step.of h h.state (.inl rfl) nofun h.preferred rfl (yanked_of_lastAction nofun)

theorem exitHistoryBrowsing_step (h : e.Inv) : Step e e.exitHistoryBrowsing :=
  Step.of h h.state (.inl rfl) nofun h.preferred rfl (h.yanked_of_eq rfl rfl rfl)

theorem Prepared.setLine (hprepared : Prepared e e₁) (h : e.Inv) {line : Text} {col : Int}
    (hs : (⟨e.state.lines.set e.state.cursorLine line, e.state.cursorLine, col⟩ : EditorState).Valid) :
    Step e ((e₁.setLine line).setCursorCol col) := by
  rw [← hprepared.state] at hs
  exact hprepared.place h hs

theorem Prepared.setLineOnly (hprepared : Prepared e e₁) (h : e.Inv) {line : Text}
    (hs : (⟨e.state.lines.set e.state.cursorLine line, e.state.cursorLine, e.state.cursorCol⟩ :
      EditorState).Valid) : Step e (e₁.setLine line) := by
  rw [← hprepared.state] at hs
  exact Step.of h hs hprepared.stack hprepared.draft hprepared.preferred hprepared.width
    (yanked_of_lastAction hprepared.action)

theorem Prepared.joinPrevious (hprepared : Prepared e e₁) (h : e.Inv)
    (hpos : 0 < e.state.cursorLine) : Step e e₁.joinPrevious := by
  have hstate := hprepared.state
  obtain ⟨s, hs, heq⟩ := valid_joinPrevious (hstate ▸ h.state) (hstate ▸ hpos)
  rw [heq]
  exact hprepared.place h hs

theorem Prepared.joinNext (hprepared : Prepared e e₁) (h : e.Inv)
    (hlt : e.state.cursorLine < e.state.lines.length - 1) : Step e e₁.joinNext := by
  have hstate := hprepared.state
  exact Step.of h (valid_joinNext (hstate ▸ h.state) (hstate ▸ hlt)) hprepared.stack hprepared.draft
    hprepared.preferred hprepared.width (yanked_of_lastAction hprepared.action)

theorem prepared_killed (h : e.Inv) (text : Text) (prepend wasKill : Bool) :
    Prepared e (e.exitHistoryBrowsing.pushUndoSnapshot.killed text prepend wasKill) := by
  obtain ⟨killRing, heq⟩ := e.exitHistoryBrowsing.pushUndoSnapshot.killed_eq text prepend wasKill
  rw [heq]
  exact ⟨rfl, .inr rfl, nofun, h.preferred, rfl, nofun⟩

theorem deleteToStartOfLine_step (h : e.Inv) : Step e e.deleteToStartOfLine := by
  unfold deleteToStartOfLine
  dsimp only
  split
  · apply (prepared_killed h _ true _).setLine h
    exact h.state.setLine (h.state.after_clean _) (Int.le_refl 0) (Int.natCast_nonneg _)
  · split
    next hpos => exact (prepared_killed h _ true _).joinPrevious h hpos
    · exact exitHistoryBrowsing_step h

theorem deleteToEndOfLine_step (h : e.Inv) : Step e e.deleteToEndOfLine := by
  unfold deleteToEndOfLine
  dsimp only
  split
  · apply (prepared_killed h _ false _).setLineOnly h
    rw [(prepared_killed h _ false _).state]
    exact h.state.setLine (h.state.before_clean _) h.state.nonneg (Int.le_of_eq h.state.length_before.symm)
  · split
    next hlt => exact (prepared_killed h _ false _).joinNext h hlt
    · exact exitHistoryBrowsing_step h

theorem deleteWordBackwards_step (h : e.Inv) : Step e (e.deleteWordBackwards p) := by
  unfold deleteWordBackwards
  dsimp only
  split
  · split
    next hpos => exact (prepared_killed h _ true _).joinPrevious h hpos
    · exact exitHistoryBrowsing_step h
  · obtain ⟨hnonneg, hle⟩ := e.exitHistoryBrowsing.wordBackward_bounds (p := p) h.state
    apply (prepared_killed h _ true _).setLine h
    exact valid_cut h.state hnonneg hle

theorem deleteWordForward_step (h : e.Inv) : Step e (e.deleteWordForward p) := by
  unfold deleteWordForward
  dsimp only
  split
  · split
    next hlt => exact (prepared_killed h _ false _).joinNext h hlt
    · exact exitHistoryBrowsing_step h
  · have hprepared : Prepared e ((e.exitHistoryBrowsing.pushUndoSnapshot.setCursorCol e.state.cursorCol).killed
        (sliceTo (sliceFrom e.state.currentLine e.state.cursorCol)
          (e.exitHistoryBrowsing.wordForward p - e.state.cursorCol)) false (e.lastAction = some .kill)) := by
      obtain ⟨killRing, heq⟩ := (e.exitHistoryBrowsing.pushUndoSnapshot.setCursorCol e.state.cursorCol).killed_eq
        (sliceTo (sliceFrom e.state.currentLine e.state.cursorCol)
          (e.exitHistoryBrowsing.wordForward p - e.state.cursorCol)) false (e.lastAction = some .kill)
      rw [heq]
      exact ⟨rfl, .inr rfl, nofun, nofun, rfl, nofun⟩
    exact hprepared.setLineOnly h (valid_cut h.state h.state.nonneg (Int.le_refl _))

/-- Where the other markers are numbered anew, the line still reaches to the deleted one. -/
def BackspaceFits (p : Platform) (e : Editor) : Prop :=
  0 < e.state.cursorCol → ∀ seg ∈ e.graphemeBefore p, ∀ marker ∈ singleMarker seg.segment,
    e.state.cursorCol - seg.segment.length ≤ (renumberLine p marker.id e.state.currentLine).length

theorem renumbered_line (h : e.state.Valid) (targetId : Nat) :
    (e.state.lines.map (renumberLine p targetId)).getD e.state.cursorLine [] =
      renumberLine p targetId e.state.currentLine := by
  have hline := h.line
  rw [EditorState.currentLine, List.getD_eq_getElem?_getD, List.getD_eq_getElem?_getD, List.getElem?_map,
    List.getElem?_eq_getElem hline]
  rfl

theorem handleBackspace_step (h : e.Inv) (hfits : e.BackspaceFits p) : Step e (e.handleBackspace p) := by
  unfold handleBackspace
  dsimp only
  split
  next hpos =>
    have hpos : 0 < e.state.cursorCol := hpos
    have hlength := graphemeBefore_le (p := p) h.state hpos
    let pushed := (e.exitHistoryBrowsing.act none).pushUndoSnapshot
    let deleted := pushed.deleteMarker p (e.graphemeBefore p)
    show Step e ((deleted.setLine (sliceTo deleted.state.currentLine
      (e.state.cursorCol - graphemeLength (e.graphemeBefore p)) ++
        sliceFrom deleted.state.currentLine e.state.cursorCol)).setCursorCol
          (e.state.cursorCol - graphemeLength (e.graphemeBefore p)))
    cases hmarker : (e.graphemeBefore p).bind fun seg => singleMarker seg.segment with
    | none =>
      rw [show deleted = pushed by simp only [deleted, deleteMarker, hmarker]]
      refine Prepared.setLine ?_ h ?_
      · exact ⟨rfl, .inr rfl, nofun, h.preferred, rfl, nofun⟩
      · apply valid_cut h.state
        · omega
        · omega
    | some marker =>
      obtain ⟨seg, hseg, hsingle⟩ := Option.bind_eq_some_iff.mp hmarker
      have hreach := hfits hpos seg hseg marker hsingle
      rw [show deleted = pushed.removePaste p marker.id by simp only [deleted, deleteMarker, hmarker]]
      rw [hseg] at hlength ⊢
      change (seg.segment.length : Int) ≤ e.state.cursorCol at hlength
      rw [show (pushed.removePaste p marker.id).state.currentLine = renumberLine p marker.id e.state.currentLine
        from renumbered_line h.state marker.id]
      -- the lines with the other markers numbered anew
      have hclean : ∀ line ∈ e.state.lines.map (renumberLine p marker.id), newline ∉ line := by
        intro line hline
        obtain ⟨old, hold, rfl⟩ := List.mem_map.mp hline
        exact renumberLine_clean p _ (h.state.clean old hold)
      have hcurrent := renumberLine_clean p marker.id h.state.currentLine_clean
      have hcut := length_sliceTo (by omega) hreach
      refine Step.of h (EditorState.valid_set ?_ hclean ?_ ?_ ?_) (.inr rfl) nofun nofun rfl
        (yanked_of_lastAction nofun)
      · show e.state.cursorLine < (e.state.lines.map _).length
        rw [List.length_map]
        exact h.state.line
      · exact clean_append (not_mem_sliceTo hcurrent _) (not_mem_sliceFrom hcurrent _)
      · show 0 ≤ e.state.cursorCol - seg.segment.length
        omega
      · show e.state.cursorCol - seg.segment.length ≤ _
        rw [List.length_append, graphemeLength]
        omega
  · split
    next hpos =>
      have hprepared : Prepared e (e.exitHistoryBrowsing.act none).pushUndoSnapshot :=
        ⟨rfl, .inr rfl, nofun, h.preferred, rfl, nofun⟩
      exact hprepared.joinPrevious h hpos
    · exact Step.of h h.state (.inl rfl) nofun h.preferred rfl (yanked_of_lastAction nofun)

end Deletions

/-! ## Moves -/

section Moves

variable {p : Platform} {e : Editor}

theorem moveTo_step (h : e.Inv) {col : Int} (hi : i < e.state.lines.length) (h0 : 0 ≤ col)
    (hle : col ≤ (e.state.lines.getD i []).length) :
    Step e ((e.act none).place ⟨e.state.lines, i, col⟩) := by
  refine Prepared.place ?_ h (h.state.moveTo hi h0 hle)
  exact ⟨rfl, .inl rfl, h.historyDraft, h.preferred, rfl, nofun⟩

theorem act_step (h : e.Inv) : Step e (e.act none) :=
  Step.of h h.state (.inl rfl) h.historyDraft h.preferred rfl (yanked_of_lastAction nofun)

theorem moveToLineStart_step (h : e.Inv) : Step e e.moveToLineStart :=
  moveTo_step h h.state.line (Int.le_refl 0) (Int.natCast_nonneg _)

theorem moveToLineEnd_step (h : e.Inv) : Step e e.moveToLineEnd :=
  moveTo_step h h.state.line (Int.natCast_nonneg _) (Int.le_refl _)

theorem toPreviousLine_step (h : e.Inv) : Step e (e.act none).toPreviousLine := by
  unfold toPreviousLine
  split
  · have hline := h.state.line
    have hprevious : e.state.cursorLine - 1 < e.state.lines.length := by omega
    exact moveTo_step h hprevious (Int.natCast_nonneg _) (Int.le_refl _)
  · exact act_step h

theorem toNextLine_step (h : e.Inv) : Step e (e.act none).toNextLine := by
  unfold toNextLine
  split
  next hlt =>
    have hnext : e.state.cursorLine + 1 < e.state.lines.length := Nat.add_lt_of_lt_sub hlt
    exact moveTo_step h hnext (Int.le_refl 0) (Int.natCast_nonneg _)
  · exact act_step h

theorem moveWordBackwards_step (h : e.Inv) : Step e (e.moveWordBackwards p) := by
  unfold moveWordBackwards
  dsimp only
  split
  · exact toPreviousLine_step h
  · obtain ⟨hnonneg, hle⟩ := (e.act none).wordBackward_bounds (p := p) h.state
    exact moveTo_step h h.state.line hnonneg (Int.le_trans hle h.state.inLine)

theorem moveWordForwards_step (h : e.Inv) : Step e (e.moveWordForwards p) := by
  unfold moveWordForwards
  dsimp only
  split
  · exact toNextLine_step h
  · obtain ⟨hle, hend⟩ := (e.act none).wordForward_bounds (p := p) h.state
    exact moveTo_step h h.state.line (Int.le_trans h.state.nonneg hle) hend

theorem indexOf_le {line char : Text} {searchFrom : Int} (h : indexOf line char searchFrom = some i) :
    i ≤ line.length :=
  Nat.lt_succ_iff.mp (List.mem_range.mp (List.mem_of_find?_eq_some h))

theorem lastIndexOf_le {line char : Text} {searchFrom : Int}
    (h : lastIndexOf line char searchFrom = some i) : i ≤ line.length :=
  Nat.lt_succ_iff.mp (List.mem_range.mp (List.mem_reverse.mp (List.mem_of_find?_eq_some h)))

theorem jumpToChar_step (h : e.Inv) (char : Text) (forward : Bool) : Step e (e.jumpToChar char forward) := by
  unfold jumpToChar
  dsimp only
  split
  next lineIdx idx hfound =>
    obtain ⟨i, hi, htarget⟩ := List.exists_of_findSome?_eq_some hfound
    have hline : i < e.state.lines.length := by
      have hcursor := h.state.line
      unfold jumpLines at hi
      split at hi
      · exact List.mem_range.mp (List.mem_of_mem_drop hi)
      · have := List.mem_range.mp (List.mem_reverse.mp hi)
        have : i < e.state.cursorLine + 1 := this
        omega
    obtain ⟨col, hcol, heq⟩ := Option.map_eq_some_iff.mp htarget
    obtain ⟨rfl, rfl⟩ := Prod.mk.inj heq
    have hle : col ≤ (e.state.lines.getD i []).length := by
      split at hcol
      · exact indexOf_le hcol
      · exact lastIndexOf_le hcol
    exact moveTo_step h hline (Int.natCast_nonneg _) (Int.ofNat_le.mpr hle)
  · exact act_step h

end Moves

/-! ## Yanks -/

section Yanks

variable {e : Editor} {text : Text}

theorem length_of_splitLines_single (h : (splitLines text).length = 1) : (splitLines text).getD 0 [] = text := by
  induction text with
  | nil => rfl
  | cons u text ih =>
    have hne := splitLines_ne_nil text
    rw [splitLines] at h ⊢
    split at h
    · exact absurd (List.length_eq_zero_iff.mp (Nat.succ.inj h)) hne
    next hu =>
      rw [if_neg hu]
      cases hsplit : splitLines text with
      | nil => exact absurd hsplit hne
      | cons line lines =>
        rw [hsplit] at h ih
        obtain rfl := List.length_eq_zero_iff.mp (Nat.succ.inj h)
        exact congrArg (u :: ·) (ih rfl)

/-- The yanked text goes, and the cursor to where it was. -/
theorem deleteYankedText_place (h : e.state.Valid) (hyanked : InsertedAt (splitLines text) e.state) :
    ∃ s, s.Valid ∧ e.deleteYankedText text = e.place s := by
  have hnonneg := h.nonneg
  have hin := h.inLine
  unfold deleteYankedText
  dsimp only
  split
  next hsingle =>
    have hle := hyanked.single hsingle
    rw [length_of_splitLines_single hsingle] at hle
    exact ⟨_, valid_cut h (by omega) (by omega), rfl⟩
  next hseveral =>
    have hfirst := hyanked.first hseveral
    have hline := h.line
    have hstart : e.state.cursorLine - ((splitLines text).length - 1) < e.state.lines.length := by omega
    generalize e.state.cursorLine - ((splitLines text).length - 1) = start at hfirst hstart ⊢
    have hstartText := EditorState.getD_clean h.clean start
    generalize e.state.lines.getD start [] = startText at hfirst hstartText ⊢
    obtain ⟨startCol, hstartCol⟩ :
        ∃ col : Int, col = startText.length - ((splitLines text).getD 0 []).length := ⟨_, rfl⟩
    rw [← hstartCol]
    have hslice := length_sliceTo (show 0 ≤ startCol by omega) (show startCol ≤ startText.length by omega)
    have hmerged : startCol ≤
        (sliceTo startText startCol ++ sliceFrom e.state.currentLine e.state.cursorCol).length := by
      rw [List.length_append]
      omega
    have hvalid := EditorState.valid_between (h.take_clean start) (h.drop_clean (start + (splitLines text).length))
      (clean_append (not_mem_sliceTo hstartText startCol) (h.after_clean e.state.cursorCol))
      (show 0 ≤ startCol by omega) hmerged
    rw [List.length_take, Nat.min_eq_left (Nat.le_of_lt hstart)] at hvalid
    rw [List.append_assoc, List.singleton_append]
    exact ⟨_, hvalid, rfl⟩

theorem yank_step (h : e.Inv) : Step e e.yank := by
  unfold yank
  split
  · exact ⟨h, .inl rfl⟩
  next text hlast =>
    obtain ⟨s, hs, hinserted, heq⟩ := insertLines_place (e := e.pushUndoSnapshot.exitHistoryBrowsing) h.state
      (splitLines_ne_nil text) (splitLines_clean text)
    rw [insertYankedText, heq]
    refine Step.of h hs (.inr rfl) nofun nofun rfl fun _ yanked hyanked => ?_
    obtain rfl : text = yanked := Option.some.inj (hlast.symm.trans hyanked)
    exact hinserted

theorem getLast?_rotate {ring : List Text} (h : 1 < ring.length) :
    (rotate ring).getLast? = some ((rotate ring).getLastD []) := by
  unfold rotate
  cases hlast : ring.getLast? with
  | none =>
    rw [List.getLast?_eq_none_iff.mp hlast] at h
    exact absurd h (by decide)
  | some last => rw [List.getLast?_cons, List.getLastD_eq_getLast?, List.getLast?_cons, Option.getD_some]

theorem yankPop_step (h : e.Inv) : Step e e.yankPop := by
  unfold yankPop
  split
  · exact ⟨h, .inl rfl⟩
  next hring =>
    obtain ⟨hlast, hseveral⟩ := not_or.mp hring
    have hseveral : 1 < e.killRing.length := by omega
    -- the text that was yanked goes
    have hyanked : InsertedAt (splitLines (e.killRing.getLastD [])) e.state := by
      apply h.yanked (not_not.mp hlast)
      have hne : e.killRing ≠ [] := List.ne_nil_of_length_pos (by omega)
      rw [Option.mem_def, List.getLastD_eq_getLast?, List.getLast?_eq_some_getLast hne, Option.getD_some]
    obtain ⟨s, hs, hdeleted⟩ := deleteYankedText_place (e := e.pushUndoSnapshot) h.state hyanked
    -- and the one before it comes
    let ring := rotate e.killRing
    let deleted : Editor := { e.pushUndoSnapshot.place s with killRing := ring }
    obtain ⟨s', hs', hinserted, heq⟩ := insertLines_place (e := deleted.exitHistoryBrowsing) hs
      (splitLines_ne_nil (ring.getLastD [])) (splitLines_clean _)
    have hyankPop : Step e (((deleted.exitHistoryBrowsing.place s')).act (some .yank)) := by
      refine Step.of h hs' (.inr rfl) nofun nofun rfl fun _ text htext => ?_
      obtain rfl : ring.getLastD [] = text := Option.some.inj ((getLast?_rotate hseveral).symm.trans htext)
      exact hinserted
    rw [hdeleted]
    rw [← heq] at hyankPop
    exact hyankPop

end Yanks

/-! ## The rest -/

section Rest

variable {e : Editor}

theorem navigateHistory_step (h : e.Inv) (up : Bool) : Step e (e.navigateHistory up) := by
  unfold navigateHistory
  dsimp only
  split
  · exact act_step h
  · generalize (if up then (e.act none).historyIndex + 1 else (e.act none).historyIndex - 1) = newIndex
    split
    · exact act_step h
    · -- the draft is kept when the browsing begins
      generalize hentered : (if (e.act none).historyIndex = -1 ∧ newIndex ≥ 0 then
        { (e.act none).pushUndoSnapshot with historyDraft := some (e.act none).state } else e.act none) = entered
      have hprepared : Prepared e { entered with historyIndex := newIndex } := by
        rw [← hentered]
        split
        · refine ⟨rfl, .inr rfl, fun draft hdraft => ?_, h.preferred, rfl, nofun⟩
          obtain rfl := Option.some.inj hdraft
          exact h.state
        · exact ⟨rfl, .inl rfl, h.historyDraft, h.preferred, rfl, nofun⟩
      split
      · split
        next draft hdraft =>
          exact Step.of h (hprepared.draft draft hdraft) hprepared.stack nofun nofun hprepared.width
            (yanked_of_lastAction hprepared.action)
        · obtain ⟨s, hs, heq⟩ :=
            setTextInternal_place { entered with historyIndex := newIndex, historyDraft := none } [] false
          rw [heq]
          refine Prepared.place ?_ h hs
          exact ⟨hprepared.state, hprepared.stack, nofun, hprepared.preferred, hprepared.width, hprepared.action⟩
      · obtain ⟨s, hs, heq⟩ := setTextInternal_place { entered with historyIndex := newIndex }
          (entered.history.getD newIndex.toNat []) up
        rw [heq]
        exact hprepared.place h hs

theorem addToHistory_step (h : e.Inv) (text : Text) : Step e (e.addToHistory text) := by
  unfold addToHistory
  dsimp only
  split
  · exact ⟨h, .inl rfl⟩
  · exact Step.of h h.state (.inl rfl) h.historyDraft h.preferred rfl (h.yanked_of_eq rfl rfl rfl)

theorem applyCompletion_step (h : e.Inv) {completion : Completion} (hvalid : (completion e.state).Valid) :
    Step e (e.applyCompletion completion) := by
  show Step e ((e.pushUndoSnapshot.act none).place (completion e.state))
  refine Prepared.place ?_ h hvalid
  exact ⟨rfl, .inr rfl, h.historyDraft, h.preferred, rfl, nofun⟩

theorem submitValue_inv (h : e.Inv) : e.submitValue.Inv :=
  ⟨EditorState.valid_empty, nofun, nofun, h.preferred, h.width, yanked_of_lastAction nofun⟩

theorem undo_inv (h : e.Inv) : e.undo.Inv := by
  unfold undo
  dsimp only
  split
  · exact (exitHistoryBrowsing_step h).inv
  next snapshot undoStack hstack =>
    have hstack : e.undoStack = snapshot :: undoStack := hstack
    have hundo := h.undoStack
    rw [hstack] at hundo
    exact ⟨hundo snapshot List.mem_cons_self, fun other hother => hundo other (List.mem_cons_of_mem _ hother),
      nofun, nofun, h.width, yanked_of_lastAction nofun⟩

theorem layoutWidth_pos (width padding : Nat) : 0 < layoutWidth width padding :=
  Nat.lt_of_lt_of_le Nat.zero_lt_one (Nat.le_max_left _ _)

theorem render_inv (h : e.Inv) (width padding : Nat) : Inv { e with lastWidth := layoutWidth width padding } :=
  ⟨h.state, h.undoStack, h.historyDraft, h.preferred, layoutWidth_pos width padding, h.yanked_of_eq rfl rfl rfl⟩

theorem create_inv : create.Inv :=
  ⟨EditorState.valid_empty, nofun, nofun, nofun, by decide, yanked_of_lastAction nofun⟩

end Rest

end Editor

end Mcpi.Tui
