import Mcpi.Tui.EditorMoves

/-!
# Runs of the editor

In every run the cursor stays in the text and undo goes back to where a unit began, as long as no step counts
a column from a line that it does not belong to.
-/

namespace Mcpi.Tui

open EditorText

namespace Editor

/-- What a step needs. A backspace over a marker, a move over visual lines and a completion are the only ones
that need anything. -/
def Sound (p : Platform) (stack : Nat) (e : Editor) : EditorOperation → Prop
  | .handleBackspace => BackspaceFits p e
  | .moveVertically down => VerticalKnown p stack (e.act none) down
  | .pageScroll down pageSize => PageKnown p stack (e.act none) down pageSize
  | .applyCompletion completion => (completion e.state).Valid
  | _ => True

def run (p : Platform) (stack : Nat) (e : Editor) (operations : List EditorOperation) : Editor :=
  operations.foldl (perform p stack) e

/-- Every step of the run has what it needs. -/
def SoundRun (p : Platform) (stack : Nat) : Editor → List EditorOperation → Prop
  | _, [] => True
  | e, operation :: operations =>
    Sound p stack e operation ∧ SoundRun p stack (perform p stack e operation) operations

/-- What an operation does to the undo stack. -/
def StackStep (e e' : Editor) : Prop :=
  e'.undoStack = e.undoStack ∨ e'.undoStack = e.snapshot :: e.undoStack ∨
    (∃ snapshot, e.undoStack = snapshot :: e'.undoStack) ∨ e'.undoStack = []

section Runs

variable {p : Platform} {stack : Nat} {e e' : Editor} {operation : EditorOperation} {operations : List EditorOperation}

theorem Step.perform (h : Step e e') : e'.Inv ∧ StackStep e e' :=
  ⟨h.inv, h.stack.imp_right .inl⟩

theorem undo_stack (e : Editor) : StackStep e e.undo := by
  unfold undo
  dsimp only
  split
  · exact .inl rfl
  next snapshot undoStack hstack => exact .inr (.inr (.inl ⟨snapshot, hstack⟩))

/-- **One operation** keeps the invariant. -/
theorem perform_inv (h : e.Inv) (hsound : Sound p stack e operation) :
    (perform p stack e operation).Inv ∧ StackStep e (perform p stack e operation) := by
  cases operation with
  | insertCharacter char single => exact (insertCharacter_step h single).perform
  | handlePaste text => exact (handlePaste_step h text).perform
  | addNewLine => exact (addNewLine_step h).perform
  | submitValue => exact ⟨submitValue_inv h, .inr (.inr (.inr rfl))⟩
  | undo => exact ⟨undo_inv h, e.undo_stack⟩
  | handleBackspace => exact (handleBackspace_step h hsound).perform
  | handleForwardDelete => exact (handleForwardDelete_step h).perform
  | deleteToStartOfLine => exact (deleteToStartOfLine_step h).perform
  | deleteToEndOfLine => exact (deleteToEndOfLine_step h).perform
  | deleteWordBackwards => exact (deleteWordBackwards_step h).perform
  | deleteWordForward => exact (deleteWordForward_step h).perform
  | yank => exact (yank_step h).perform
  | yankPop => exact (yankPop_step h).perform
  | navigateHistory up => exact (navigateHistory_step h up).perform
  | moveToLineStart => exact (moveToLineStart_step h).perform
  | moveToLineEnd => exact (moveToLineEnd_step h).perform
  | moveWordBackwards => exact (moveWordBackwards_step h).perform
  | moveWordForwards => exact (moveWordForwards_step h).perform
  | moveVertically down => exact (moveVertically_step h down hsound).perform
  | moveLeft => exact (moveLeft_step h).perform
  | moveRight => exact (moveRight_step h).perform
  | pageScroll down pageSize => exact (pageScroll_step h down pageSize hsound).perform
  | jumpToChar char forward => exact (jumpToChar_step h char forward).perform
  | applyCompletion completion => exact (applyCompletion_step h hsound).perform
  | setText text => exact (setText_step h text).perform
  | insertTextAtCursor text => exact (insertTextAtCursor_step h text).perform
  | addToHistory text => exact (addToHistory_step h text).perform
  | render width padding => exact ⟨render_inv h width padding, .inl rfl⟩

theorem run_append (e : Editor) (first second : List EditorOperation) :
    run p stack e (first ++ second) = run p stack (run p stack e first) second :=
  List.foldl_append

theorem SoundRun.of_append {first second : List EditorOperation} (h : SoundRun p stack e (first ++ second)) :
    SoundRun p stack e first ∧ SoundRun p stack (run p stack e first) second := by
  induction first generalizing e with
  | nil => exact ⟨trivial, h⟩
  | cons operation first ih =>
    obtain ⟨hfirst, hsecond⟩ := ih h.2
    exact ⟨⟨h.1, hfirst⟩, hsecond⟩

/-- **Every run** keeps the invariant. -/
theorem run_inv (h : e.Inv) (hsound : SoundRun p stack e operations) : (run p stack e operations).Inv := by
  induction operations generalizing e with
  | nil => exact h
  | cons operation operations ih => exact ih (perform_inv h hsound.1).1 hsound.2

/-! ## Units -/

variable {below : List EditorSnapshot}

theorem StackStep.suffix (h : StackStep e e') (hbelow : below <:+ e.undoStack)
    (hdepth : below.length ≤ e'.undoStack.length) : below <:+ e'.undoStack := by
  rcases h with heq | heq | ⟨snapshot, heq⟩ | heq
  · rw [heq]
    exact hbelow
  · rw [heq]
    exact hbelow.trans (List.suffix_cons _ _)
  · rw [heq, List.suffix_cons_iff] at hbelow
    rcases hbelow with rfl | hin
    · rw [List.length_cons] at hdepth
      omega
    · exact hin
  · rw [heq, List.length_nil, Nat.le_zero, List.length_eq_zero_iff] at hdepth
    rw [hdepth]
    exact List.nil_suffix

/-- What is on the undo stack stays there as long as the stack stays as deep. -/
theorem run_suffix (h : e.Inv) (hsound : SoundRun p stack e operations) (hbelow : below <:+ e.undoStack)
    (hdepth : ∀ part, part <+: operations → below.length ≤ (run p stack e part).undoStack.length) :
    below <:+ (run p stack e operations).undoStack := by
  induction operations generalizing e with
  | nil => exact hbelow
  | cons operation operations ih =>
    obtain ⟨hinv, hstack⟩ := perform_inv h hsound.1
    apply ih hinv hsound.2
    · exact hstack.suffix hbelow (hdepth [operation] ⟨operations, rfl⟩)
    · intro part hpart
      exact hdepth (operation :: part) ((List.prefix_cons_inj operation).mpr hpart)

/-- A step that puts something on the undo stack puts there what the editor was. -/
theorem StackStep.pushed (h : StackStep e e') (hdepth : e'.undoStack.length = e.undoStack.length + 1) :
    e'.undoStack = e.snapshot :: e.undoStack := by
  rcases h with heq | heq | ⟨snapshot, heq⟩ | heq
  · rw [heq] at hdepth
    omega
  · exact heq
  · rw [heq, List.length_cons] at hdepth
    omega
  · rw [heq] at hdepth
    cases hdepth

theorem undo_of_stack {snapshot : EditorSnapshot} (h : e.undoStack = snapshot :: below) :
    e.undo.state = snapshot.state ∧ e.undo.pastes = snapshot.pastes ∧ e.undo.pasteCounter = snapshot.pasteCounter := by
  have hexit : e.exitHistoryBrowsing.undoStack = snapshot :: below := h
  unfold undo
  dsimp only
  rw [hexit]
  exact ⟨rfl, rfl, rfl⟩

/-- **The cursor in a run**: it is in the text in every state, and undo restores what the text, the cursor and
the pastes were before the unit that it undoes. -/
theorem cursor_in_text (p : Platform) (stack : Nat) {operations : List EditorOperation}
    (h : SoundRun p stack create operations) :
    (∀ part, part <+: operations → (run p stack create part).state.Valid) ∧
      ∀ before operation unit after, operations = before ++ operation :: (unit ++ .undo :: after) →
        let e := run p stack create before
        let began := perform p stack e operation
        began.undoStack.length = e.undoStack.length + 1 →
        (∀ part, part <+: unit → e.undoStack.length < (run p stack began part).undoStack.length) →
        (run p stack began unit).undoStack.length = e.undoStack.length + 1 →
        let undone := run p stack create (before ++ operation :: (unit ++ [.undo]))
        undone.state = e.state ∧ undone.pastes = e.pastes ∧ undone.pasteCounter = e.pasteCounter := by
  constructor
  · rintro part ⟨rest, rfl⟩
    exact (run_inv create_inv h.of_append.1).state
  · rintro before operation unit after rfl
    intro e began hbegan hdeep hend
    obtain ⟨hbefore, hafter⟩ := h.of_append
    have hinv : e.Inv := run_inv create_inv hbefore
    obtain ⟨hbeganInv, hstack⟩ := perform_inv hinv hafter.1
    have hpushed : began.undoStack = e.snapshot :: e.undoStack := hstack.pushed hbegan
    have hunit : SoundRun p stack began unit := (SoundRun.of_append hafter.2).1
    have hsuffix : e.snapshot :: e.undoStack <:+ (run p stack began unit).undoStack := by
      apply run_suffix hbeganInv hunit
      · rw [hpushed]
      · exact hdeep
    have hfinal : e.snapshot :: e.undoStack = (run p stack began unit).undoStack :=
      hsuffix.eq_of_length (by rw [hend, List.length_cons])
    have hundone : run p stack create (before ++ operation :: (unit ++ [.undo])) = (run p stack began unit).undo := by
      rw [run_append]
      show run p stack began (unit ++ [.undo]) = _
      rw [run_append]
      rfl
    intro undone
    rw [show undone = (run p stack began unit).undo from hundone]
    exact undo_of_stack hfinal.symm

end Runs

/-! ## Plain text -/

/-- Every character of its own, as for ASCII text. -/
def singleUnits : Segmenter where
  pieces text := text.map fun u => ([u], true)
  covers text := by
    rw [List.flatMap_map]
    exact List.flatMap_singleton' text
  nonempty text piece hpiece := by
    obtain ⟨u, -, rfl⟩ := List.mem_map.mp hpiece
    exact List.cons_ne_nil _ _

/-- Every code point takes a column. -/
def narrowTables : UnicodeTables where
  defaultIgnorable _ := false
  format _ := false
  mark _ := false
  spacingMark _ := false
  rgiEmoji _ := false
  eastAsianWidth _ := 1
  cjkScript _ := false

def asciiPlatform : Platform where
  graphemeSegmenter := singleUnits
  wordSegmenter := singleUnits
  unicode := narrowTables
  predecessor _ := []
  predecessor_clean _ := List.not_mem_nil

theorem cursor_in_text_typed :
    let operations : List EditorOperation :=
      [.insertCharacter [unit 'a'] (by decide), .addNewLine, .handleBackspace, .undo, .undo]
    SoundRun asciiPlatform 1 create operations ∧
      (run asciiPlatform 1 create [.insertCharacter [unit 'a'] (by decide)]).state.Valid := by
  have hsound : SoundRun asciiPlatform 1 create
      [.insertCharacter [unit 'a'] (by decide), .addNewLine, .handleBackspace, .undo, .undo] :=
    ⟨trivial, trivial, fun hpos => absurd hpos (by decide), trivial, trivial, trivial⟩
  exact ⟨hsound, (cursor_in_text asciiPlatform 1 hsound).1 _ ⟨_, rfl⟩⟩

/-- A marker below a letter, and three visual lines below the marker; the cursor goes down onto the marker,
which is deleted, and down again. -/
def staleColumn : List EditorOperation :=
  [.render 21 0, .insertCharacter [unit 'x'] (by decide), .addNewLine, .handlePaste (List.replicate 10 newline),
    .addNewLine, .handlePaste (List.replicate 41 (unit 'b')), .jumpToChar [unit 'x'] false, .moveRight,
    .moveVertically true, .handleForwardDelete, .moveVertically true]

theorem stale_column_negative : (run asciiPlatform 1 create staleColumn).state.cursorCol = -39 := by
  decide +kernel

theorem stale_column_leaves_text : ¬(run asciiPlatform 1 create staleColumn).state.Valid := by
  intro h
  have hnonneg := h.nonneg
  rw [stale_column_negative] at hnonneg
  exact absurd hnonneg (by decide)

end Editor

end Mcpi.Tui
