import Mcpi.Tui.EditorRuns
import Mathlib.Data.List.Rotate

/-!
# Killing and yanking

What a run of kills removes is one entry of the ring, in the order of the text: a kill to the left
comes before the entry, one to the right behind it. A yank puts an entry at the cursor, and a
yank-pop takes it away again before it puts the next one there. Texts are seen from the cursor, what
is before it and what is after it.
-/

namespace Mcpi.Tui

open EditorText

/-! ## Texts around the cursor -/

def linesBefore (lines : List Text) : Text := lines.flatMap (· ++ [newline])

def linesAfter (lines : List Text) : Text := lines.flatMap (newline :: ·)

namespace EditorState

def textBefore (s : EditorState) : Text :=
  linesBefore (s.lines.take s.cursorLine) ++ sliceTo s.currentLine s.cursorCol

def textAfter (s : EditorState) : Text :=
  sliceFrom s.currentLine s.cursorCol ++ linesAfter (s.lines.drop (s.cursorLine + 1))

/-- The cursor is between two parts of its line, and that line between the others. -/
structure Around (s : EditorState) (pre : List Text) (before after : Text) (post : List Text) :
    Prop where
  lines : s.lines = pre ++ (before ++ after) :: post
  line : s.cursorLine = pre.length
  col : s.cursorCol = before.length

variable {s : EditorState} {pre post : List Text} {before after : Text}

theorem sliceTo_length (before after : Text) : sliceTo (before ++ after) before.length = before := by
  rw [sliceTo, if_neg (by omega), Int.toNat_natCast, List.take_left]

theorem sliceFrom_length (before after : Text) : sliceFrom (before ++ after) before.length = after := by
  rw [sliceFrom, if_neg (by omega), Int.toNat_natCast, List.drop_left]

theorem Around.currentLine (h : s.Around pre before after post) : s.currentLine = before ++ after := by
  rw [EditorState.currentLine, h.lines, h.line]
  simp

theorem Around.sliceTo (h : s.Around pre before after post) : sliceTo s.currentLine s.cursorCol = before := by
  rw [h.currentLine, h.col, sliceTo_length]

theorem Around.sliceFrom (h : s.Around pre before after post) : sliceFrom s.currentLine s.cursorCol = after := by
  rw [h.currentLine, h.col, sliceFrom_length]

theorem Around.textBefore (h : s.Around pre before after post) : s.textBefore = linesBefore pre ++ before := by
  rw [EditorState.textBefore, h.sliceTo, h.lines, h.line, List.take_left]

theorem Around.textAfter (h : s.Around pre before after post) : s.textAfter = after ++ linesAfter post := by
  rw [EditorState.textAfter, h.sliceFrom, h.lines, h.line]
  simp

theorem Valid.around (h : s.Valid) : ∃ pre before after post, s.Around pre before after post := by
  have hline := h.line
  have hnonneg := h.nonneg
  have hin := h.inLine
  have hcurrent : s.currentLine = s.lines[s.cursorLine] := by
    rw [EditorState.currentLine, List.getD_eq_getElem?_getD, List.getElem?_eq_getElem hline]
    rfl
  refine ⟨s.lines.take s.cursorLine, s.currentLine.take s.cursorCol.toNat,
    s.currentLine.drop s.cursorCol.toNat, s.lines.drop (s.cursorLine + 1), ?_, ?_, ?_⟩
  · rw [List.take_append_drop, hcurrent, List.getElem_cons_drop, List.take_append_drop]
  · rw [List.length_take, Nat.min_eq_left hline.le]
  · rw [List.length_take]
    omega

end EditorState

namespace Editor

open EditorState

variable {e : Editor} {pre post : List Text} {before after : Text}

theorem intercalate_lines (pre : List Text) (line : Text) (post : List Text) :
    List.intercalate [newline] (pre ++ line :: post) = linesBefore pre ++ line ++ linesAfter post := by
  have hcons : ∀ (line next : Text) (rest : List Text), List.intercalate [newline] (line :: next :: rest) =
        line ++ newline :: List.intercalate [newline] (next :: rest) := by
    intro line next rest
    simp [List.intercalate]
  have hpost : ∀ line : Text, List.intercalate [newline] (line :: post) = line ++ linesAfter post := by
    induction post with
    | nil => simp [List.intercalate, linesAfter]
    | cons next post ih =>
      intro line
      rw [hcons, ih]
      rfl
  induction pre with
  | nil => exact hpost line
  | cons first pre ih =>
    have hfirst : linesBefore (first :: pre) = first ++ newline :: linesBefore pre := by
      simp [linesBefore]
    rw [List.cons_append, hfirst]
    cases pre with
    | nil =>
      rw [List.nil_append, hcons, hpost]
      simp [linesBefore]
    | cons second pre =>
      rw [List.cons_append, hcons, ← List.cons_append, ih]
      simp

/-- The text is what is before the cursor and what is after it. -/
theorem getText_eq (h : e.state.Valid) : e.getText = e.state.textBefore ++ e.state.textAfter := by
  obtain ⟨pre, before, after, post, haround⟩ := h.around
  rw [getText, haround.textBefore, haround.textAfter, haround.lines, intercalate_lines]
  simp only [List.append_assoc]

/-! ## Yanked text -/

theorem splitLines_flat (text : Text) : ∃ first rest, splitLines text = first :: rest ∧
    text = first ++ linesAfter rest := by
  induction text with
  | nil => exact ⟨[], [], rfl, rfl⟩
  | cons u text ih =>
    obtain ⟨first, rest, hsplit, htext⟩ := ih
    rw [splitLines]
    split
    next hu =>
      refine ⟨[], splitLines text, rfl, ?_⟩
      rw [hsplit, hu]
      conv_lhs => rw [htext]
      rfl
    next hu =>
      rw [hsplit]
      exact ⟨u :: first, rest, rfl, congrArg (u :: ·) htext⟩

/-- A text is at the cursor, which is behind it. -/
inductive Put (pre : List Text) (before after : Text) (post : List Text) (text : Text)
    (s : EditorState) : Prop
  | line (hsplit : splitLines text = [text]) (haround : s.Around pre (before ++ text) after post)
  | lines (first last : Text) (mid : List Text) (hsplit : splitLines text = first :: (mid ++ [last]))
      (haround : s.Around (pre ++ (before ++ first) :: mid) last after post)

theorem linesAfter_concat (mid : List Text) (last : Text) :
    linesAfter (mid ++ [last]) = newline :: (linesBefore mid ++ last) := by
  induction mid with
  | nil => simp [linesAfter, linesBefore]
  | cons line mid ih =>
    have h : linesAfter (line :: (mid ++ [last])) = newline :: (line ++ linesAfter (mid ++ [last])) := by
      simp [linesAfter]
    rw [List.cons_append, h, ih]
    simp [linesBefore]

theorem Put.text {text : Text} {s : EditorState} (h : Put pre before after post text s) :
    s.textBefore = linesBefore pre ++ before ++ text ∧ s.textAfter = after ++ linesAfter post := by
  cases h with
  | line hsplit haround => exact ⟨by rw [haround.textBefore, List.append_assoc], haround.textAfter⟩
  | lines first last mid hsplit haround =>
    refine ⟨?_, haround.textAfter⟩
    obtain ⟨first', rest, hsplit', htext⟩ := splitLines_flat text
    obtain ⟨rfl, rfl⟩ := List.cons.inj (hsplit'.symm.trans hsplit)
    rw [haround.textBefore, htext, linesAfter_concat]
    simp [linesBefore]

/-- **Text goes in at the cursor.** -/
theorem put_insertLines (h : e.state.Around pre before after post) (text : Text) :
    Put pre before after post text (e.insertLines (splitLines text)).state := by
  obtain ⟨first, rest, hsplit, htext⟩ := splitLines_flat text
  rcases List.eq_nil_or_concat rest with rfl | ⟨mid, last, rfl⟩
  · obtain rfl : text = first := by simpa [linesAfter] using htext
    refine .line hsplit ?_
    rw [hsplit, insertLines, h.sliceTo, h.sliceFrom]
    refine ⟨?_, h.line, ?_⟩
    · show e.state.lines.set e.state.cursorLine _ = _
      rw [h.lines, h.line]
      simp
    · show e.state.cursorCol + (text.length : Int) = _
      rw [h.col, List.length_append]
      rfl
  · rw [List.concat_eq_append] at hsplit
    refine .lines first last mid hsplit ?_
    have hlast : (mid ++ [last]).getLastD [] = last := by
      rw [List.getLastD_eq_getLast?, List.getLast?_concat, Option.getD_some]
    cases hrest : mid ++ [last] with
    | nil => exact absurd hrest (by simp)
    | cons second others =>
      rw [hsplit, hrest]
      unfold insertLines
      dsimp only
      rw [← hrest, hlast, List.dropLast_concat, h.sliceTo, h.sliceFrom]
      refine ⟨?_, ?_, rfl⟩
      · show e.state.lines.take e.state.cursorLine ++ _ ++ e.state.lines.drop (e.state.cursorLine + 1) = _
        rw [h.lines, h.line]
        simp
      · show e.state.cursorLine + (_ - 1) = _
        rw [h.line]
        simp

/-- **Text that is at the cursor goes again**, and the cursor to where it was. -/
theorem around_deleteYankedText {text : Text} (h : Put pre before after post text e.state) :
    (e.deleteYankedText text).state.Around pre before after post := by
  cases h with
  | line hsplit haround =>
    have hcol : e.state.cursorCol - (text.length : Int) = before.length := by
      rw [haround.col, List.length_append]
      omega
    rw [deleteYankedText, hsplit]
    dsimp only [List.length_singleton]
    rw [if_pos rfl, hcol, haround.sliceFrom, haround.currentLine, List.append_assoc, sliceTo_length]
    refine ⟨?_, haround.line, rfl⟩
    show e.state.lines.set e.state.cursorLine _ = _
    rw [haround.lines, haround.line]
    simp
  | lines first last mid hsplit haround =>
    have hlength : (splitLines text).length = mid.length + 2 := by rw [hsplit]; simp
    have hstart : e.state.cursorLine - ((splitLines text).length - 1) = pre.length := by
      rw [haround.line, hlength]
      simp
    have hstartText : e.state.lines.getD pre.length [] = before ++ first := by
      rw [haround.lines]
      simp
    have hcol : (((before ++ first).length : Nat) : Int) - (first.length : Nat) = before.length := by
      rw [List.length_append]
      omega
    rw [deleteYankedText, if_neg (by omega)]
    dsimp only
    rw [hstart, hstartText, haround.sliceFrom, hlength, hsplit, List.getD_cons_zero, hcol, sliceTo_length]
    refine ⟨?_, rfl, rfl⟩
    show e.state.lines.take pre.length ++ [before ++ after] ++ e.state.lines.drop (pre.length + (mid.length + 2)) = _
    have hpre : pre.drop (pre.length + (mid.length + 2)) = [] :=
      List.drop_eq_nil_of_le (Nat.le_add_right _ _)
    have hmid : mid.drop (mid.length + 1) = [] := List.drop_eq_nil_of_le (Nat.le_succ _)
    rw [haround.lines]
    simp [List.drop_append, hpre, hmid]

/-! ## The ring -/

theorem killRing_insertLines (e : Editor) (lines : List Text) : (e.insertLines lines).killRing = e.killRing := by
  unfold insertLines
  split
  · rfl
  · rfl
  · rfl

theorem killRing_deleteYankedText (e : Editor) (text : Text) : (e.deleteYankedText text).killRing = e.killRing := by
  unfold deleteYankedText
  dsimp only
  split
  · rfl
  · rfl

theorem reverse_rotate (ring : List Text) : (rotate ring).reverse = ring.reverse.rotate 1 := by
  rcases List.eq_nil_or_concat ring with rfl | ⟨init, last, rfl⟩
  · rfl
  · rw [List.concat_eq_append, rotate, List.getLast?_concat]
    simp

theorem reverse_rotate_iterate (ring : List Text) (k : Nat) : ((rotate)^[k] ring).reverse = ring.reverse.rotate k := by
  induction k with
  | zero => simp
  | succ k ih => rw [Function.iterate_succ_apply', reverse_rotate, ih, List.rotate_rotate]

/-- The entry some steps back in the ring. -/
def entryBack (ring : List Text) (k : Nat) : Text := ring.reverse.getD (k % ring.length) []

theorem getLast?_rotate_iterate {ring : List Text} (hne : ring ≠ []) (k : Nat) :
    ((rotate)^[k] ring).getLast? = some (entryBack ring k) := by
  have hlt : k % ring.length < ring.reverse.length := by
    rw [List.length_reverse]
    exact Nat.mod_lt _ (List.length_pos_iff.mpr hne)
  rw [← List.head?_reverse, reverse_rotate_iterate, ← List.rotate_mod, List.length_reverse,
    List.head?_rotate hlt, entryBack, List.getD_eq_getElem?_getD, List.getElem?_eq_getElem hlt]
  rfl

theorem length_rotate (ring : List Text) : (rotate ring).length = ring.length := by
  rw [← List.length_reverse, reverse_rotate, List.length_rotate, List.length_reverse]

/-! ## Yanks and yank-pops -/

/-- After a yank and some yank-pops. -/
structure Yanking (pre : List Text) (before after : Text) (post : List Text) (entries : List Text)
    (k : Nat) (e : Editor) : Prop where
  action : e.lastAction = some .yank
  ring : e.killRing = (rotate)^[k] entries
  put : Put pre before after post (entryBack entries k) e.state

theorem yanking_yank (h : e.state.Around pre before after post) (hne : e.killRing ≠ []) :
    Yanking pre before after post e.killRing 0 e.yank := by
  have hlast : e.killRing.getLast? = some (entryBack e.killRing 0) := getLast?_rotate_iterate hne 0
  rw [yank, hlast]
  exact ⟨rfl, killRing_insertLines _ _, @put_insertLines e.pushUndoSnapshot.exitHistoryBrowsing _ _ _ _ h _⟩

theorem Yanking.yankPop {ring : List Text} {k : Nat} (h : Yanking pre before after post ring k e)
    (hne : ring ≠ []) : Yanking pre before after post ring (k + 1) e.yankPop := by
  have hlength : e.killRing.length = ring.length := by
    rw [h.ring]
    clear h
    induction k with
    | zero => rfl
    | succ k ih => rw [Function.iterate_succ_apply', length_rotate, ih]
  unfold Editor.yankPop
  split
  next hnone =>
    -- A ring of one entry stays as it is.
    have hone : ring.length = 1 := by
      have := List.length_pos_iff.mpr hne
      rcases hnone with hnone | hnone
      · exact absurd h.action hnone
      · omega
    obtain ⟨entry, rfl⟩ := List.length_eq_one_iff.mp hone
    refine ⟨h.action, h.ring.trans ?_, ?_⟩
    · rw [Function.iterate_succ_apply]
      rfl
    · have hentry : entryBack [entry] (k + 1) = entryBack [entry] k := by
        rw [entryBack, entryBack, List.length_singleton, Nat.mod_one, Nat.mod_one]
      rw [hentry]
      exact h.put
  next hseveral =>
    have hentry : e.killRing.getLastD [] = entryBack ring k := by
      rw [List.getLastD_eq_getLast?, h.ring, getLast?_rotate_iterate hne, Option.getD_some]
    have hnext : (rotate e.killRing).getLastD [] = entryBack ring (k + 1) := by
      rw [List.getLastD_eq_getLast?, h.ring, ← Function.iterate_succ_apply' rotate,
        getLast?_rotate_iterate hne, Option.getD_some]
    dsimp only
    rw [hentry]
    have haround := @around_deleteYankedText e.pushUndoSnapshot _ _ _ _ _ h.put
    have hring := killRing_deleteYankedText e.pushUndoSnapshot (entryBack ring k)
    generalize e.pushUndoSnapshot.deleteYankedText (entryBack ring k) = deleted at haround hring ⊢
    have hring : deleted.killRing = e.killRing := hring
    rw [hring, hnext]
    refine ⟨rfl, ?_, @put_insertLines
      (Editor.exitHistoryBrowsing { deleted with killRing := rotate e.killRing }) _ _ _ _ haround _⟩
    rw [Function.iterate_succ_apply', ← h.ring]
    exact killRing_insertLines _ _

/-! ## Words -/

/-- A segment is not empty, and one that is like a word has no punctuation at its ends. -/
def Proper (seg : Segment) : Prop :=
  seg.segment ≠ [] ∧ (seg.isWordLike = true → ∀ u, seg.segment.head? = some u ∨
    seg.segment.getLast? = some u → isPunctuation u = false)

theorem total_pos {segments : List Segment} (hne : segments ≠ [])
    (hproper : ∀ seg ∈ segments, Proper seg) : 0 < total segments := by
  cases segments with
  | nil => exact absurd rfl hne
  | cons seg segments =>
    rw [total_cons]
    have := List.length_pos_iff.mpr (hproper seg List.mem_cons_self).1
    omega

variable {seg : Segment}

/-- What is not blank, no marker and not like a word is a symbol. -/
theorem total_symbols_pos {segments : List Segment} (hproper : Proper seg)
    (hblank : isBlank seg = false) (hmarker : isPasteMarker seg.segment = false)
    (hword : seg.isWordLike = false) : 0 < total ((seg :: segments).takeWhile isSymbol) := by
  have hsymbol : isSymbol seg = true := by
    rw [isBlank, hmarker] at hblank
    rw [isSymbol, hmarker, hword]
    simpa using hblank
  rw [List.takeWhile_cons_of_pos hsymbol, total_cons]
  have := List.length_pos_iff.mpr hproper.1
  omega

theorem dropWhile_head {segments rest : List Segment}
    (h : segments.dropWhile isBlank = seg :: rest) : seg ∈ segments ∧ isBlank seg = false := by
  have hhead := List.head?_dropWhile_not isBlank segments
  rw [h] at hhead
  exact ⟨(List.dropWhile_sublist _).subset (h ▸ List.mem_cons_self), by simpa using hhead⟩

theorem length_word_pos {word : Text} (h : ∀ u, word.head? = some u → isPunctuation u = false)
    (hne : word ≠ []) : 0 < (word.takeWhile fun u => !isPunctuation u).length := by
  cases word with
  | nil => exact absurd rfl hne
  | cons u word =>
    rw [List.takeWhile_cons_of_pos (by rw [h u rfl]; rfl)]
    exact Nat.succ_pos _

theorem findWordBackward_lt {segments : List Segment} {cursor : Int} (hcursor : 0 < cursor)
    (hne : segments ≠ []) (hproper : ∀ seg ∈ segments, Proper seg) :
    findWordBackward segments cursor < cursor := by
  unfold findWordBackward
  rw [if_neg (by omega)]
  have hsplit := total_takeWhile_add isBlank segments.reverse
  rw [total_reverse] at hsplit
  cases hrest : segments.reverse.dropWhile isBlank with
  | nil =>
    have := total_pos hne hproper
    rw [hrest, total_nil] at hsplit
    dsimp only
    omega
  | cons last rest =>
    obtain ⟨hmem, hblank⟩ := dropWhile_head hrest
    have hlast := hproper last (List.mem_reverse.mp hmem)
    have hlength := List.length_pos_iff.mpr hlast.1
    dsimp only
    split
    next => omega
    next hmarker =>
      split
      next hword =>
        have := @length_word_pos last.segment.reverse
          (fun u hu => hlast.2 hword u (.inr (by rwa [List.head?_reverse] at hu)))
          (by simpa using hlast.1)
        omega
      next hword =>
        have := @total_symbols_pos last rest hlast hblank (by simpa using hmarker) (by simpa using hword)
        omega

theorem lt_findWordForward {segments : List Segment} {cursor : Int} {length : Nat}
    (hcursor : cursor < length) (hne : segments ≠ []) (hproper : ∀ seg ∈ segments, Proper seg) :
    cursor < findWordForward segments cursor length := by
  unfold findWordForward
  rw [if_neg (by omega)]
  have hsplit := total_takeWhile_add isBlank segments
  cases hrest : segments.dropWhile isBlank with
  | nil =>
    have := total_pos hne hproper
    rw [hrest, total_nil] at hsplit
    dsimp only
    omega
  | cons first rest =>
    obtain ⟨hmem, hblank⟩ := dropWhile_head hrest
    have hfirst := hproper first hmem
    have hlength := List.length_pos_iff.mpr hfirst.1
    dsimp only
    split
    next => omega
    next hmarker =>
      split
      next hword =>
        have := @length_word_pos first.segment (fun u hu => hfirst.2 hword u (.inl hu)) hfirst.1
        omega
      next hword =>
        have := @total_symbols_pos first rest hfirst hblank (by simpa using hmarker) (by simpa using hword)
        omega

/-- A merged segment is one of those that were there, or a marker. -/
theorem mem_mergeMarkers {text : Text} {segments : List Segment} {markers : List (Nat × Nat)}
    (hindex : ∀ seg ∈ segments, seg.index < text.length)
    (h : seg ∈ mergeMarkers text markers segments) :
    seg ∈ segments ∨ seg.isWordLike = false ∧ seg.segment ≠ [] := by
  induction segments generalizing markers with
  | nil => cases h
  | cons first segments ih =>
    rw [List.forall_mem_cons] at hindex
    have hrest : ∀ {markers}, seg ∈ mergeMarkers text markers segments →
        seg ∈ first :: segments ∨ seg.isWordLike = false ∧ seg.segment ≠ [] :=
      fun hmem => (ih hindex.2 hmem).imp_left (List.mem_cons_of_mem _)
    rw [mergeMarkers] at h
    split at h
    · split at h
      next hin =>
        split at h
        next hstart =>
          rcases List.mem_cons.mp h with rfl | hmem
          · refine .inr ⟨rfl, ?_⟩
            have hlt := hindex.1
            rw [← List.length_pos_iff, List.length_take, List.length_drop]
            omega
          · exact hrest hmem
        next => exact hrest h
      next =>
        rcases List.mem_cons.mp h with rfl | hmem
        · exact .inl List.mem_cons_self
        · exact hrest hmem
    · rcases List.mem_cons.mp h with rfl | hmem
      · exact .inl List.mem_cons_self
      · exact hrest hmem

/-- The first segment of a text stays, or is the beginning of a marker. -/
theorem mergeMarkers_ne_nil (text : Text) (markers : List (Nat × Nat))
    (segments : List Segment) (h : seg.index = 0) : mergeMarkers text markers (seg :: segments) ≠ [] := by
  rw [mergeMarkers]
  split
  · split
    next hin =>
      split
      · exact List.cons_ne_nil _ _
      next hstart => exact absurd (by omega) hstart
    · exact List.cons_ne_nil _ _
  · exact List.cons_ne_nil _ _

/-- What is asked of the segmenter of words: no punctuation at the ends of what is like a word. -/
def ProperWords (segmenter : Segmenter) : Prop :=
  ∀ text, ∀ piece ∈ segmenter.pieces text, piece.2 = true →
    ∀ u, piece.1.head? = some u ∨ piece.1.getLast? = some u → isPunctuation u = false

theorem proper_segment {segmenter : Segmenter} (h : ProperWords segmenter) (text : Text) :
    ∀ seg ∈ segmenter.segment text, Proper seg := by
  have hindexed : ∀ (pieces : List (Text × Bool)) (index : Nat), ∀ seg ∈ indexed index pieces,
      ∃ piece ∈ pieces, seg.segment = piece.1 ∧ seg.isWordLike = piece.2 := by
    intro pieces
    induction pieces with
    | nil => exact fun _ _ hmem => nomatch hmem
    | cons piece pieces ih =>
      intro index seg hmem
      rcases List.mem_cons.mp hmem with rfl | hmem
      · exact ⟨piece, List.mem_cons_self, rfl, rfl⟩
      · obtain ⟨piece', hpiece, heq⟩ := ih _ seg hmem
        exact ⟨piece', List.mem_cons_of_mem _ hpiece, heq⟩
  intro seg hseg
  obtain ⟨piece, hpiece, htext, hword⟩ := hindexed _ _ seg hseg
  exact ⟨htext ▸ segmenter.nonempty text piece hpiece,
    fun hlike u hu => h text piece hpiece (hword ▸ hlike) u (htext ▸ hu)⟩

theorem proper_words {p : Platform} (hwords : ProperWords p.wordSegmenter) (e : Editor)
    {text : Text} (hne : text ≠ []) :
    e.words p text ≠ [] ∧ ∀ seg ∈ e.words p text, Proper seg := by
  have hproper := proper_segment hwords text
  obtain ⟨seg, segments, hsegments, hindex⟩ : ∃ seg segments,
      p.wordSegmenter.segment text = seg :: segments ∧ seg.index = 0 := by
    have hcovers := p.wordSegmenter.covers text
    rw [Segmenter.segment]
    cases hpieces : p.wordSegmenter.pieces text with
    | nil =>
      rw [hpieces] at hcovers
      exact absurd hcovers.symm hne
    | cons piece pieces => exact ⟨_, _, rfl, rfl⟩
  unfold words segmentWithMarkers
  dsimp only
  split
  · exact ⟨by rw [hsegments]; exact List.cons_ne_nil _ _, hproper⟩
  · refine ⟨by rw [hsegments]; exact mergeMarkers_ne_nil _ _ _ hindex, fun other hother => ?_⟩
    have hlt : ∀ seg ∈ p.wordSegmenter.segment text, seg.index < text.length := by
      intro seg hseg
      have hplaced := ((placed_segment p.wordSegmenter text).mem hseg).2
      have := List.length_pos_iff.mpr (hproper seg hseg).1
      omega
    rcases mem_mergeMarkers hlt hother with hmem | ⟨hword, hsegment⟩
    · exact hproper other hmem
    · exact ⟨hsegment, fun hlike => by rw [hword] at hlike; cases hlike⟩

theorem slice_ne_nil {text : Text} {start : Int} (h0 : 0 ≤ start) (hlt : start < text.length) :
    sliceFrom text start ≠ [] := by
  intro hnil
  have := length_sliceFrom h0 hlt.le
  rw [hnil, List.length_nil] at this
  omega

theorem wordBackward_lt {p : Platform} (hwords : ProperWords p.wordSegmenter) (h : e.state.Valid)
    (hpos : 0 < e.state.cursorCol) : e.wordBackward p < e.state.cursorCol := by
  have hne : sliceTo e.state.currentLine e.state.cursorCol ≠ [] := by
    intro hnil
    have := h.length_before
    rw [hnil, List.length_nil] at this
    omega
  obtain ⟨hsome, hproper⟩ := proper_words hwords e hne
  exact findWordBackward_lt hpos hsome hproper

theorem lt_wordForward {p : Platform} (hwords : ProperWords p.wordSegmenter) (h : e.state.Valid)
    (hlt : e.state.cursorCol < e.state.currentLine.length) : e.state.cursorCol < e.wordForward p := by
  obtain ⟨hsome, hproper⟩ := proper_words hwords e (slice_ne_nil h.nonneg hlt)
  exact lt_findWordForward hlt hsome hproper

/-! ## Kills -/

/-- A kill takes text that is next to the cursor, and the ring gets it at that side of its last entry. -/
inductive KillStep (e e' : Editor) : Prop
  | nothing (state : e'.state = e.state) (ring : e'.killRing = e.killRing)
      (action : e'.lastAction = e.lastAction)
  | backward (text : Text) (nonempty : text ≠ [])
      (before : e.state.textBefore = e'.state.textBefore ++ text)
      (after : e'.state.textAfter = e.state.textAfter)
      (ring : e'.killRing = (e.kill text true (e.lastAction = some .kill)).killRing)
      (action : e'.lastAction = some .kill)
  | forward (text : Text) (nonempty : text ≠ [])
      (before : e'.state.textBefore = e.state.textBefore)
      (after : e.state.textAfter = text ++ e'.state.textAfter)
      (ring : e'.killRing = (e.kill text false (e.lastAction = some .kill)).killRing)
      (action : e'.lastAction = some .kill)

theorem killRing_kill {e e' : Editor} (h : e'.killRing = e.killRing) (text : Text) (prepend accumulate : Bool) :
    (e'.kill text prepend accumulate).killRing = (e.kill text prepend accumulate).killRing := by
  unfold kill
  rw [h]
  split
  · exact h
  · split
    · rfl
    · rfl

theorem state_killed (e : Editor) (text : Text) (prepend wasKill : Bool) :
    (e.killed text prepend wasKill).state = e.state := by
  obtain ⟨killRing, heq⟩ := e.killed_eq text prepend wasKill
  rw [heq]

theorem around_setLine (h : e.state.Around pre before after post) (before' after' : Text) (col : Int)
    (hcol : col = before'.length) :
    ((e.setLine (before' ++ after')).setCursorCol col).state.Around pre before' after' post := by
  refine ⟨?_, h.line, hcol⟩
  show e.state.lines.set e.state.cursorLine _ = _
  rw [h.lines, h.line]
  simp

theorem around_joinPrevious {previous : Text} (h : e.state.Around (pre ++ [previous]) [] after post) :
    e.joinPrevious.state.Around pre previous after post := by
  have hline : e.state.cursorLine - 1 = pre.length := by
    rw [h.line]
    simp
  have hprevious : e.state.lines.getD pre.length [] = previous := by
    rw [h.lines]
    simp
  unfold joinPrevious
  rw [hline, hprevious, h.currentLine, h.lines, h.line]
  refine ⟨?_, rfl, rfl⟩
  show ((pre ++ [previous] ++ ([] ++ after) :: post).set pre.length _).eraseIdx _ = _
  simp [List.eraseIdx_append_of_length_le]

theorem around_joinNext {next : Text} (h : e.state.Around pre before [] (next :: post)) :
    e.joinNext.state.Around pre before next post := by
  have hnext : e.state.lines.getD (pre.length + 1) [] = next := by
    rw [h.lines]
    simp
  unfold joinNext
  dsimp only
  rw [h.line, hnext, h.currentLine, h.lines]
  refine ⟨?_, rfl, h.col⟩
  show ((pre ++ (before ++ []) :: next :: post).set pre.length _).eraseIdx _ = _
  simp [List.eraseIdx_append_of_length_le]

theorem around_setLineOnly (h : e.state.Around pre before after post) (after' : Text) :
    (e.setLine (before ++ after')).state.Around pre before after' post :=
  around_setLine h before after' e.state.cursorCol h.col

theorem linesBefore_concat (pre : List Text) (previous : Text) :
    linesBefore (pre ++ [previous]) = linesBefore pre ++ previous ++ [newline] := by
  simp [linesBefore]

section Ready

variable {e₁ : Editor} {text : Text} (hstate : e₁.state = e.state) (hring : e₁.killRing = e.killRing)

include hstate hring

theorem killStep_backward (h : e.state.Around pre (before ++ text) after post) (hne : text ≠ []) :
    KillStep e (((e₁.killed text true (e.lastAction = some .kill)).setLine
      (before ++ after)).setCursorCol before.length) := by
  have hkilled : (e₁.killed text true (e.lastAction = some .kill)).state = e.state :=
    (state_killed _ _ _ _).trans hstate
  have haround := around_setLine (hkilled ▸ h) before after before.length rfl
  refine .backward text hne ?_ ?_ (killRing_kill hring _ _ _) rfl
  · rw [haround.textBefore, h.textBefore, List.append_assoc]
  · rw [haround.textAfter, h.textAfter]

theorem killStep_forward (h : e.state.Around pre before (text ++ after) post) (hne : text ≠ []) :
    KillStep e ((e₁.killed text false (e.lastAction = some .kill)).setLine (before ++ after)) := by
  have hkilled : (e₁.killed text false (e.lastAction = some .kill)).state = e.state :=
    (state_killed _ _ _ _).trans hstate
  have haround := around_setLineOnly (hkilled ▸ h) after
  refine .forward text hne ?_ ?_ (killRing_kill hring _ _ _) rfl
  · rw [haround.textBefore, h.textBefore]
  · rw [haround.textAfter, h.textAfter, List.append_assoc]

theorem killStep_joinPrevious (h : e.state.Around pre before after post) (hcol : e.state.cursorCol = 0)
    (hline : 0 < e.state.cursorLine) :
    KillStep e (e₁.killed [newline] true (e.lastAction = some .kill)).joinPrevious := by
  have hkilled : (e₁.killed [newline] true (e.lastAction = some .kill)).state = e.state :=
    (state_killed _ _ _ _).trans hstate
  obtain rfl : before = [] := by
    rw [← List.length_eq_zero_iff]
    have := h.col
    omega
  rcases List.eq_nil_or_concat pre with rfl | ⟨pre, previous, rfl⟩
  · rw [h.line] at hline
    exact absurd hline (Nat.lt_irrefl 0)
  · rw [List.concat_eq_append] at h
    have haround := around_joinPrevious (hkilled ▸ h)
    refine .backward [newline] (List.cons_ne_nil _ _) ?_ ?_ (killRing_kill hring _ _ _) rfl
    · rw [haround.textBefore, h.textBefore, linesBefore_concat, List.append_nil]
    · rw [haround.textAfter, h.textAfter]

theorem killStep_joinNext (h : e.state.Around pre before after post)
    (hcol : e.state.currentLine.length ≤ e.state.cursorCol)
    (hline : e.state.cursorLine < e.state.lines.length - 1) :
    KillStep e (e₁.killed [newline] false (e.lastAction = some .kill)).joinNext := by
  have hkilled : (e₁.killed [newline] false (e.lastAction = some .kill)).state = e.state :=
    (state_killed _ _ _ _).trans hstate
  obtain rfl : after = [] := by
    rw [← List.length_eq_zero_iff]
    rw [h.currentLine, h.col, List.length_append] at hcol
    omega
  cases post with
  | nil =>
    rw [h.lines, h.line] at hline
    simp at hline
  | cons next post =>
    have haround := around_joinNext (hkilled ▸ h)
    refine .forward [newline] (List.cons_ne_nil _ _) ?_ ?_ (killRing_kill hring _ _ _) rfl
    · rw [haround.textBefore, h.textBefore]
    · rw [haround.textAfter, h.textAfter]
      rfl

end Ready

theorem deleteToStartOfLine_kill (h : e.state.Valid) : KillStep e e.deleteToStartOfLine := by
  obtain ⟨pre, before, after, post, haround⟩ := h.around
  have hafter : sliceFrom e.exitHistoryBrowsing.state.currentLine
      e.exitHistoryBrowsing.pushUndoSnapshot.state.cursorCol = after := haround.sliceFrom
  unfold deleteToStartOfLine
  dsimp only
  split
  next hpos =>
    rw [state_killed, hafter]
    have hcol : (e.exitHistoryBrowsing.state.cursorCol : Int) = before.length := haround.col
    have hkill := @killStep_backward e pre post [] after e.exitHistoryBrowsing.pushUndoSnapshot before
      rfl rfl haround (List.length_pos_iff.mp (by omega))
    rwa [← haround.sliceTo] at hkill
  next hcol =>
    split
    next hline =>
      exact @killStep_joinPrevious e pre post before after e.exitHistoryBrowsing.pushUndoSnapshot rfl rfl
        haround (le_antisymm (not_lt.mp hcol) h.nonneg) hline
    next => exact .nothing rfl rfl rfl

theorem deleteToEndOfLine_kill (h : e.state.Valid) : KillStep e e.deleteToEndOfLine := by
  obtain ⟨pre, before, after, post, haround⟩ := h.around
  have hbefore : sliceTo e.exitHistoryBrowsing.state.currentLine
      e.exitHistoryBrowsing.pushUndoSnapshot.state.cursorCol = before := haround.sliceTo
  unfold deleteToEndOfLine
  dsimp only
  split
  next hlt =>
    have hne : sliceFrom e.state.currentLine e.state.cursorCol ≠ [] := slice_ne_nil h.nonneg hlt
    rw [haround.sliceFrom] at hne
    rw [state_killed, hbefore]
    have hkill := @killStep_forward e pre post before [] e.exitHistoryBrowsing.pushUndoSnapshot after
      rfl rfl (by rwa [List.append_nil]) hne
    rwa [List.append_nil, ← haround.sliceFrom] at hkill
  next hcol =>
    split
    next hline =>
      exact @killStep_joinNext e pre post before after e.exitHistoryBrowsing.pushUndoSnapshot rfl rfl
        haround (not_lt.mp hcol) hline
    next => exact .nothing rfl rfl rfl

theorem deleteWordBackwards_kill {p : Platform} (hwords : ProperWords p.wordSegmenter)
    (h : e.state.Valid) : KillStep e (e.deleteWordBackwards p) := by
  obtain ⟨pre, before, after, post, haround⟩ := h.around
  unfold deleteWordBackwards
  dsimp only
  split
  next hcol =>
    split
    next hline =>
      exact @killStep_joinPrevious e pre post before after e.exitHistoryBrowsing.pushUndoSnapshot rfl rfl
        haround hcol hline
    next => exact .nothing rfl rfl rfl
  next hcol =>
    have hvalid : e.exitHistoryBrowsing.state.Valid := h
    have haround : e.exitHistoryBrowsing.state.Around pre before after post := haround
    obtain ⟨hnonneg, -⟩ := e.exitHistoryBrowsing.wordBackward_bounds (p := p) hvalid
    have hlt := wordBackward_lt hwords hvalid (lt_of_le_of_ne hvalid.nonneg (Ne.symm hcol))
    generalize e.exitHistoryBrowsing.wordBackward p = deleteFrom at hnonneg hlt ⊢
    obtain ⟨from', rfl⟩ := Int.eq_ofNat_of_zero_le hnonneg
    rw [haround.col] at hlt
    have hlength : (before.take from').length = from' := by
      rw [List.length_take]
      omega
    obtain ⟨kept, text, rfl, rfl⟩ : ∃ kept text, before = kept ++ text ∧ from' = kept.length :=
      ⟨before.take from', before.drop from', (List.take_append_drop _ _).symm, hlength.symm⟩
    have hcolumn : e.exitHistoryBrowsing.state.cursorCol - (kept.length : Int) = text.length := by
      rw [haround.col, List.length_append]
      omega
    rw [hcolumn, haround.sliceFrom, haround.currentLine, List.append_assoc, sliceTo_length,
      sliceFrom_length, sliceTo_length]
    refine @killStep_backward e pre post kept after e.exitHistoryBrowsing.pushUndoSnapshot text rfl rfl haround ?_
    rw [List.length_append] at hlt
    exact List.length_pos_iff.mp (by omega)

theorem deleteWordForward_kill {p : Platform} (hwords : ProperWords p.wordSegmenter)
    (h : e.state.Valid) : KillStep e (e.deleteWordForward p) := by
  obtain ⟨pre, before, after, post, haround⟩ := h.around
  unfold deleteWordForward
  dsimp only
  split
  next hcol =>
    split
    next hline =>
      exact @killStep_joinNext e pre post before after e.exitHistoryBrowsing.pushUndoSnapshot rfl rfl haround hcol hline
    next => exact .nothing rfl rfl rfl
  next hcol =>
    have hvalid : e.exitHistoryBrowsing.state.Valid := h
    have haround : e.exitHistoryBrowsing.state.Around pre before after post := haround
    have hlt := lt_wordForward hwords hvalid (not_le.mp hcol)
    obtain ⟨-, hle⟩ := e.exitHistoryBrowsing.wordForward_bounds (p := p) hvalid
    generalize e.exitHistoryBrowsing.wordForward p = deleteTo at hlt hle ⊢
    rw [haround.col] at hlt
    rw [haround.currentLine, List.length_append] at hle
    obtain ⟨text, kept, rfl, hto⟩ : ∃ text kept, after = text ++ kept ∧ deleteTo = before.length + text.length := by
      refine ⟨after.take (deleteTo - before.length).toNat, after.drop (deleteTo - before.length).toNat,
        (List.take_append_drop _ _).symm, ?_⟩
      rw [List.length_take]
      omega
    have hcolumn : deleteTo - e.exitHistoryBrowsing.state.cursorCol = text.length := by
      rw [haround.col]
      omega
    have hafter : sliceFrom (before ++ (text ++ kept)) deleteTo = kept := by
      rw [hto, ← List.append_assoc, ← Int.natCast_add, ← List.length_append, sliceFrom_length]
    rw [hcolumn, haround.sliceFrom, haround.sliceTo, haround.currentLine, hafter, sliceTo_length]
    refine @killStep_forward e pre post before kept
      (e.exitHistoryBrowsing.pushUndoSnapshot.setCursorCol e.exitHistoryBrowsing.state.cursorCol) text
      rfl rfl haround ?_
    exact List.length_pos_iff.mp (by omega)

/-! ## Runs of kills -/

def isKill : EditorOperation → Bool
  | .deleteToStartOfLine => true
  | .deleteToEndOfLine => true
  | .deleteWordBackwards => true
  | .deleteWordForward => true
  | _ => false

section Runs

variable {p : Platform} {stack : Nat} {e₀ e' : Editor}

/-- **One kill** takes text next to the cursor. -/
theorem perform_kill {operation : EditorOperation} (hwords : ProperWords p.wordSegmenter)
    (h : e.state.Valid) (hkill : isKill operation = true) : KillStep e (perform p stack e operation) := by
  cases operation with
  | deleteToStartOfLine => exact deleteToStartOfLine_kill h
  | deleteToEndOfLine => exact deleteToEndOfLine_kill h
  | deleteWordBackwards => exact deleteWordBackwards_kill hwords h
  | deleteWordForward => exact deleteWordForward_kill hwords h
  | _ => cases hkill

theorem sound_kill {operation : EditorOperation} (hkill : isKill operation = true) : Sound p stack e operation := by
  cases operation with
  | deleteToStartOfLine => trivial
  | deleteToEndOfLine => trivial
  | deleteWordBackwards => trivial
  | deleteWordForward => trivial
  | _ => cases hkill

/-- What kills have taken before and after the cursor is the last entry of the ring. -/
structure Killed (e₀ e : Editor) (back fwd : Text) : Prop where
  before : e₀.state.textBefore = e.state.textBefore ++ back
  after : e₀.state.textAfter = fwd ++ e.state.textAfter
  ring : back ++ fwd = [] ∧ e.lastAction = e₀.lastAction ∨
    e.lastAction = some .kill ∧ e.killRing.getLast? = some (back ++ fwd)

/-- The last entry grows when the kill before has just made it. -/
theorem getLast?_kill {back fwd text : Text} (hstart : e₀.lastAction ≠ some .kill)
    (h : Killed e₀ e back fwd) (hne : text ≠ []) (prepend : Bool) :
    (e.kill text prepend (e.lastAction = some .kill)).killRing.getLast? =
      some (if prepend then text ++ (back ++ fwd) else back ++ fwd ++ text) := by
  unfold kill
  rw [if_neg hne]
  rcases h.ring with ⟨hnil, haction⟩ | ⟨haction, hlast⟩
  · rw [hnil, haction, decide_eq_false hstart]
    simp
  · rw [haction, decide_eq_true rfl, hlast]
    simp

theorem Killed.step {back fwd : Text} (hstart : e₀.lastAction ≠ some .kill)
    (h : Killed e₀ e back fwd) (hstep : KillStep e e') : ∃ back fwd, Killed e₀ e' back fwd := by
  cases hstep with
  | nothing state ring action =>
    refine ⟨back, fwd, state ▸ h.before, state ▸ h.after, ?_⟩
    rw [ring, action]
    exact h.ring
  | backward text nonempty before after ring action =>
    refine ⟨text ++ back, fwd, ?_, after ▸ h.after, .inr ⟨action, ?_⟩⟩
    · rw [h.before, before, List.append_assoc]
    · rw [ring, getLast?_kill hstart h nonempty true, if_pos rfl, List.append_assoc]
  | forward text nonempty before after ring action =>
    refine ⟨back, fwd ++ text, before ▸ h.before, ?_, .inr ⟨action, ?_⟩⟩
    · rw [h.after, after, List.append_assoc]
    · rw [ring, getLast?_kill hstart h nonempty false, if_neg Bool.false_ne_true, List.append_assoc]

/-- **A run of kills** makes one entry of what it takes. -/
theorem Killed.run {back fwd : Text} (hwords : ProperWords p.wordSegmenter)
    (hstart : e₀.lastAction ≠ some .kill) (h : Killed e₀ e back fwd) (hinv : e.Inv)
    {kills : List EditorOperation} (hkills : ∀ operation ∈ kills, isKill operation = true) :
    (run p stack e kills).Inv ∧ ∃ back fwd, Killed e₀ (Editor.run p stack e kills) back fwd := by
  induction kills generalizing e back fwd with
  | nil => exact ⟨hinv, back, fwd, h⟩
  | cons operation kills ih =>
    rw [List.forall_mem_cons] at hkills
    obtain ⟨back, fwd, hnext⟩ := h.step hstart (perform_kill hwords hinv.state hkills.1)
    exact ih hnext (perform_inv hinv (sound_kill hkills.1)).1 hkills.2

/-- The text has an entry more at the cursor, which is right after it. -/
structure InsertedAfter (e : Editor) (entry : Text) (e' : Editor) : Prop where
  valid : e'.state.Valid
  before : e'.state.textBefore = e.state.textBefore ++ entry
  after : e'.state.textAfter = e.state.textAfter

theorem InsertedAfter.getText {entry : Text} (h : InsertedAfter e entry e') :
    e'.getText = e.state.textBefore ++ entry ++ e.state.textAfter := by
  rw [getText_eq h.valid, h.before, h.after]

theorem yanking_yankPops (h : e.state.Around pre before after post) (hne : e.killRing ≠ []) (k : Nat) :
    Yanking pre before after post e.killRing k (run p stack e (.yank :: List.replicate k .yankPop)) := by
  induction k with
  | zero => exact yanking_yank h hne
  | succ k ih =>
    rw [List.replicate_succ', ← List.cons_append, run_append]
    exact ih.yankPop hne

theorem yankPops_insert (h : e.Inv) (hne : e.killRing ≠ []) (k : Nat) :
    InsertedAfter e (entryBack e.killRing k) (run p stack e (.yank :: List.replicate k .yankPop)) := by
  obtain ⟨pre, before, after, post, haround⟩ := h.state.around
  have hput := (@yanking_yankPops e pre post before after p stack haround hne k).put.text
  have hsound : ∀ k e, SoundRun p stack e (List.replicate k .yankPop) := by
    intro k
    induction k with
    | zero => exact fun _ => trivial
    | succ k ih => exact fun e => ⟨trivial, ih _⟩
  have hrun : SoundRun p stack e (.yank :: List.replicate k .yankPop) := ⟨trivial, hsound k _⟩
  refine ⟨(run_inv h hrun).state, ?_, ?_⟩
  · rw [hput.1, haround.textBefore]
  · rw [hput.2, haround.textAfter]

theorem yank_kills (hwords : ProperWords p.wordSegmenter) (h : e.Inv)
    (hstart : e.lastAction ≠ some .kill) {kills : List EditorOperation}
    (hkills : ∀ operation ∈ kills, isKill operation = true)
    (htaken : (run p stack e kills).getText ≠ e.getText) :
    (run p stack e (kills ++ [.yank])).getText = e.getText := by
  have hnothing : Killed e e [] [] := ⟨(List.append_nil _).symm, rfl, .inl ⟨rfl, rfl⟩⟩
  obtain ⟨hinv, back, fwd, hkilled⟩ : (run p stack e kills).Inv ∧
      ∃ back fwd, Killed e (run p stack e kills) back fwd := hnothing.run hwords hstart h hkills
  have hlast : (run p stack e kills).killRing.getLast? = some (back ++ fwd) := by
    rcases hkilled.ring with ⟨hnil, -⟩ | ⟨-, hlast⟩
    · obtain ⟨rfl, rfl⟩ := List.append_eq_nil_iff.mp hnil
      refine absurd ?_ htaken
      rw [getText_eq hinv.state, getText_eq h.state, hkilled.before, hkilled.after, List.append_nil, List.nil_append]
    · exact hlast
  have hne : (run p stack e kills).killRing ≠ [] := by
    intro hnil
    rw [hnil] at hlast
    cases hlast
  have hentry : entryBack (run p stack e kills).killRing 0 = back ++ fwd :=
    Option.some.inj ((getLast?_rotate_iterate hne 0).symm.trans hlast)
  rw [run_append]
  have hyank := InsertedAfter.getText (yankPops_insert hinv hne 0 :
    InsertedAfter _ _ (run p stack (run p stack e kills) (.yank :: List.replicate 0 .yankPop)))
  rw [hentry] at hyank
  rw [getText_eq h.state, hkilled.before, hkilled.after]
  refine hyank.trans ?_
  simp only [List.append_assoc]

/-- Yanks and yank-pops put the entries of the ring at the cursor, and a yank puts back what kills took. -/
structure KillYank (p : Platform) (stack : Nat) (e : Editor) : Prop where
  yanks : e.killRing ≠ [] → ∀ k, InsertedAfter e (entryBack e.killRing k)
    (run p stack e (.yank :: List.replicate k .yankPop))
  kills : e.lastAction ≠ some .kill → ∀ kills : List EditorOperation,
    (∀ operation ∈ kills, isKill operation = true) → (run p stack e kills).getText ≠ e.getText →
      (run p stack e (kills ++ [.yank])).getText = e.getText

/-- **Kills and yanks are exact** in every run. -/
theorem kill_yank_exact (p : Platform) (stack : Nat) (hwords : ProperWords p.wordSegmenter)
    {operations : List EditorOperation} (h : SoundRun p stack create operations) :
    ∀ part, part <+: operations → KillYank p stack (run p stack create part) := by
  rintro part ⟨rest, rfl⟩
  have hinv : (run p stack create part).Inv := run_inv create_inv h.of_append.1
  exact ⟨fun hne k => yankPops_insert hinv hne k,
    fun hstart kills hkills htaken => yank_kills hwords hinv hstart hkills htaken⟩

end Runs

/-! ## Plain text -/

/-- Every character a word of its own, when it is no punctuation. -/
def singleWords : Segmenter where
  pieces text := text.map fun u => ([u], !isPunctuation u)
  covers text := by
    rw [List.flatMap_map]
    exact List.flatMap_singleton' text
  nonempty text piece hpiece := by
    obtain ⟨u, -, rfl⟩ := List.mem_map.mp hpiece
    exact List.cons_ne_nil _ _

def plainPlatform : Platform := { asciiPlatform with wordSegmenter := singleWords }

theorem properWords_singleWords : ProperWords plainPlatform.wordSegmenter := by
  intro text piece hpiece hlike u hu
  obtain ⟨v, -, rfl⟩ := List.mem_map.mp hpiece
  have hv : isPunctuation v = false := by simpa using hlike
  rcases hu with hu | hu
  · obtain rfl : v = u := Option.some.inj hu
    exact hv
  · obtain rfl : v = u := Option.some.inj hu
    exact hv

theorem kill_yank_exact_typed :
    let operations : List EditorOperation :=
      [.insertCharacter [unit 'a'] (by decide), .deleteWordBackwards, .insertCharacter [unit 'b'] (by decide)]
    KillYank plainPlatform 1 (run plainPlatform 1 create operations) := by
  intro operations
  have hsound : SoundRun plainPlatform 1 create operations := ⟨trivial, trivial, trivial, trivial⟩
  exact kill_yank_exact plainPlatform 1 properWords_singleWords hsound operations List.prefix_rfl

/-- A letter is killed first, so that there is something to yank at the stale column. -/
def yankAtStaleColumn : List EditorOperation :=
  .insertCharacter [unit 'k'] (by decide) :: .deleteToStartOfLine :: staleColumn

theorem yank_at_stale_column :
    let e := run plainPlatform 1 create yankAtStaleColumn
    e.killRing = [[unit 'k']] ∧ ¬InsertedAfter e [unit 'k'] (run plainPlatform 1 e [.yank]) := by
  refine ⟨by decide +kernel, fun h => ?_⟩
  have hbefore : (run plainPlatform 1 create (yankAtStaleColumn ++ [.yank])).state.textBefore ≠
      (run plainPlatform 1 create yankAtStaleColumn).state.textBefore ++ [unit 'k'] := by
    decide +kernel
  rw [run_append] at hbefore
  exact hbefore h.before

end Editor

end Mcpi.Tui
