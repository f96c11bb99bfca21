import Mathlib.Algebra.Ring.Nat
import Mcpi.Tui.Widths

/-!
# Segments, markers and visual lines

The pure functions under the editor: segments of a line with paste markers as units of their own, words,
and the wrapping of a line. `Intl.Segmenter` and the tables of Unicode are parameters.
-/

namespace Mcpi.Tui

namespace EditorText

open StdinBuffer (isDigit)

def newline : UInt16 := 0x0a

def units (s : String) : Text := s.toList.map unit

/-- `Intl.Segmenter` cuts a text into parts that are not empty, and says which are like words. -/
structure Segmenter where
  pieces : Text → List (Text × Bool)
  covers : ∀ text, (pieces text).flatMap Prod.fst = text
  nonempty : ∀ text, ∀ piece ∈ pieces text, piece.1 ≠ []

/-- `Intl.SegmentData` -/
structure Segment where
  segment : Text
  index : Nat
  isWordLike : Bool
  deriving DecidableEq

def indexed : Nat → List (Text × Bool) → List Segment
  | _, [] => []
  | index, piece :: pieces => ⟨piece.1, index, piece.2⟩ :: indexed (index + piece.1.length) pieces

def Segmenter.segment (segmenter : Segmenter) (text : Text) : List Segment :=
  indexed 0 (segmenter.pieces text)

/-- What the editor asks of the platform. -/
structure Platform where
  graphemeSegmenter : Segmenter
  wordSegmenter : Segmenter
  unicode : UnicodeTables
  /-- The text of a number less one, past the numbers that a double holds exactly. -/
  predecessor : Nat → Text
  predecessor_clean : ∀ n, newline ∉ predecessor n

def Platform.visibleWidth (p : Platform) (str : Text) : Nat :=
  p.unicode.visibleWidth (fun text => (p.graphemeSegmenter.pieces text).map Prod.fst) str

/-! ## Paste markers -/

/-- A match of `PASTE_MARKER_REGEX`. -/
structure MarkerMatch where
  id : Nat
  suffix : Option Text
  length : Nat
  deriving DecidableEq

/-- `Number(digits)` -/
def number (digits : Text) : Nat := digits.foldl (fun n u => 10 * n + (u.toNat - (unit '0').toNat)) 0

/-- The digits at the head, and `word` after them. -/
def countOf (word : Text) (text : Text) : Option Text :=
  let digits := text.takeWhile isDigit
  if digits ≠ [] ∧ word <+: text.drop digits.length then some (digits ++ word) else none

/-- `( (\+\d+ lines|\d+ chars))` at the head. -/
def suffixMatch (text : Text) : Option Text :=
  if [unit ' ', unit '+'] <+: text then
    (countOf (units " lines") (text.drop 2)).map ([unit ' ', unit '+'] ++ ·)
  else if [unit ' '] <+: text then (countOf (units " chars") (text.drop 1)).map (unit ' ' :: ·)
  else none

/-- `PASTE_MARKER_REGEX` at the head. -/
def matchMarker (text : Text) : Option MarkerMatch :=
  let head := units "[paste #"
  if head <+: text then
    let digits := (text.drop head.length).takeWhile isDigit
    let rest := text.drop (head.length + digits.length)
    let suffix := suffixMatch rest
    let length := head.length + digits.length + (suffix.getD []).length
    if digits ≠ [] ∧ [unit ']'] <+: text.drop length then
      some ⟨number digits, suffix, length + 1⟩
    else none
  else none

/-- `text.matchAll(PASTE_MARKER_REGEX)`, with the index of each match; `skip` units belong to the last. -/
def matchAll : (skip index : Nat) → Text → List (Nat × MarkerMatch)
  | _, _, [] => []
  | skip + 1, index, _ :: text => matchAll skip (index + 1) text
  | 0, index, u :: text =>
    match matchMarker (u :: text) with
    | some marker => (index, marker) :: matchAll (marker.length - 1) (index + 1) text
    | none => matchAll 0 (index + 1) text

/-- `text.replace(PASTE_MARKER_REGEX, replace)` -/
def replaceMarkers (replace : Text → MarkerMatch → Text) : (skip : Nat) → Text → Text
  | _, [] => []
  | skip + 1, _ :: text => replaceMarkers replace skip text
  | 0, u :: text =>
    match matchMarker (u :: text) with
    | some marker =>
      replace ((u :: text).take marker.length) marker ++ replaceMarkers replace (marker.length - 1) text
    | none => u :: replaceMarkers replace 0 text

/-- `PASTE_MARKER_SINGLE.exec(segment)` -/
def singleMarker (segment : Text) : Option MarkerMatch :=
  (matchMarker segment).filter fun marker => marker.length = segment.length

def isPasteMarker (segment : Text) : Bool := segment.length ≥ 10 && (singleMarker segment).isSome

/-- The loop of `segmentWithMarkers`. -/
def mergeMarkers (text : Text) : List (Nat × Nat) → List Segment → List Segment
  | _, [] => []
  | markers, seg :: segments =>
    let markers := markers.dropWhile fun marker => marker.2 ≤ seg.index
    match markers.head? with
    | some (start, stop) =>
      if start ≤ seg.index ∧ seg.index < stop then
        if seg.index = start then
          ⟨(text.drop start).take (stop - start), start, false⟩ :: mergeMarkers text markers segments
        else mergeMarkers text markers segments
      else seg :: mergeMarkers text markers segments
    | none => seg :: mergeMarkers text markers segments

def segmentWithMarkers (text : Text) (baseSegmenter : Segmenter) (validIds : List Nat) : List Segment :=
  let markers := ((matchAll 0 0 text).filter fun found => found.2.id ∈ validIds).map fun found =>
    (found.1, found.1 + found.2.length)
  if markers = [] then baseSegmenter.segment text
  else mergeMarkers text markers (baseSegmenter.segment text)

/-! ## Words -/

/-- `/\s/` -/
def isSpace (u : UInt16) : Bool :=
  u ∈ ([0x09, 0x0a, 0x0b, 0x0c, 0x0d, 0x20, 0xa0, 0x1680, 0x2028, 0x2029, 0x202f, 0x205f, 0x3000, 0xfeff] :
    List UInt16) || (0x2000 ≤ u && u ≤ 0x200a)

def isWhitespaceChar (segment : Text) : Bool := segment.any isSpace

/-- `PUNCTUATION_REGEX` -/
def isPunctuation (u : UInt16) : Bool := u ∈ units "(){}[]<>.,;:'\"!?+-=*/\\|&%^$#@~`"

def total (segments : List Segment) : Nat := (segments.map fun seg => seg.segment.length).sum

def isBlank (seg : Segment) : Bool := !isPasteMarker seg.segment && isWhitespaceChar seg.segment

def isSymbol (seg : Segment) : Bool :=
  !isPasteMarker seg.segment && !seg.isWordLike && !isWhitespaceChar seg.segment

/-- `findWordBackward` with the segments of the text before the cursor. -/
def findWordBackward (segments : List Segment) (cursor : Int) : Int :=
  if cursor ≤ 0 then 0
  else
    let blanks := segments.reverse.takeWhile isBlank
    let rest := segments.reverse.dropWhile isBlank
    let newCursor := cursor - total blanks
    match rest with
    | [] => newCursor
    | last :: _ =>
      if isPasteMarker last.segment then newCursor - last.segment.length
      else if last.isWordLike then
        newCursor - (last.segment.reverse.takeWhile fun u => !isPunctuation u).length
      else newCursor - total (rest.takeWhile isSymbol)

/-- `findWordForward` with the segments of the text after the cursor. -/
def findWordForward (segments : List Segment) (cursor : Int) (length : Nat) : Int :=
  if cursor ≥ length then length
  else
    let blanks := segments.takeWhile isBlank
    let rest := segments.dropWhile isBlank
    let newCursor := cursor + total blanks
    match rest with
    | [] => newCursor
    | first :: _ =>
      if isPasteMarker first.segment then newCursor + first.segment.length
      else if first.isWordLike then
        newCursor + (first.segment.takeWhile fun u => !isPunctuation u).length
      else newCursor + total (rest.takeWhile isSymbol)

/-! ## Wrapping -/

structure TextChunk where
  text : Text
  startIndex : Nat
  endIndex : Nat
  deriving DecidableEq

/-- The variables of `wordWrapLine`. -/
structure Wrapping where
  chunks : List TextChunk
  currentWidth : Nat
  chunkStart : Nat
  wrapOpp : Option (Nat × Nat)

def slice (text : Text) (start stop : Nat) : Text := (text.drop start).take (stop - start)

def Wrapping.push (w : Wrapping) (line : Text) (stop : Nat) : Wrapping :=
  { w with chunks := w.chunks ++ [⟨slice line w.chunkStart stop, w.chunkStart, stop⟩], chunkStart := stop }

/-- A segment does not fit. -/
def Wrapping.overflow (w : Wrapping) (line : Text) (charIndex gWidth maxWidth : Nat) : Wrapping :=
  match w.wrapOpp with
  | some (index, width) =>
    if w.currentWidth - width + gWidth ≤ maxWidth then
      { w.push line index with currentWidth := w.currentWidth - width, wrapOpp := none }
    else if w.chunkStart < charIndex then
      { w.push line charIndex with currentWidth := 0, wrapOpp := none }
    else { w with wrapOpp := none }
  | none =>
    if w.chunkStart < charIndex then
      { w.push line charIndex with currentWidth := 0, wrapOpp := none }
    else w

variable (p : Platform)

/-- Whether a line may be broken before the next segment. -/
def breaksBefore (seg next : Segment) : Bool :=
  let isWs := isBlank seg
  if isWs && (isPasteMarker next.segment || !isWhitespaceChar next.segment) then true
  else if !isWs && !isWhitespaceChar next.segment then
    (!isPasteMarker seg.segment && p.unicode.cjkBreak seg.segment) ||
      (!isPasteMarker next.segment && p.unicode.cjkBreak next.segment)
  else false

/-- The loop of `wordWrapLine`; `rewrap` is the call for a segment that is wider than a line. -/
def wrapLoop (rewrap : Text → Option (List TextChunk)) (line : Text) (maxWidth : Nat) :
    List Segment → Wrapping → Option Wrapping
  | [], w => some w
  | seg :: segments, w =>
    let gWidth := p.visibleWidth seg.segment
    let w := if w.currentWidth + gWidth > maxWidth then w.overflow line seg.index gWidth maxWidth else w
    if gWidth > maxWidth then
      match rewrap seg.segment with
      | none => none
      | some subChunks =>
        let last := subChunks.getLastD ⟨[], 0, 0⟩
        wrapLoop rewrap line maxWidth segments
          { chunks := w.chunks ++ subChunks.dropLast.map fun chunk =>
              ⟨chunk.text, seg.index + chunk.startIndex, seg.index + chunk.endIndex⟩
            currentWidth := p.visibleWidth last.text
            chunkStart := seg.index + last.startIndex
            wrapOpp := none }
    else
      let currentWidth := w.currentWidth + gWidth
      wrapLoop rewrap line maxWidth segments
        { w with
          currentWidth
          wrapOpp :=
            match segments.head? with
            | some next => if breaksBefore p seg next then some (next.index, currentWidth) else w.wrapOpp
            | none => w.wrapOpp }

/-- `wordWrapLine`; it throws when it calls itself more often than `stack` times, as it does on a character
that is wider than the line. -/
def wordWrapLine : (stack : Nat) → (line : Text) → (maxWidth : Nat) → List Segment → Option (List TextChunk)
  | 0, _, _, _ => none
  | stack + 1, line, maxWidth, segments =>
    if line = [] ∨ maxWidth = 0 then some [⟨[], 0, 0⟩]
    else if p.visibleWidth line ≤ maxWidth then some [⟨line, 0, line.length⟩]
    else
      (wrapLoop p (fun segment => wordWrapLine stack segment maxWidth
        (p.graphemeSegmenter.segment segment)) line maxWidth segments ⟨[], 0, 0, none⟩).map fun w =>
          (w.push line line.length).chunks

/-! ## Where segments lie -/

/-- The segments follow one another between two positions. -/
def Placed : Nat → Nat → List Segment → Prop
  | lo, hi, [] => lo ≤ hi
  | lo, hi, seg :: segments => lo ≤ seg.index ∧ Placed (seg.index + seg.segment.length) hi segments

section Placed

variable {lo lo' hi : Nat} {seg : Segment} {segments : List Segment}

theorem Placed.le (h : Placed lo hi segments) : lo ≤ hi := by
  induction segments generalizing lo with
  | nil => exact h
  | cons seg segments ih =>
    have := ih h.2
    have := h.1
    omega

theorem Placed.mono (h : Placed lo hi segments) (hle : lo' ≤ lo) : Placed lo' hi segments := by
  cases segments with
  | nil => exact Nat.le_trans hle h
  | cons seg segments => exact ⟨Nat.le_trans hle h.1, h.2⟩

theorem Placed.mem (h : Placed lo hi segments) (hmem : seg ∈ segments) :
    lo ≤ seg.index ∧ seg.index + seg.segment.length ≤ hi := by
  induction segments generalizing lo with
  | nil => cases hmem
  | cons first segments ih =>
    rcases List.mem_cons.mp hmem with rfl | hrest
    · exact ⟨h.1, h.2.le⟩
    · obtain ⟨hlo, hhi⟩ := ih h.2 hrest
      have := h.1
      exact ⟨by omega, hhi⟩

@[simp] theorem total_nil : total [] = 0 := rfl

@[simp] theorem total_cons (seg : Segment) (segments : List Segment) :
    total (seg :: segments) = seg.segment.length + total segments := by
  simp [total]

@[simp] theorem total_append (xs ys : List Segment) : total (xs ++ ys) = total xs + total ys := by
  simp [total]

theorem total_reverse (segments : List Segment) : total segments.reverse = total segments := by
  simp [total, List.map_reverse, List.sum_reverse]

theorem Placed.total_le (h : Placed lo hi segments) : lo + total segments ≤ hi := by
  induction segments generalizing lo with
  | nil => exact h
  | cons seg segments ih =>
    have := ih h.2
    have := h.1
    rw [total_cons]
    omega

theorem placed_indexed (pieces : List (Text × Bool)) (index : Nat) :
    Placed index (index + (pieces.flatMap Prod.fst).length) (indexed index pieces) := by
  induction pieces generalizing index with
  | nil => exact Nat.le_refl _
  | cons piece pieces ih =>
    refine ⟨Nat.le_refl _, ?_⟩
    rw [List.flatMap_cons, List.length_append, ← Nat.add_assoc]
    exact ih _

theorem placed_segment (segmenter : Segmenter) (text : Text) : Placed 0 text.length (segmenter.segment text) := by
  have h := placed_indexed (segmenter.pieces text) 0
  rw [segmenter.covers, Nat.zero_add] at h
  exact h

theorem segment_ne_nil (segmenter : Segmenter) (text : Text) : ∀ seg ∈ segmenter.segment text, seg.segment ≠ [] := by
  have hindexed : ∀ (pieces : List (Text × Bool)) (index : Nat), (∀ piece ∈ pieces, piece.1 ≠ []) →
      ∀ seg ∈ indexed index pieces, seg.segment ≠ [] := by
    intro pieces
    induction pieces with
    | nil => exact fun _ _ _ hseg => absurd hseg List.not_mem_nil
    | cons piece pieces ih =>
      intro index hne seg hseg
      rcases List.mem_cons.mp hseg with rfl | hrest
      · exact hne piece (by simp)
      · exact ih _ (fun piece hpiece => hne piece (by simp [hpiece])) seg hrest
  exact hindexed _ 0 (segmenter.nonempty text)

end Placed

section Markers

variable {text : Text} {marker : MarkerMatch}

theorem matchMarker_length (h : matchMarker text = some marker) : marker.length ≤ text.length := by
  unfold matchMarker at h
  dsimp only at h
  split at h
  · split at h
    next hclosed =>
      obtain rfl := Option.some.inj h
      have hne := hclosed.2.length_le
      rw [List.length_drop, List.length_singleton] at hne
      show _ + 1 ≤ text.length
      omega
    · cases h
  · cases h

theorem matchAll_length {skip index : Nat} {found : Nat × MarkerMatch}
    (h : found ∈ matchAll skip index text) : found.1 + found.2.length ≤ index + text.length := by
  induction text generalizing skip index with
  | nil => cases skip <;> cases h
  | cons u text ih =>
    rw [List.length_cons]
    cases skip with
    | succ skip =>
      have := ih h
      omega
    | zero =>
      rw [matchAll] at h
      split at h
      next marker hmarker =>
        rcases List.mem_cons.mp h with rfl | hrest
        · have := matchMarker_length hmarker
          rw [List.length_cons] at this
          show index + marker.length ≤ _
          omega
        · have := ih hrest
          omega
      · have := ih h
        omega

/-- Merging keeps the segments in place. The second half is about the segments behind the start of a
marker: what is left of them lies behind its end. -/
theorem placed_mergeMarkers (text : Text) {hi : Nat} (hhi : hi = text.length) (segments : List Segment) :
    (∀ seg ∈ segments, seg.segment ≠ []) → ∀ (lo : Nat) (markers : List (Nat × Nat)),
      (∀ marker ∈ markers, marker.2 ≤ hi) → Placed lo hi segments →
      Placed lo hi (mergeMarkers text markers segments) ∧
      ∀ start stop, stop ≤ hi → start < lo →
        Placed stop hi (mergeMarkers text ((start, stop) :: markers) segments) := by
  induction segments with
  | nil => exact fun _ lo markers _ h => ⟨h, fun start stop hstop _ => hstop⟩
  | cons seg segments ih =>
    intro hne
    have hlength : 0 < seg.segment.length := List.length_pos_iff.mpr (hne seg (by simp))
    have ih := ih fun seg hseg => hne seg (by simp [hseg])
    have hfirst : ∀ (lo : Nat) (markers : List (Nat × Nat)), (∀ marker ∈ markers, marker.2 ≤ hi) →
        Placed lo hi (seg :: segments) → Placed lo hi (mergeMarkers text markers (seg :: segments)) := by
      intro lo markers hmarkers h
      rw [mergeMarkers]
      have hmarkers' : ∀ marker ∈ markers.dropWhile (fun marker => marker.2 ≤ seg.index),
          marker.2 ≤ hi := fun marker hmarker =>
        hmarkers marker ((List.dropWhile_sublist _).subset hmarker)
      generalize markers.dropWhile (fun marker => marker.2 ≤ seg.index) = markers at hmarkers'
      cases markers with
      | nil => exact ⟨h.1, (ih _ _ hmarkers' h.2).1⟩
      | cons marker markers =>
        obtain ⟨start, stop⟩ := marker
        have hstop : stop ≤ hi := hmarkers' (start, stop) (by simp)
        dsimp only [List.head?_cons]
        split
        · split
          next hin hstart =>
            have hlen : ((text.drop start).take (stop - start)).length = stop - start := by
              rw [List.length_take, List.length_drop]
              omega
            refine ⟨hstart ▸ h.1, ?_⟩
            rw [show start + ((text.drop start).take (stop - start)).length = stop by omega]
            exact (ih _ markers (fun marker hmarker => hmarkers' marker (by simp [hmarker])) h.2).2
              start stop hstop (by omega)
          · exact (ih _ _ hmarkers' h.2).1.mono (by have := h.1; omega)
        · exact ⟨h.1, (ih _ _ hmarkers' h.2).1⟩
    intro lo markers hmarkers h
    refine ⟨hfirst lo markers hmarkers h, fun start stop hstop hstart => ?_⟩
    by_cases hbehind : stop ≤ seg.index
    · have hdrop : mergeMarkers text ((start, stop) :: markers) (seg :: segments) =
          mergeMarkers text markers (seg :: segments) := by
        rw [mergeMarkers, mergeMarkers, List.dropWhile_cons_of_pos (by simpa using hbehind)]
      rw [hdrop]
      exact hfirst stop markers hmarkers ⟨hbehind, h.2⟩
    · have hskip : mergeMarkers text ((start, stop) :: markers) (seg :: segments) =
          mergeMarkers text ((start, stop) :: markers) segments := by
        have := h.1
        rw [mergeMarkers, List.dropWhile_cons_of_neg (by simpa using hbehind)]
        dsimp only [List.head?_cons]
        rw [if_pos ⟨by omega, by omega⟩, if_neg (by omega)]
      rw [hskip]
      exact (ih _ markers hmarkers h.2).2 start stop hstop (by have := h.1; omega)

/-- **Segments with markers** follow one another in the text. -/
theorem placed_segmentWithMarkers (text : Text) (baseSegmenter : Segmenter) (validIds : List Nat) :
    Placed 0 text.length (segmentWithMarkers text baseSegmenter validIds) := by
  unfold segmentWithMarkers
  dsimp only
  split
  · exact placed_segment baseSegmenter text
  · refine (placed_mergeMarkers text rfl _ (segment_ne_nil baseSegmenter text) 0 _ ?_
      (placed_segment baseSegmenter text)).1
    intro marker hmarker
    obtain ⟨found, hfound, rfl⟩ := List.mem_map.mp hmarker
    have := matchAll_length (List.mem_of_mem_filter hfound)
    show found.1 + found.2.length ≤ text.length
    omega

end Markers

/-! ## Words stay in the text -/

section Words

variable {segments : List Segment} {cursor : Int}

theorem total_takeWhile_add (accepts : Segment → Bool) (segments : List Segment) :
    total (segments.takeWhile accepts) + total (segments.dropWhile accepts) = total segments := by
  rw [← total_append, List.takeWhile_append_dropWhile]

theorem total_takeWhile_le (accepts : Segment → Bool) (segments : List Segment) :
    total (segments.takeWhile accepts) ≤ total segments := by
  have := total_takeWhile_add accepts segments
  omega

theorem length_takeWhile_le {accepts : UInt16 → Bool} (text : Text) : (text.takeWhile accepts).length ≤ text.length :=
  (List.takeWhile_sublist accepts).length_le

theorem findWordBackward_bounds (hcursor : 0 ≤ cursor) (hle : (total segments : Int) ≤ cursor) :
    0 ≤ findWordBackward segments cursor ∧ findWordBackward segments cursor ≤ cursor := by
  unfold findWordBackward
  have hsplit := total_takeWhile_add isBlank segments.reverse
  rw [total_reverse] at hsplit
  split
  · exact ⟨Int.le_refl 0, hcursor⟩
  · dsimp only
    cases hrest : segments.reverse.dropWhile isBlank with
    | nil =>
      rw [hrest, total_nil] at hsplit
      dsimp only
      exact ⟨by omega, by omega⟩
    | cons last rest =>
      rw [hrest, total_cons] at hsplit
      have hword := @length_takeWhile_le (fun u => !isPunctuation u) last.segment.reverse
      rw [List.length_reverse] at hword
      have hsymbols := total_takeWhile_le isSymbol (last :: rest)
      rw [total_cons] at hsymbols
      dsimp only
      split
      · exact ⟨by omega, by omega⟩
      · split
        · exact ⟨by omega, by omega⟩
        · exact ⟨by omega, by omega⟩

theorem findWordForward_bounds {length : Nat} (hcursor : cursor ≤ length) (hle : cursor + total segments ≤ length) :
    cursor ≤ findWordForward segments cursor length ∧ findWordForward segments cursor length ≤ length := by
  unfold findWordForward
  have hsplit := total_takeWhile_add isBlank segments
  split
  · exact ⟨hcursor, Int.le_refl _⟩
  · dsimp only
    cases hrest : segments.dropWhile isBlank with
    | nil =>
      rw [hrest, total_nil] at hsplit
      dsimp only
      exact ⟨by omega, by omega⟩
    | cons first rest =>
      rw [hrest, total_cons] at hsplit
      have hword := @length_takeWhile_le (fun u => !isPunctuation u) first.segment
      have hsymbols := total_takeWhile_le isSymbol (first :: rest)
      rw [total_cons] at hsymbols
      dsimp only
      split
      · exact ⟨by omega, by omega⟩
      · split
        · exact ⟨by omega, by omega⟩
        · exact ⟨by omega, by omega⟩

end Words

/-! ## Chunks cover the line -/

/-- The chunks follow one another from one position to another. -/
def Tiles : Nat → Nat → List TextChunk → Prop
  | a, b, [] => a = b
  | a, b, chunk :: chunks => chunk.startIndex = a ∧ a ≤ chunk.endIndex ∧ Tiles chunk.endIndex b chunks

section Tiles

variable {a b c : Nat} {chunks chunks' : List TextChunk}

theorem Tiles.append (h : Tiles a b chunks) (h' : Tiles b c chunks') : Tiles a c (chunks ++ chunks') := by
  induction chunks generalizing a with
  | nil =>
    obtain rfl : a = b := h
    exact h'
  | cons chunk chunks ih => exact ⟨h.1, h.2.1, ih h.2.2⟩

theorem Tiles.of_concat {last : TextChunk} (h : Tiles a b (chunks ++ [last])) :
    Tiles a last.startIndex chunks ∧ last.startIndex ≤ b := by
  induction chunks generalizing a with
  | nil =>
    obtain ⟨hstart, hle, hend⟩ := h
    refine ⟨hstart.symm, ?_⟩
    rw [hstart]
    exact Nat.le_trans hle (Nat.le_of_eq hend)
  | cons chunk chunks ih =>
    obtain ⟨htiles, hle⟩ := ih h.2.2
    exact ⟨⟨h.1, h.2.1, htiles⟩, hle⟩

theorem Tiles.shift (h : Tiles a b chunks) (k : Nat) : Tiles (k + a) (k + b)
    (chunks.map fun chunk => ⟨chunk.text, k + chunk.startIndex, k + chunk.endIndex⟩) := by
  induction chunks generalizing a with
  | nil => exact congrArg (k + ·) h
  | cons chunk chunks ih =>
    exact ⟨congrArg (k + ·) h.1, Nat.add_le_add_left h.2.1 k, ih h.2.2⟩

end Tiles

section Wrapping

variable {p : Platform} {w : Wrapping} {hi maxWidth : Nat} {line : Text} {segments : List Segment}

/-- The chunks so far cover the line up to the next one, which starts no later than what is left. -/
structure Wrapping.Inv (w : Wrapping) (hi : Nat) (segments : List Segment) : Prop where
  tiles : Tiles 0 w.chunkStart w.chunks
  le : w.chunkStart ≤ hi
  ahead : ∀ seg ∈ segments, w.chunkStart ≤ seg.index
  opportunity : ∀ opp ∈ w.wrapOpp, w.chunkStart ≤ opp.1 ∧ opp.1 ≤ hi ∧ ∀ seg ∈ segments, opp.1 ≤ seg.index

theorem Wrapping.Inv.push (h : w.Inv hi segments) (line : Text) {stop : Nat} (hstart : w.chunkStart ≤ stop)
    (hstop : stop ≤ hi) (hahead : ∀ seg ∈ segments, stop ≤ seg.index) (currentWidth : Nat) :
    Wrapping.Inv { w.push line stop with currentWidth, wrapOpp := none } hi segments where
  tiles := h.tiles.append ⟨rfl, hstart, rfl⟩
  le := hstop
  ahead := hahead
  opportunity := nofun

theorem Wrapping.Inv.overflow {seg : Segment} {lo : Nat} (h : w.Inv hi (seg :: segments))
    (hplaced : Placed lo hi (seg :: segments)) (line : Text) (gWidth maxWidth : Nat) :
    (w.overflow line seg.index gWidth maxWidth).Inv hi (seg :: segments) ∧
      (maxWidth < gWidth → (w.overflow line seg.index gWidth maxWidth).chunkStart = seg.index) := by
  have hle := h.ahead seg (by simp)
  have hindex : seg.index ≤ hi := by
    have := (hplaced.mem (List.mem_cons_self)).2
    omega
  have hlater : ∀ other ∈ seg :: segments, seg.index ≤ other.index := by
    intro other hother
    rcases List.mem_cons.mp hother with rfl | hrest
    · exact Nat.le_refl _
    · have := (hplaced.2.mem hrest).1
      omega
  unfold Wrapping.overflow
  cases hopp : w.wrapOpp with
  | none =>
    dsimp only
    split
    next hlt => exact ⟨h.push line hle hindex hlater 0, fun _ => rfl⟩
    next hnot => exact ⟨h, fun _ => by omega⟩
  | some opp =>
    obtain ⟨index, width⟩ := opp
    obtain ⟨hstart, hstop, hahead⟩ := h.opportunity (index, width) hopp
    dsimp only
    split
    next hfits =>
      exact ⟨h.push line hstart hstop hahead _, fun hwide => absurd hfits (by omega)⟩
    · split
      · exact ⟨h.push line hle hindex hlater 0, fun _ => rfl⟩
      next hnot => exact ⟨⟨h.tiles, h.le, h.ahead, nofun⟩, fun _ => by show w.chunkStart = _; omega⟩

theorem wrapLoop_tiles {rewrap : Text → Option (List TextChunk)}
    (hrewrap : ∀ segment chunks, rewrap segment = some chunks →
      Tiles 0 segment.length chunks ∧ chunks ≠ []) (segments : List Segment) :
    ∀ (lo : Nat) (w w' : Wrapping), Placed lo hi segments → w.Inv hi segments →
      wrapLoop p rewrap line maxWidth segments w = some w' → Tiles 0 w'.chunkStart w'.chunks ∧ w'.chunkStart ≤ hi := by
  induction segments with
  | nil =>
    intro lo w w' _ h hw
    obtain rfl := Option.some.inj hw
    exact ⟨h.tiles, h.le⟩
  | cons seg segments ih =>
    intro lo w w' hplaced h hw
    rw [wrapLoop] at hw
    have hover := h.overflow hplaced line (p.visibleWidth seg.segment) maxWidth
    -- the variables after the check for overflow
    obtain ⟨w₁, hw₁, h₁, hwide₁⟩ : ∃ w₁, (if w.currentWidth + p.visibleWidth seg.segment > maxWidth then
        w.overflow line seg.index (p.visibleWidth seg.segment) maxWidth else w) = w₁ ∧
        w₁.Inv hi (seg :: segments) ∧
        (maxWidth < p.visibleWidth seg.segment → w₁.chunkStart = seg.index) := by
      split
      · exact ⟨_, rfl, hover.1, hover.2⟩
      next hfits => exact ⟨w, rfl, h, fun hwide => absurd hfits (by omega)⟩
    rw [hw₁] at hw
    split at hw
    next hwide =>
      split at hw
      · cases hw
      next subChunks hsub =>
        obtain ⟨htiles, hne⟩ := hrewrap _ _ hsub
        obtain ⟨init, last, rfl⟩ := List.eq_nil_or_concat subChunks |>.resolve_left hne
        rw [List.concat_eq_append] at htiles hw
        obtain ⟨hinit, hlast⟩ := htiles.of_concat
        have hbounds := (hplaced.mem (List.mem_cons_self)).2
        simp only [List.getLastD_eq_getLast?, List.getLast?_append, List.getLast?_singleton,
          Option.some_or, Option.getD_some, List.dropLast_concat] at hw
        refine ih _ _ w' hplaced.2 ⟨?_, ?_, fun other hother => ?_, fun opp hopp => by cases hopp⟩ hw
        · have hshift := hinit.shift seg.index
          rw [Nat.add_zero, ← hwide₁ hwide] at hshift
          rw [← hwide₁ hwide]
          exact h₁.tiles.append hshift
        · show seg.index + last.startIndex ≤ hi
          omega
        · have := (hplaced.2.mem hother).1
          show seg.index + last.startIndex ≤ other.index
          omega
    · refine ih _ _ w' hplaced.2 ?_ hw
      refine ⟨h₁.tiles, h₁.le, fun other hother => h₁.ahead other (by simp [hother]), fun opp hopp => ?_⟩
      have hkeep : ∀ opp ∈ w₁.wrapOpp, w₁.chunkStart ≤ opp.1 ∧ opp.1 ≤ hi ∧
          ∀ other ∈ segments, opp.1 ≤ other.index := fun opp hopp => by
        obtain ⟨hstart, hstop, hahead⟩ := h₁.opportunity opp hopp
        exact ⟨hstart, hstop, fun other hother => hahead other (by simp [hother])⟩
      split at hopp
      next next' hnext =>
        split at hopp
        · obtain rfl := Option.some.inj hopp
          have hmem := List.mem_of_mem_head? hnext
          refine ⟨h₁.ahead next' (by simp [hmem]), ?_, fun other hother => ?_⟩
          · have := (hplaced.2.mem hmem).2
            show next'.index ≤ hi
            omega
          · cases segments with
            | nil => cases hother
            | cons first rest =>
              obtain rfl : first = next' := Option.some.inj hnext
              rcases List.mem_cons.mp hother with rfl | hrest
              · exact Nat.le_refl _
              · have := (hplaced.2.2.mem hrest).1
                show first.index ≤ other.index
                omega
        · exact hkeep opp hopp
      · exact hkeep opp hopp

/-- **The chunks of a line** cover it. -/
theorem wordWrapLine_tiles (p : Platform) (hwidth : 0 < maxWidth) (stack : Nat) :
    ∀ (line : Text) (segments : List Segment) (chunks : List TextChunk), Placed 0 line.length segments →
      wordWrapLine p stack line maxWidth segments = some chunks → Tiles 0 line.length chunks ∧ chunks ≠ [] := by
  induction stack with
  | zero => nofun
  | succ stack ih =>
    intro line segments chunks hplaced hchunks
    rw [wordWrapLine] at hchunks
    split at hchunks
    next hempty =>
      obtain rfl := hempty.resolve_right (by omega)
      obtain rfl := Option.some.inj hchunks
      exact ⟨⟨rfl, Nat.le_refl 0, rfl⟩, List.cons_ne_nil _ _⟩
    · split at hchunks
      · obtain rfl := Option.some.inj hchunks
        exact ⟨⟨rfl, Nat.zero_le _, rfl⟩, List.cons_ne_nil _ _⟩
      · obtain ⟨w, hw, rfl⟩ := Option.map_eq_some_iff.mp hchunks
        have hrewrap : ∀ segment chunks, wordWrapLine p stack segment maxWidth
            (p.graphemeSegmenter.segment segment) = some chunks → Tiles 0 segment.length chunks ∧ chunks ≠ [] :=
          fun segment chunks h => ih segment _ chunks (placed_segment _ _) h
        obtain ⟨htiles, hle⟩ := wrapLoop_tiles hrewrap segments 0 ⟨[], 0, 0, none⟩ w hplaced
          ⟨rfl, Nat.zero_le _, fun _ _ => Nat.zero_le _, nofun⟩ hw
        exact ⟨htiles.append ⟨rfl, hle, rfl⟩, by simp [Wrapping.push]⟩

end Wrapping

end EditorText

end Mcpi.Tui
