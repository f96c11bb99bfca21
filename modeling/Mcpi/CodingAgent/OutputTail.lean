import Mcpi.CodingAgent.TruncateSuffix
import Mcpi.CodingAgent.OutputAccumulator

/-!
# What the output accumulator shows

The accumulator counts the lines and bytes of the whole output, but what it shows is the end of its
rolling tail. That is what truncating the whole output gives exactly if the tail has never been
cut, or what is left of it is enough.
-/

namespace Mcpi.CodingAgent

open Utf8 (byteLength)

/-! ## The input -/

/-- The decoded pieces that the chunks of a stream give, and its end. -/
def decodedPieces (decoder : Utf8.TextDecoder) : List (List UInt8) → List (List Char)
  | [] => [decoder.decodeEnd]
  | data :: rest =>
    (decoder.decodeStream data).1 :: decodedPieces (decoder.decodeStream data).2 rest

/-- A tail of more than twice `rolling` bytes is cut to its last characters within `rolling`. -/
def cutTail (rolling : Nat) (tail : List Char) : List Char :=
  if rolling * 2 < byteLength tail then Utf8.lastChars rolling tail else tail

/-- What is kept of a text that comes in pieces. -/
def keptTail (rolling : Nat) (pieces : List (List Char)) : List Char :=
  pieces.foldl (fun tail piece => cutTail rolling (tail ++ piece)) []

/-- What comes before the end of a text. -/
def beforeEnd (whole ending : List Char) : List Char := whole.take (whole.length - ending.length)

/-- What is shown of the kept tail: a first line that has lost its beginning is left out, if there is
another one. -/
def shownText (whole kept : List Char) : List Char :=
  if (beforeEnd whole kept).isEmpty || endsWithNewline (beforeEnd whole kept) then kept
  else if '\n' ∈ kept then (kept.dropWhile (· ≠ '\n')).drop 1
  else kept

/-- **The condition**: all of the text is shown, or what is shown of it overflows the limits, or
fills them. -/
def ShowsEnough (limits : Limits) (whole shown : List Char) : Prop :=
  shown = whole ∨ Overflows limits shown ∨ Fills limits (beforeEnd whole shown) shown

/-- **Two results of a truncation agree**, their contents up to one newline at the end. -/
structure Agrees (a b : TruncationResult) : Prop where
  content : SameContent a.content b.content
  truncated : a.truncated = b.truncated
  truncatedBy : a.truncatedBy = b.truncatedBy
  totalLines : a.totalLines = b.totalLines
  totalBytes : a.totalBytes = b.totalBytes
  outputLines : a.outputLines = b.outputLines
  outputBytes : a.outputBytes = b.outputBytes
  lastLinePartial : a.lastLinePartial = b.lastLinePartial

theorem beforeEnd_append (before ending : List Char) : beforeEnd (before ++ ending) ending = before := by
  rw [beforeEnd, List.length_append, Nat.add_sub_cancel]
  exact List.take_left

theorem decodedPieces_flatten (decoder : Utf8.TextDecoder) (chunks : List (List UInt8)) :
    (decodedPieces decoder chunks).flatten = decoder.remaining chunks.flatten := by
  induction chunks generalizing decoder with
  | nil => exact List.append_nil _
  | cons data rest ih =>
    rw [decodedPieces, List.flatten_cons, ih, List.flatten_cons, Utf8.TextDecoder.remaining_append]

theorem keptTail_concat (rolling : Nat) (pieces : List (List Char)) (piece : List Char) :
    keptTail rolling (pieces ++ [piece]) = cutTail rolling (keptTail rolling pieces ++ piece) := by
  rw [keptTail, List.foldl_append]
  rfl

/-! ## Lines -/

section Lines

/-- A line is open at the end of the text. -/
def opensLine (text : List Char) : Bool := !text.isEmpty && !endsWithNewline text

theorem length_splitLines (text : List Char) :
    (splitLinesForCounting text).length = text.count '\n' + (if opensLine text then 1 else 0) := by
  by_cases hne : text = []
  · subst hne
    rfl
  · have hempty : text.isEmpty = false := by simpa using hne
    rw [splitLines_chomp hne, Separated.length_split, opensLine, hempty, chomp]
    cases hends : endsWithNewline text with
    | true =>
      obtain ⟨init, rfl⟩ := endsWithNewline_iff.mp hends
      rw [if_pos rfl, List.dropLast_concat, List.count_append]
      rfl
    | false => rfl

theorem endsWithNewline_append {piece : List Char} (hne : piece ≠ []) (text : List Char) :
    endsWithNewline (text ++ piece) = endsWithNewline piece := by
  unfold endsWithNewline
  rw [List.getLast?_append_of_ne_nil _ hne]

theorem afterLastNewline_isEmpty {piece : List Char} (h : '\n' ∈ piece) :
    (OutputAccumulator.afterLastNewline piece).isEmpty = endsWithNewline piece := by
  obtain ⟨init, line, rfl, hline, hinit⟩ := exists_lastLine piece
  rcases hinit with rfl | hinit
  · exact absurd h hline
  · obtain ⟨start, rfl⟩ := endsWithNewline_iff.mp hinit
    have hafter : OutputAccumulator.afterLastNewline (start ++ ['\n'] ++ line) = line := by
      rw [OutputAccumulator.afterLastNewline, List.append_assoc, List.singleton_append,
        List.splitOn_append_cons_self,
        List.splitOn_eq_singleton hline, List.getLast?_concat]
      rfl
    rw [hafter]
    cases line with
    | nil =>
      rw [List.append_nil, hinit]
      rfl
    | cons c line =>
      rw [endsWithNewline_append (List.cons_ne_nil c line), not_endsWithNewline hline]
      rfl

end Lines

/-! ## What the accumulator keeps track of -/

namespace OutputAccumulator

/-- The rolling tail, after the text of some pieces. -/
structure TracksTail (acc : OutputAccumulator) (limits : Limits) (pieces : List (List Char)) : Prop where
  sameLimits : acc.limits = limits
  rolling : acc.maxRollingBytes = max (limits.maxBytes * 2) 1
  totalDecodedBytes : acc.totalDecodedBytes = byteLength pieces.flatten
  tailBytes : acc.tailBytes = byteLength acc.tailText
  small : byteLength acc.tailText ≤ acc.maxRollingBytes * 2
  kept : acc.tailText = keptTail acc.maxRollingBytes pieces
  tail : ∃ before, pieces.flatten = before ++ acc.tailText ∧
    acc.tailStartsAtLineBoundary = (before.isEmpty || endsWithNewline before) ∧
      (before ≠ [] → limits.maxBytes < byteLength pieces.flatten)

/-- The lines, after some text. -/
structure TracksLines (acc : OutputAccumulator) (text : List Char) : Prop where
  completedLines : acc.completedLines = text.count '\n'
  hasOpenLine : acc.hasOpenLine = opensLine text
  totalLines : acc.totalLines = (splitLinesForCounting text).length

/-- The raw bytes are in the file, once it is open, and before that in the chunks. -/
structure TracksRaw (acc : OutputAccumulator) (raw : List UInt8) : Prop where
  chunks : acc.tempFile = none → acc.rawChunks.flatten = raw
  file : ∀ file, acc.tempFile = some file → file = raw

section Tracking

variable {acc : OutputAccumulator} {limits : Limits} {pieces : List (List Char)} {piece : List Char} {raw : List UInt8}

/-- A tail that is too long starts at its last characters. -/
theorem trimTail_spec (acc : OutputAccumulator) (hlong : acc.maxRollingBytes < byteLength acc.tailText) :
    ∃ cut, cut ≠ [] ∧ acc.tailText = cut ++ Utf8.lastChars acc.maxRollingBytes acc.tailText ∧ acc.trimTail =
        { acc with
          tailStartsAtLineBoundary := endsWithNewline cut
          tailText := Utf8.lastChars acc.maxRollingBytes acc.tailText
          tailBytes := byteLength (Utf8.lastChars acc.maxRollingBytes acc.tailText) } := by
  obtain ⟨cut, heq, hcut, hindex⟩ := Utf8.boundaryFrom_spec hlong
  refine ⟨cut, hcut, heq, ?_⟩
  have hpos := Utf8.byteLength_pos hcut
  have hnewline := Utf8.getElem?_encode_newline hcut (Utf8.lastChars acc.maxRollingBytes acc.tailText)
  have hdrop := Utf8.drop_encode cut (Utf8.lastChars acc.maxRollingBytes acc.tailText)
  rw [← heq] at hnewline hdrop
  unfold trimTail
  dsimp only
  rw [show (Utf8.encode acc.tailText).length = byteLength acc.tailText from rfl,
    if_neg (Nat.not_le.mpr hlong), hindex, hdrop, Utf8.decode_encode, if_neg (Nat.pos_iff_ne_zero.mp hpos)]
  have hflag : decide ((Utf8.encode acc.tailText)[byteLength cut - 1]? = some 0x0A) =
      endsWithNewline cut := decide_eq_decide.mpr hnewline
  rw [hflag]

theorem TracksTail.extend (h : TracksTail acc limits pieces) (piece : List Char) :
    TracksTail (acc.extendTail piece) limits (pieces ++ [piece]) := by
  obtain ⟨before, htext, hflag, hover⟩ := h.tail
  have htotal : byteLength (pieces ++ [piece]).flatten = byteLength pieces.flatten + byteLength piece := by
    rw [List.flatten_append, Utf8.byteLength_append, List.flatten_cons, List.flatten_nil, List.append_nil]
  have hwhole : (pieces ++ [piece]).flatten = before ++ (acc.tailText ++ piece) := by
    rw [List.flatten_append, List.flatten_cons, List.flatten_nil, List.append_nil, htext, List.append_assoc]
  have hbytes : acc.tailBytes + byteLength piece = byteLength (acc.tailText ++ piece) := by
    rw [Utf8.byteLength_append, h.tailBytes]
  have hkept := keptTail_concat acc.maxRollingBytes pieces piece
  rw [← h.kept] at hkept
  unfold extendTail
  by_cases hlong : acc.tailBytes + byteLength piece > acc.maxRollingBytes * 2
  · rw [if_pos hlong]
    rw [hbytes] at hlong
    obtain ⟨cut, hcut, heq, htrim⟩ := trimTail_spec { acc with
      totalDecodedBytes := acc.totalDecodedBytes + byteLength piece
      tailText := acc.tailText ++ piece
      tailBytes := acc.tailBytes + byteLength piece }
      (show acc.maxRollingBytes < byteLength (acc.tailText ++ piece) by omega)
    rw [htrim]
    have hroom := Utf8.byteLength_lastChars_le acc.maxRollingBytes (acc.tailText ++ piece)
    refine ⟨h.sameLimits, h.rolling, ?_, rfl, ?_, ?_, before ++ cut, ?_, ?_, fun _ => ?_⟩
    · show acc.totalDecodedBytes + byteLength piece = _
      rw [h.totalDecodedBytes, htotal]
    · exact Nat.le_trans hroom (Nat.le_mul_of_pos_right _ (by decide))
    · show Utf8.lastChars acc.maxRollingBytes (acc.tailText ++ piece) = _
      rw [hkept, cutTail, if_pos hlong]
    · rw [hwhole, List.append_assoc]
      exact congrArg (before ++ ·) heq
    · show endsWithNewline cut = _
      have hne : (before ++ cut).isEmpty = false := by simp [hcut]
      rw [hne, Bool.false_or, endsWithNewline_append hcut]
    · rw [hwhole, Utf8.byteLength_append]
      have hrolling := h.rolling
      omega
  · rw [if_neg hlong]
    refine ⟨h.sameLimits, h.rolling, ?_, hbytes, ?_, ?_, before, hwhole, hflag, fun hne => ?_⟩
    · show acc.totalDecodedBytes + byteLength piece = _
      rw [h.totalDecodedBytes, htotal]
    · show byteLength (acc.tailText ++ piece) ≤ acc.maxRollingBytes * 2
      omega
    · show acc.tailText ++ piece = _
      rw [hkept, cutTail, if_neg (by omega)]
    · have hlt := hover hne
      omega

theorem TracksTail.count (h : TracksTail acc limits pieces) (text : List Char) :
    TracksTail (acc.countLines text) limits pieces := by
  obtain ⟨h₁, h₂, h₃, h₄, h₅, h₆, h₇⟩ := h
  unfold countLines
  dsimp only
  split <;> exact ⟨h₁, h₂, h₃, h₄, h₅, h₆, h₇⟩

variable {text : List Char}

theorem TracksLines.count (h : TracksLines acc text) (hne : piece ≠ []) :
    TracksLines (acc.countLines piece) (text ++ piece) := by
  have hempty : (text ++ piece).isEmpty = false := by simp [hne]
  have hopens : opensLine (text ++ piece) = !endsWithNewline piece := by
    rw [opensLine, hempty, endsWithNewline_append hne]
    rfl
  have hlines := length_splitLines (text ++ piece)
  rw [hopens, List.count_append] at hlines
  unfold countLines
  dsimp only
  split
  next hzero =>
    have hinside : endsWithNewline piece = false := not_endsWithNewline (List.count_eq_zero.mp hzero)
    rw [hinside, hzero] at hlines
    refine ⟨?_, ?_, ?_⟩
    · show acc.completedLines = _
      rw [h.completedLines, List.count_append, hzero]
      rfl
    · show true = _
      rw [hopens, hinside]
      rfl
    · show acc.completedLines + 1 = _
      rw [hlines, h.completedLines]
      rfl
  next hnewlines =>
    have hmem : '\n' ∈ piece := List.count_pos_iff.mp (Nat.pos_of_ne_zero hnewlines)
    refine ⟨?_, ?_, ?_⟩
    · show acc.completedLines + piece.count '\n' = _
      rw [h.completedLines, List.count_append]
    · show (!(afterLastNewline piece).isEmpty) = _
      rw [hopens, afterLastNewline_isEmpty hmem]
    · show acc.completedLines + piece.count '\n' + (if (!(afterLastNewline piece).isEmpty) = true then 1 else 0) = _
      rw [hlines, h.completedLines, afterLastNewline_isEmpty hmem]

theorem TracksLines.extend (h : TracksLines acc text) (piece : List Char) :
    TracksLines (acc.extendTail piece) text := by
  obtain ⟨h₁, h₂, h₃⟩ := h
  unfold extendTail trimTail
  dsimp only
  split
  · split <;> exact ⟨h₁, h₂, h₃⟩
  · exact ⟨h₁, h₂, h₃⟩

/-- The output so far: its pieces and its raw bytes. -/
structure Tracks (acc : OutputAccumulator) (limits : Limits) (pieces : List (List Char))
    (raw : List UInt8) : Prop where
  tail : TracksTail acc limits pieces
  lines : TracksLines acc pieces.flatten
  raw : TracksRaw acc raw

theorem TracksRaw.appendDecodedText (h : TracksRaw acc raw) (piece : List Char) :
    TracksRaw (acc.appendDecodedText piece) raw := by
  obtain ⟨h₁, h₂⟩ := h
  unfold OutputAccumulator.appendDecodedText countLines extendTail trimTail
  dsimp only
  split
  · exact ⟨h₁, h₂⟩
  · split <;> split <;> try split
    all_goals exact ⟨h₁, h₂⟩

/-- **A piece of text** is counted, and extends the tail. -/
theorem Tracks.appendDecodedText (h : Tracks acc limits pieces raw) (piece : List Char) :
    Tracks (acc.appendDecodedText piece) limits (pieces ++ [piece]) raw := by
  refine ⟨?_, ?_, h.raw.appendDecodedText piece⟩
  · by_cases hne : piece = []
    · -- nothing has come, and the tail is not too long
      subst hne
      obtain ⟨h₁, h₂, h₃, h₄, h₅, h₆, before, htext, hflag, hover⟩ := h.tail
      have hsame : (pieces ++ [[]]).flatten = pieces.flatten := by simp
      have hkept := keptTail_concat acc.maxRollingBytes pieces []
      rw [← h₆, List.append_nil, cutTail, if_neg (Nat.not_lt.mpr h₅)] at hkept
      rw [OutputAccumulator.appendDecodedText, if_pos rfl]
      refine ⟨h₁, h₂, by rw [h₃, hsame], h₄, h₅, hkept.symm, before, ?_, hflag, ?_⟩
      · rw [hsame, htext]
      · rw [hsame]
        exact hover
    · rw [OutputAccumulator.appendDecodedText, if_neg hne]
      exact (h.tail.extend piece).count piece
  · rw [List.flatten_append, List.flatten_cons, List.flatten_nil, List.append_nil]
    by_cases hne : piece = []
    · subst hne
      rw [OutputAccumulator.appendDecodedText, if_pos rfl, List.append_nil]
      exact h.lines
    · rw [OutputAccumulator.appendDecodedText, if_neg hne]
      exact (h.lines.extend piece).count hne

theorem TracksRaw.ensureTempFile (h : TracksRaw acc raw) : TracksRaw acc.ensureTempFile raw := by
  unfold OutputAccumulator.ensureTempFile
  cases hfile : acc.tempFile with
  | some file => exact h
  | none =>
    refine ⟨nofun, ?_⟩
    rintro _ ⟨⟩
    exact h.chunks hfile

theorem TracksRaw.keepRaw (h : TracksRaw acc raw) (data : List UInt8) : TracksRaw (acc.keepRaw data) (raw ++ data) := by
  unfold OutputAccumulator.keepRaw
  dsimp only
  split
  · -- the file is open, with what has come before
    have hopen : ∃ file, acc.ensureTempFile.tempFile = some file := by
      unfold OutputAccumulator.ensureTempFile
      cases hfile : acc.tempFile with
      | some file => exact ⟨file, hfile⟩
      | none => exact ⟨_, rfl⟩
    obtain ⟨file, hfile⟩ := hopen
    obtain rfl := h.ensureTempFile.file file hfile
    refine ⟨fun hnone => ?_, fun written hwritten => ?_⟩
    · rw [show _ = Option.map _ _ from rfl, hfile] at hnone
      cases hnone
    · have hmap : some written = some (file ++ data) := by
        rw [← hwritten]
        exact congrArg (Option.map (· ++ data)) hfile
      exact Option.some.inj hmap
  next hclosed =>
    have hnone : acc.tempFile = none := by
      cases hfile : acc.tempFile with
      | none => rfl
      | some file => simp [hfile] at hclosed
    split
    · refine ⟨fun _ => ?_, fun file hfile => ?_⟩
      · show (acc.rawChunks ++ [data]).flatten = _
        rw [List.flatten_append, h.chunks hnone, List.flatten_cons, List.flatten_nil, List.append_nil]
      · cases hnone.symm.trans hfile
    next hempty =>
      have hdata : data = [] := List.length_eq_zero_iff.mp (Nat.eq_zero_of_not_pos hempty)
      rw [hdata, List.append_nil]
      exact h

/-- The file has no part in what is counted and shown. -/
theorem Tracks.file {raw' : List UInt8} (h : Tracks acc limits pieces raw)
    {tempFile : Option (List UInt8)} {rawChunks : List (List UInt8)}
    (hraw : TracksRaw { acc with tempFile, rawChunks } raw') :
    Tracks { acc with tempFile, rawChunks } limits pieces raw' := by
  obtain ⟨⟨h₁, h₂, h₃, h₄, h₅, h₆, h₇⟩, ⟨h₈, h₉, h₁₀⟩, -⟩ := h
  exact ⟨⟨h₁, h₂, h₃, h₄, h₅, h₆, h₇⟩, ⟨h₈, h₉, h₁₀⟩, hraw⟩

/-- Neither have the decoder, the number of raw bytes and the end of the output. -/
theorem Tracks.bookkeeping (h : Tracks acc limits pieces raw) (decoder : Utf8.TextDecoder)
    (totalRawBytes : Nat) (finished : Bool) :
    Tracks { acc with decoder, totalRawBytes, finished } limits pieces raw := by
  obtain ⟨⟨h₁, h₂, h₃, h₄, h₅, h₆, h₇⟩, ⟨h₈, h₉, h₁₀⟩, h₁₁, h₁₂⟩ := h
  exact ⟨⟨h₁, h₂, h₃, h₄, h₅, h₆, h₇⟩, ⟨h₈, h₉, h₁₀⟩, h₁₁, h₁₂⟩

theorem Tracks.ensureTempFile (h : Tracks acc limits pieces raw) : Tracks acc.ensureTempFile limits pieces raw := by
  have hraw := h.raw.ensureTempFile
  unfold OutputAccumulator.ensureTempFile at hraw ⊢
  cases hfile : acc.tempFile with
  | some file => exact h
  | none =>
    rw [hfile] at hraw
    exact h.file hraw

theorem Tracks.keepRaw (h : Tracks acc limits pieces raw) (data : List UInt8) :
    Tracks (acc.keepRaw data) limits pieces (raw ++ data) := by
  have hraw := h.raw.keepRaw data
  unfold OutputAccumulator.keepRaw at hraw ⊢
  split at hraw
  next hopen =>
    rw [if_pos hopen]
    exact h.ensureTempFile.file hraw
  next hclosed =>
    rw [if_neg hclosed]
    split at hraw
    next hdata =>
      rw [if_pos hdata]
      exact h.file hraw
    next hdata =>
      rw [if_neg hdata]
      exact ⟨h.tail, h.lines, hraw⟩

/-! ## A run -/

theorem tracks_create (maxLines maxBytes : Option Nat) :
    Tracks (create maxLines maxBytes) (Limits.ofOptions maxLines maxBytes) [] [] := by
  refine ⟨⟨rfl, rfl, rfl, rfl, Nat.zero_le _, rfl, [], rfl, rfl, fun h => absurd rfl h⟩,
    ⟨rfl, rfl, rfl⟩, fun _ => rfl, nofun⟩

/-- What stays as it is when a piece of text comes. -/
theorem appendDecodedText_stays (acc : OutputAccumulator) (text : List Char) :
    (acc.appendDecodedText text).decoder = acc.decoder ∧ (acc.appendDecodedText text).finished = acc.finished := by
  unfold appendDecodedText countLines extendTail trimTail
  dsimp only
  split
  · exact ⟨rfl, rfl⟩
  · split <;> split <;> try split
    all_goals exact ⟨rfl, rfl⟩

theorem ensureTempFile_stays (acc : OutputAccumulator) :
    acc.ensureTempFile.decoder = acc.decoder ∧ acc.ensureTempFile.finished = acc.finished := by
  unfold ensureTempFile
  split <;> exact ⟨rfl, rfl⟩

theorem keepRaw_stays (acc : OutputAccumulator) (data : List UInt8) :
    (acc.keepRaw data).decoder = acc.decoder ∧ (acc.keepRaw data).finished = acc.finished := by
  unfold keepRaw
  split
  · exact acc.ensureTempFile_stays
  · split <;> exact ⟨rfl, rfl⟩

/-- **One chunk.** -/
theorem Tracks.append (h : Tracks acc limits pieces raw) (hopen : acc.finished = false) (data : List UInt8) :
    ∃ acc', acc.append data = .ok acc' ∧ acc'.finished = false ∧ acc'.decoder = (acc.decoder.decodeStream data).2 ∧
      Tracks acc' limits (pieces ++ [(acc.decoder.decodeStream data).1]) (raw ++ data) := by
  have happend : acc.append data = .ok (({ acc with
      totalRawBytes := acc.totalRawBytes + data.length
      decoder := (acc.decoder.decodeStream data).2 }.appendDecodedText
        (acc.decoder.decodeStream data).1).keepRaw data) := by
    unfold OutputAccumulator.append
    rw [if_neg (by simp [hopen])]
  refine ⟨_, happend, ?_, ?_, ?_⟩
  · rw [(keepRaw_stays _ _).2, (appendDecodedText_stays _ _).2]
    exact hopen
  · rw [(keepRaw_stays _ _).1, (appendDecodedText_stays _ _).1]
  · exact ((h.bookkeeping _ _ acc.finished).appendDecodedText _).keepRaw data

theorem Tracks.snapshot (h : Tracks acc limits pieces raw) (persistIfTruncated : Bool) :
    Tracks (acc.snapshot persistIfTruncated).2 limits pieces raw ∧
      (acc.snapshot persistIfTruncated).2.decoder = acc.decoder ∧
      (acc.snapshot persistIfTruncated).2.finished = acc.finished := by
  unfold OutputAccumulator.snapshot
  dsimp only
  split
  · exact ⟨h.ensureTempFile, acc.ensureTempFile_stays⟩
  · exact ⟨h, rfl, rfl⟩

theorem Tracks.finish (h : Tracks acc limits pieces raw) (hopen : acc.finished = false) :
    Tracks acc.finish limits (pieces ++ [acc.decoder.decodeEnd]) raw := by
  have hend := (h.bookkeeping acc.decoder acc.totalRawBytes true).appendDecodedText
    acc.decoder.decodeEnd
  unfold OutputAccumulator.finish
  dsimp only
  rw [if_neg (by simp [hopen])]
  split
  · exact hend.ensureTempFile
  · exact hend

/-- **A whole run**: the accumulator keeps track of all chunks, up to the end of the stream. -/
theorem Tracks.perform (h : Tracks acc limits pieces raw) (hopen : acc.finished = false) (operations : List Operation) :
    ∃ acc', acc.perform operations = .ok acc' ∧
      Tracks acc'.finish limits (pieces ++ decodedPieces acc.decoder (chunksOf operations))
        (raw ++ (chunksOf operations).flatten) := by
  induction operations generalizing acc pieces raw with
  | nil =>
    refine ⟨acc, rfl, ?_⟩
    rw [chunksOf, List.flatten_nil, List.append_nil]
    exact h.finish hopen
  | cons operation rest ih =>
    cases operation with
    | append data =>
      obtain ⟨acc₁, hstep, hopen₁, hdecoder, h₁⟩ := h.append hopen data
      obtain ⟨acc₂, hrun, h₂⟩ := ih h₁ hopen₁
      refine ⟨acc₂, ?_, ?_⟩
      · rw [OutputAccumulator.perform, hstep]
        exact hrun
      · rw [hdecoder, List.append_assoc, List.append_assoc] at h₂
        exact h₂
    | snapshot persistIfTruncated =>
      obtain ⟨h₁, hdecoder, hopen₁⟩ := h.snapshot persistIfTruncated
      obtain ⟨acc₂, hrun, h₂⟩ := ih h₁ (hopen₁.trans hopen)
      rw [hdecoder] at h₂
      exact ⟨acc₂, hrun, h₂⟩

/-! ## What is shown at the end -/

theorem truncateTail_totals (content : List Char) (limits : Limits) :
    (truncateTail content limits).truncated = !decide (Fits limits content) ∧
      (truncateTail content limits).totalLines = (splitLinesForCounting content).length ∧
      (truncateTail content limits).totalBytes = byteLength content := by
  by_cases hfits : Fits limits content
  · rw [truncateTail_of_fits hfits]
    simp [hfits]
  · rw [truncateTail_of_not_fits hfits]
    simp [hfits, truncatedResult]

theorem Tracks.totals (h : Tracks acc limits pieces raw) :
    acc.truncation.truncated = (truncateTail pieces.flatten limits).truncated ∧
      acc.truncation.totalLines = (truncateTail pieces.flatten limits).totalLines ∧
      acc.truncation.totalBytes = (truncateTail pieces.flatten limits).totalBytes := by
  obtain ⟨htruncated, hlines, hbytes⟩ := truncateTail_totals pieces.flatten limits
  rw [htruncated, hlines, hbytes]
  refine ⟨?_, h.lines.totalLines, h.tail.totalDecodedBytes⟩
  show (decide (acc.totalLines > acc.limits.maxLines) || decide (acc.totalDecodedBytes > acc.limits.maxBytes)) = _
  rw [h.lines.totalLines, h.tail.totalDecodedBytes, h.tail.sameLimits, Bool.eq_iff_iff, Bool.or_eq_true,
    decide_eq_true_iff, decide_eq_true_iff, Bool.not_eq_true', decide_eq_false_iff_not]
  unfold Fits
  omega

theorem Tracks.getSnapshotText (h : Tracks acc limits pieces raw) :
    acc.getSnapshotText = shownText pieces.flatten (keptTail acc.maxRollingBytes pieces) := by
  obtain ⟨before, htext, hflag, -⟩ := h.tail.tail
  rw [← h.tail.kept, htext, shownText, beforeEnd_append, ← hflag]
  rfl

theorem truncation_agrees (h : Tracks acc limits pieces raw) (hover : limits.maxBytes < byteLength pieces.flatten) :
    Agrees acc.truncation (truncateTail pieces.flatten limits) ↔
      ShowsSame (truncateTail acc.getSnapshotText limits) (truncateTail pieces.flatten limits) := by
  have hlimits := h.tail.sameLimits
  have htotals := h.totals
  have hby : acc.truncation.truncatedBy = some ((truncateTail acc.getSnapshotText limits).truncatedBy.getD .bytes) := by
    have hdecoded : acc.totalDecodedBytes > acc.limits.maxBytes := by
      rw [h.tail.totalDecodedBytes, hlimits]
      exact hover
    unfold truncation
    rw [hlimits] at hdecoded ⊢
    simp [hdecoded]
  have hshown : acc.truncation.content = (truncateTail acc.getSnapshotText limits).content ∧
      acc.truncation.outputLines = (truncateTail acc.getSnapshotText limits).outputLines ∧
      acc.truncation.outputBytes = (truncateTail acc.getSnapshotText limits).outputBytes ∧
      acc.truncation.lastLinePartial = (truncateTail acc.getSnapshotText limits).lastLinePartial := by
    rw [← hlimits]
    exact ⟨rfl, rfl, rfl, rfl⟩
  obtain ⟨hcontent, hlines, hbytes, hpartial⟩ := hshown
  constructor
  · intro hagrees
    exact ⟨hcontent ▸ hagrees.content, hby ▸ hagrees.truncatedBy, hlines ▸ hagrees.outputLines,
      hbytes ▸ hagrees.outputBytes, hpartial ▸ hagrees.lastLinePartial⟩
  · intro hsame
    exact ⟨hcontent ▸ hsame.content, htotals.1, hby ▸ hsame.truncatedBy, htotals.2.1, htotals.2.2,
      hlines ▸ hsame.outputLines, hbytes ▸ hsame.outputBytes, hpartial ▸ hsame.lastLinePartial⟩

theorem truncation_whole (h : Tracks acc limits pieces raw) (hshown : acc.getSnapshotText = pieces.flatten) :
    Agrees acc.truncation (truncateTail pieces.flatten limits) := by
  obtain ⟨htruncated, hlines, hbytes⟩ := h.totals
  have hlimits := h.tail.sameLimits
  refine ⟨.inl ?_, htruncated, ?_, hlines, hbytes, ?_, ?_, ?_⟩
  · show (truncateTail acc.getSnapshotText acc.limits).content = _
    rw [hshown, hlimits]
  · have hby : acc.truncation.truncatedBy = if acc.truncation.truncated then
        some ((truncateTail acc.getSnapshotText acc.limits).truncatedBy.getD
          (if acc.totalDecodedBytes > acc.limits.maxBytes then .bytes else .lines))
        else none := rfl
    rw [hby, htruncated, hshown, hlimits]
    by_cases hfits : Fits limits pieces.flatten
    · rw [truncateTail_of_fits hfits]
      rfl
    · rw [truncateTail_of_not_fits hfits]
      rfl
  · show (truncateTail acc.getSnapshotText acc.limits).outputLines = _
    rw [hshown, hlimits]
  · show (truncateTail acc.getSnapshotText acc.limits).outputBytes = _
    rw [hshown, hlimits]
  · show (truncateTail acc.getSnapshotText acc.limits).lastLinePartial = _
    rw [hshown, hlimits]

theorem exists_firstLine (h : '\n' ∈ text) : ∃ line, text = line ++ '\n' :: (text.dropWhile (· ≠ '\n')).drop 1 := by
  induction text with
  | nil => cases h
  | cons c text ih =>
    by_cases hc : c = '\n'
    · subst hc
      exact ⟨[], rfl⟩
    · obtain ⟨line, hline⟩ := ih ((List.mem_cons.mp h).resolve_left (Ne.symm hc))
      refine ⟨c :: line, ?_⟩
      rw [List.dropWhile_cons_of_pos (by simpa using hc), List.cons_append, ← hline]

/-- What is shown is an end of the whole. Where the tail has been cut and what is shown does not
start at a line, it has no other line. -/
theorem shownText_spec (before kept : List Char) (hbefore : before ≠ []) :
    ∃ start, start ≠ [] ∧ before ++ kept = start ++ shownText (before ++ kept) kept ∧ (endsWithNewline start = true ∨
        endsWithNewline start = false ∧ '\n' ∉ shownText (before ++ kept) kept) := by
  have hempty : before.isEmpty = false := by simpa using hbefore
  unfold shownText
  rw [beforeEnd_append, hempty, Bool.false_or]
  by_cases hends : endsWithNewline before = true
  · rw [if_pos hends]
    exact ⟨before, hbefore, rfl, .inl hends⟩
  · rw [if_neg hends]
    by_cases hmem : '\n' ∈ kept
    · rw [if_pos hmem]
      obtain ⟨line, hline⟩ := exists_firstLine hmem
      refine ⟨before ++ (line ++ ['\n']), by simp, ?_, .inl ?_⟩
      · rw [List.append_assoc, List.append_assoc, List.singleton_append, ← hline]
      · exact endsWithNewline_iff.mpr ⟨before ++ line, (List.append_assoc _ _ _).symm⟩
    · rw [if_neg hmem]
      exact ⟨before, hbefore, rfl, .inr ⟨by simpa using hends, hmem⟩⟩

/-- **The condition is exact.** -/
theorem Tracks.agrees_iff (h : Tracks acc limits pieces raw) :
    Agrees acc.truncation (truncateTail pieces.flatten limits) ↔ ShowsEnough limits pieces.flatten
        (shownText pieces.flatten (keptTail acc.maxRollingBytes pieces)) := by
  have hshown := h.getSnapshotText
  obtain ⟨before, htext, hflag, hover⟩ := h.tail.tail
  by_cases hbefore : before = []
  · -- the tail has never been cut
    subst hbefore
    have hwhole : shownText pieces.flatten (keptTail acc.maxRollingBytes pieces) = pieces.flatten := by
      rw [← h.tail.kept, htext, shownText, beforeEnd_append]
      rfl
    refine iff_of_true (truncation_whole h (hshown.trans hwhole)) (.inl hwhole)
  · obtain ⟨start, hstart, hsplit, hinside⟩ := shownText_spec before acc.tailText hbefore
    rw [← htext, h.tail.kept] at hsplit hinside
    have hbytes := hover hbefore
    rw [truncation_agrees h hbytes, hshown, ShowsEnough]
    generalize shownText pieces.flatten (keptTail acc.maxRollingBytes pieces) = shown at *
    have hlonger : ¬ shown = pieces.flatten := by
      rintro rfl
      exact hstart (List.append_left_eq_self.mp hsplit.symm)
    rw [or_iff_right hlonger, hsplit, beforeEnd_append]
    rw [hsplit] at hbytes
    rcases hinside with hends | ⟨hends, hline⟩
    · exact showsSame_boundary hends hbytes
    · exact showsSame_inside hstart hends hline hbytes

end Tracking

/-- **The accumulator agrees with truncating the whole output** exactly if it shows enough of it. The
file always holds all the raw bytes. -/
theorem snapshot_agrees_iff (maxLines maxBytes : Option Nat) (operations : List Operation) :
    ∃ acc, (create maxLines maxBytes).perform operations = .ok acc ∧ ∀ persistIfTruncated,
        (Agrees (acc.finish.snapshot persistIfTruncated).1.truncation
            (truncateTail (Utf8.decodeText (chunksOf operations).flatten) (Limits.ofOptions maxLines maxBytes)) ∧
          ∀ file, (acc.finish.snapshot persistIfTruncated).2.tempFile = some file →
            file = (chunksOf operations).flatten) ↔
        ShowsEnough (Limits.ofOptions maxLines maxBytes) (Utf8.decodeText (chunksOf operations).flatten)
          (shownText (Utf8.decodeText (chunksOf operations).flatten)
            (keptTail (max ((Limits.ofOptions maxLines maxBytes).maxBytes * 2) 1)
              (decodedPieces .init (chunksOf operations)))) := by
  obtain ⟨acc, hrun, htracks⟩ := (tracks_create maxLines maxBytes).perform rfl operations
  refine ⟨acc, hrun, fun persistIfTruncated => ?_⟩
  have hwhole : (decodedPieces .init (chunksOf operations)).flatten =
      Utf8.decodeText (chunksOf operations).flatten := decodedPieces_flatten .init _
  have hagrees := htracks.agrees_iff
  rw [List.nil_append, htracks.tail.rolling] at hagrees
  have hdecoder : (create maxLines maxBytes).decoder = .init := rfl
  rw [hdecoder, hwhole] at hagrees
  have hfile := (htracks.snapshot persistIfTruncated).1.raw.file
  rw [List.nil_append] at hfile
  exact (and_iff_left hfile).trans hagrees

/-- A line that is longer than the tail, and ends in a newline: nothing of it is shown. -/
theorem snapshot_not_agrees :
    ¬ ∀ (maxLines maxBytes : Option Nat) (operations : List Operation) (acc : OutputAccumulator),
      (create maxLines maxBytes).perform operations = .ok acc →
      ∀ persistIfTruncated, Agrees (acc.finish.snapshot persistIfTruncated).1.truncation
          (truncateTail (Utf8.decodeText (chunksOf operations).flatten) (Limits.ofOptions maxLines maxBytes)) := by
  intro h
  have hshown : ((create none (some 8)).perform [.append (List.replicate 33 0x61 ++ [0x0A])]).map
      (fun acc => (acc.finish.snapshot true).1.truncation.outputLines) = .ok 0 := by
    decide +kernel
  have hwhole : (truncateTail (Utf8.decodeText (chunksOf [.append (List.replicate 33 0x61 ++ [0x0A])]).flatten)
        (Limits.ofOptions none (some 8))).outputLines = 1 := by
    decide +kernel
  cases hrun : (create none (some 8)).perform [.append (List.replicate 33 0x61 ++ [0x0A])] with
  | error e =>
    rw [hrun] at hshown
    cases hshown
  | ok acc =>
    have hlines := (h none (some 8) _ acc hrun true).outputLines
    rw [hrun] at hshown
    have hnone : (acc.finish.snapshot true).1.truncation.outputLines = 0 := Except.ok.inj hshown
    rw [hwhole, hnone] at hlines
    cases hlines

end OutputAccumulator

end Mcpi.CodingAgent
