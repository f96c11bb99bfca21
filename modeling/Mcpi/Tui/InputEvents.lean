import Mcpi.Tui.InputChunks

/-!
# The events of input in chunks

Unambiguous input gives the same events in any chunks. Of ambiguous input there are two ways to cut it, one
behind the sequence that is complete, one not there, whose events are different.
-/

namespace Mcpi.Tui

namespace StdinBuffer

/-- The chunks of some input. -/
structure Chunks (input : Text) (chunks : List Text) : Prop where
  nonempty : ∀ chunk ∈ chunks, chunk ≠ []
  flatten : chunks.flatten = input

/-- The events of some chunks after which the buffer is flushed. -/
def eventsFrom (b : StdinBuffer) (chunks : List Text) : List Event :=
  (chunks.foldl process b).flushed.emitted.events

/-- The events do not depend on the chunks. -/
def ChunkingIndependent (input : Text) : Prop :=
  ∀ chunks chunks', Chunks input chunks → Chunks input chunks' → eventsFrom new chunks = eventsFrom new chunks'

/-! ## Unambiguous input -/

variable {b : StdinBuffer} {chunk : Text} {chunks : List Text}

/-- **Chunks are read as the whole.** -/
theorem foldl_process (hseparate : b.Separate) (hnonempty : ∀ c ∈ chunk :: chunks, c ≠ [])
    (h : Unambiguous b.pasteMode (b.held ++ (chunk :: chunks).flatten)) :
    (chunk :: chunks).foldl process b = settle b.emitted (read b.pasteMode (b.held ++ (chunk :: chunks).flatten)) := by
  induction chunks generalizing b chunk with
  | nil =>
    rw [List.flatten_singleton]
    exact process_eq hseparate (hnonempty chunk List.mem_cons_self)
  | cons chunk' chunks ih =>
    rw [List.flatten_cons, ← List.append_assoc] at h ⊢
    have hparts := readsInParts h rfl
    rw [hparts.eq, settle_after, List.foldl_cons, process_eq hseparate (hnonempty chunk List.mem_cons_self)]
    have hrest := ih (b := settle b.emitted (read b.pasteMode (b.held ++ chunk)))
      (separate_settle _ _) (fun c hc => hnonempty c (List.mem_cons_of_mem _ hc)) (by
        rw [held_settle]
        exact hparts.unambiguous)
    rw [held_settle] at hrest
    exact hrest

theorem eventsFrom_of_unambiguous {input : Text} (h : Unambiguous false input) (hchunks : Chunks input chunks) :
    eventsFrom new chunks = (settle new.emitted (read false input)).flushed.emitted.events := by
  obtain ⟨hnonempty, rfl⟩ := hchunks
  cases chunks with
  | nil => rfl
  | cons chunk chunks =>
    unfold eventsFrom
    rw [foldl_process (b := new) rfl hnonempty h]
    rfl

/-! ## Events stay -/

theorem Emitted.events_piece (emitted : Emitted) (piece : Piece) : emitted.events <+: (emitted.piece piece).events := by
  cases piece with
  | sequence sequence =>
    unfold Emitted.piece Emitted.emitDataSequence
    dsimp only
    split
    · exact List.prefix_refl _
    · exact List.prefix_append _ _
  | pasteStart => exact List.prefix_refl _
  | paste content => exact List.prefix_append _ _

theorem Emitted.events_pieces (emitted : Emitted) (pieces : List Piece) :
    emitted.events <+: (pieces.foldl Emitted.piece emitted).events := by
  induction pieces generalizing emitted with
  | nil => exact List.prefix_refl _
  | cons piece pieces ih => exact (emitted.events_piece piece).trans (ih _)

theorem events_flushed (b : StdinBuffer) : b.emitted.events <+: b.flushed.emitted.events := by
  unfold flushed flush
  by_cases hempty : b.buffer.length = 0
  · rw [if_pos hempty]
    exact List.prefix_append _ _
  · rw [if_neg hempty]
    exact List.prefix_append _ _

theorem events_settle (emitted : Emitted) (reading : Reading) :
    (reading.1.foldl Emitted.piece emitted).events <+: (settle emitted reading).flushed.emitted.events :=
  events_flushed (settle emitted reading)

theorem events_eventsFrom (hseparate : b.Separate)
    (hnonempty : ∀ c ∈ chunks, c ≠ []) : b.emitted.events <+: eventsFrom b chunks := by
  unfold eventsFrom
  induction chunks generalizing b with
  | nil => exact events_flushed b
  | cons chunk chunks ih =>
    rw [List.foldl_cons, process_eq hseparate (hnonempty chunk List.mem_cons_self)]
    exact (Emitted.events_pieces b.emitted _).trans
      (ih (separate_settle _ _) fun c hc => hnonempty c (List.mem_cons_of_mem _ hc))

theorem same_event {events all : List Event} {event event' : Event}
    (h : events ++ [event] <+: all) (h' : events ++ [event'] <+: all) : event = event' := by
  have heq := (List.prefix_of_prefix_length_le h h' (by simp)).eq_of_length (by simp)
  exact (List.cons.inj (List.append_cancel_left heq)).1

/-! ## Ambiguous input -/

/-- A character that is dropped is printable. -/
def Emitted.Printable (emitted : Emitted) : Prop :=
  ∀ codepoint, emitted.pendingKittyPrintableCodepoint = some codepoint → 32 ≤ codepoint

theorem printable_kitty (sequence : Text) (codepoint : Nat)
    (h : parseUnmodifiedKittyPrintableCodepoint sequence = some codepoint) : 32 ≤ codepoint := by
  obtain ⟨-, h⟩ := Option.ite_none_left_eq_some.mp h
  obtain ⟨hmatched, ⟨⟩⟩ := Option.ite_none_right_eq_some.mp h
  exact hmatched.2

theorem Emitted.printable_piece (emitted : Emitted) (piece : Piece) : (emitted.piece piece).Printable := by
  cases piece with
  | sequence sequence =>
    unfold Emitted.piece Emitted.emitDataSequence
    dsimp only
    split
    · exact nofun
    · exact printable_kitty sequence
  | pasteStart => exact nofun
  | paste content => exact nofun

theorem Emitted.Printable.pieces {emitted : Emitted} (h : emitted.Printable) (pieces : List Piece) :
    (pieces.foldl Emitted.piece emitted).Printable := by
  induction pieces generalizing emitted with
  | nil => exact h
  | cons piece pieces ih => exact ih (emitted.printable_piece piece)

theorem Emitted.Printable.emit {emitted : Emitted} (h : emitted.Printable) {sequence : Text}
    (hescape : sequence.head? = some esc) :
    (emitted.piece (.sequence sequence)).events = emitted.events ++ [.data sequence] := by
  unfold Emitted.piece Emitted.emitDataSequence
  dsimp only
  rw [if_neg]
  rintro ⟨hsome, hpending⟩
  unfold rawCodepoint at hsome hpending
  split at hpending
  · rw [hescape] at hpending
    have hprintable := h _ hpending.symm
    revert hprintable
    decide
  next hlength =>
    rw [if_neg hlength] at hsome
    exact hsome rfl

/-- A buffer that holds nothing back, in paste mode or out of it. -/
structure Ready (b : StdinBuffer) (pasteMode : Bool) : Prop where
  separate : b.Separate
  mode : b.pasteMode = pasteMode
  held : b.held = []
  printable : b.emitted.Printable

theorem Ready.process {pasteMode pasteMode' : Bool} (h : b.Ready pasteMode) {pieces : List Piece} (hchunk : chunk ≠ [])
    (hread : read pasteMode chunk = (pieces, pasteMode', [])) :
    (b.process chunk).Ready pasteMode' ∧ (b.process chunk).emitted = pieces.foldl Emitted.piece b.emitted := by
  have heq := process_eq h.separate hchunk
  rw [h.mode, h.held, List.nil_append, hread] at heq
  rw [heq]
  refine ⟨⟨separate_settle _ _, rfl, held_settle _ _, ?_⟩, rfl⟩
  exact h.printable.pieces pieces

theorem Chunks.cons {input : Text} (hchunk : chunk ≠ [])
    (h : Chunks input chunks) : Chunks (chunk ++ input) (chunk :: chunks) := by
  refine ⟨fun c hc => ?_, ?_⟩
  · rcases List.mem_cons.mp hc with rfl | hmem
    · exact hchunk
    · exact h.nonempty c hmem
  · rw [List.flatten_cons, h.flatten]

theorem Chunks.single (hchunk : chunk ≠ []) : Chunks chunk [chunk] :=
  ⟨fun c hc => by rw [List.mem_singleton.mp hc]; exact hchunk, by simp⟩

/-- Two ways to cut the input whose events are different. -/
def CutsDiffer (b : StdinBuffer) (input : Text) : Prop :=
  ∃ chunks chunks', Chunks input chunks ∧ Chunks input chunks' ∧ eventsFrom b chunks ≠ eventsFrom b chunks'

theorem CutsDiffer.cons {chunk input : Text} (hchunk : chunk ≠ [])
    (h : CutsDiffer (b.process chunk) input) : CutsDiffer b (chunk ++ input) := by
  obtain ⟨chunks, chunks', hchunks, hchunks', hdiffer⟩ := h
  exact ⟨chunk :: chunks, chunk :: chunks', hchunks.cons hchunk, hchunks'.cons hchunk, hdiffer⟩

/-- The input is cut behind a sequence that is complete there. -/
theorem Ready.cut_behind (h : b.Ready false) {sequence rest : Text} (hsequence : IsSequence sequence)
    (hnone : Search.indexOf bracketedPasteStart sequence = none)
    (hrest : rest ≠ []) : b.emitted.events ++ [.data sequence] <+: eventsFrom b [sequence, rest] := by
  have hread : read false sequence = ([.sequence sequence], false, []) := by
    have hextract := @extract_sequence _ hsequence [] fun hescape => nomatch hescape.2
    rw [List.append_nil] at hextract
    rw [read_sequences hnone, hextract]
    rfl
  obtain ⟨hready, hemitted⟩ := h.process hsequence.nonempty hread
  have hnonempty : ∀ c ∈ [rest], c ≠ [] := fun c hc => by
    rw [List.mem_singleton.mp hc]
    exact hrest
  have hstay := events_eventsFrom hready.separate hnonempty
  rw [hemitted] at hstay
  rw [← h.printable.emit hsequence.escape]
  exact hstay

/-- Two escapes before what introduces a sequence: in one chunk the first escape comes alone. -/
theorem read_escape {rest : Text} (hintro : introduces rest.head? = true)
    (hstart : ¬ bracketedPasteStart <+: esc :: rest) :
    ∃ pieces mode held, read false (esc :: esc :: rest) = (.sequence [esc] :: pieces, mode, held) := by
  cases rest with
  | nil => cases hintro
  | cons c rest =>
    have hindex : Search.indexOf bracketedPasteStart (esc :: esc :: c :: rest) =
        (Search.indexOf bracketedPasteStart (esc :: c :: rest)).map (· + 1) := by
      refine @Search.indexOf_append _ _ bracketedPasteStart [esc] (esc :: c :: rest) fun j hj hbegins => ?_
      obtain rfl : j = 0 := Nat.lt_one_iff.mp hj
      have hsecond := (List.cons_prefix_cons.mp hbegins).2
      exact absurd (List.cons_prefix_cons.mp hsecond).1 (by decide)
    cases hfirst : Search.indexOf bracketedPasteStart (esc :: c :: rest) with
    | none =>
      rw [hfirst] at hindex
      rw [read_sequences hindex, extract_escape hintro]
      exact ⟨_, _, _, rfl⟩
    | some i =>
      rw [hfirst] at hindex
      rw [read_start hindex]
      obtain ⟨hbegins, -, -⟩ := Search.indexOf_eq_some.mp hfirst
      -- the paste does not start at the escape, nor at the character behind it
      have hfar : 2 ≤ i := by
        match i, hbegins with
        | 0, hbegins => exact absurd hbegins hstart
        | 1, hbegins =>
          have hescape : introduces (some esc) = true := by
            rw [(List.cons_prefix_cons.mp hbegins).1]
            exact hintro
          exact absurd hescape (by decide)
        | i + 2, _ => omega
      obtain ⟨k, rfl⟩ : ∃ k, i = k + 2 := ⟨i - 2, by omega⟩
      have htake : introduces ((c :: rest).take (k + 1)).head? = true := hintro
      show ∃ pieces mode held, Reading.after ((extractCompleteSequences
        (esc :: esc :: (c :: rest).take (k + 1))).1.map .sequence ++ [.pasteStart]) _ = _
      rw [extract_escape htake]
      exact ⟨_, _, _, rfl⟩

/-- Behind two escapes the input can be cut: then they come together. -/
theorem Ready.cutsDiffer_escape (h : b.Ready false) {rest : Text} (hintro : introduces rest.head? = true)
    (hstart : ¬ bracketedPasteStart <+: esc :: rest) : CutsDiffer b (esc :: esc :: rest) := by
  have hrest : rest ≠ [] := by
    rintro rfl
    cases hintro
  refine ⟨[[esc, esc], rest], [esc :: esc :: rest], ?_, .single (List.cons_ne_nil _ _), fun hsame => ?_⟩
  · exact (Chunks.single hrest).cons (List.cons_ne_nil esc [esc])
  · have htwo : IsSequence [esc, esc] := by
      refine ⟨by decide, by decide, fun k hk hlt => ?_, rfl⟩
      rw [List.length_cons, List.length_singleton] at hlt
      obtain rfl : k = 1 := by omega
      rfl
    have hcut := h.cut_behind htwo (by decide) hrest
    obtain ⟨pieces, mode, held, hread⟩ := read_escape hintro hstart
    have hwhole : b.emitted.events ++ [.data [esc]] <+: eventsFrom b [esc :: esc :: rest] := by
      have heq := process_eq h.separate (List.cons_ne_nil esc (esc :: rest))
      rw [h.mode, h.held, List.nil_append, hread] at heq
      show _ <+: (b.process (esc :: esc :: rest)).flushed.emitted.events
      rw [heq, ← h.printable.emit (show [esc].head? = some esc from rfl)]
      exact (Emitted.events_pieces _ pieces).trans (events_settle b.emitted (.sequence [esc] :: pieces, mode, held))
    rw [← hsame] at hwhole
    exact absurd (same_event hcut hwhole) (by decide)

/-- In one chunk a sequence is lost where a paste starts in it. -/
theorem Ready.events_start (h : b.Ready false) {input : Text} {j : Nat} (hinput : input ≠ [])
    (hstart : Search.indexOf bracketedPasteStart input = some j) (hincomplete : Incomplete (input.take j)) :
    eventsFrom b [input] = b.emitted.events ∨
      ∃ content, b.emitted.events ++ [.paste content] <+: eventsFrom b [input] := by
  have hread := read_start hstart
  rw [extract_incomplete hincomplete] at hread
  have heq := process_eq h.separate hinput
  rw [h.mode, h.held, List.nil_append, hread, settle_after] at heq
  show (b.process input).flushed.emitted.events = _ ∨ ∃ content, _ <+: (b.process input).flushed.emitted.events
  rw [heq]
  generalize input.drop (j + bracketedPasteStart.length) = content
  cases hend : Search.indexOf bracketedPasteEnd content with
  | none =>
    rw [read_open hend]
    exact .inl (List.append_nil _)
  | some i =>
    rw [read_paste hend, settle_after]
    exact .inr ⟨content.take i, (Emitted.events_pieces (b.emitted.clearPending.emitPaste (content.take i)) _).trans
      (events_settle (b.emitted.clearPending.emitPaste (content.take i)) _)⟩

/-- Behind a sequence in which a paste starts the input can be cut: then the sequence comes. -/
theorem Ready.cutsDiffer_inStart (h : b.Ready false) {sequence rest : Text} {j : Nat}
    (hsequence : IsSequence sequence) (hin : j < sequence.length)
    (hlong : sequence.length < j + bracketedPasteStart.length)
    (hstart : Search.indexOf bracketedPasteStart (sequence ++ rest) = some j) : CutsDiffer b (sequence ++ rest) := by
  obtain ⟨-, -, hfirst⟩ := Search.indexOf_eq_some.mp hstart
  have hrest : rest ≠ [] := by
    rintro rfl
    have hfits := Search.indexOf_lt (by decide) hstart
    rw [List.append_nil] at hfits
    omega
  have hinput : sequence ++ rest ≠ [] := by simp [hrest]
  refine ⟨[sequence, rest], [sequence ++ rest], ?_, .single hinput, fun hsame => ?_⟩
  · exact (Chunks.single hrest).cons hsequence.nonempty
  · have hnone : Search.indexOf bracketedPasteStart sequence = none := by
      rw [Search.indexOf_eq_none]
      intro i hi hbegins
      have hlength := hbegins.length_le
      rw [List.length_drop] at hlength
      have hmarker : 0 < bracketedPasteStart.length := by decide
      exact hfirst i (by omega) (Search.begins_append hbegins hi)
    have hcut := h.cut_behind hsequence hnone hrest
    have hincomplete : Incomplete ((sequence ++ rest).take j) := by
      intro k hk hle
      rw [List.length_take, List.length_append] at hle
      rw [List.take_take, Nat.min_eq_left (by omega), List.take_append_of_le_length (by omega)]
      exact hsequence.first k hk (by omega)
    rcases h.events_start hinput hstart hincomplete with hnothing | ⟨content, hpaste⟩
    · rw [hsame, hnothing] at hcut
      have hlength := hcut.length_le
      rw [List.length_append, List.length_singleton] at hlength
      omega
    · rw [← hsame] at hpaste
      exact nomatch same_event hcut hpaste

/-- **Ambiguous input can be cut in two ways.** -/
theorem cutsDiffer {pasteMode : Bool} {input : Text} (hambiguous : Ambiguous pasteMode input)
    (h : b.Ready pasteMode) : CutsDiffer b input := by
  induction hambiguous generalizing b with
  | escape hintro hstart => exact h.cutsDiffer_escape hintro hstart
  | inStart hsequence _ hin hlong hstart => exact h.cutsDiffer_inStart hsequence hin hlong hstart
  | @char c rest hc hrest ih =>
    have hread := read_char hc []
    rw [read_nil] at hread
    obtain ⟨hready, -⟩ := h.process (List.cons_ne_nil c []) hread
    exact (ih hready).cons (List.cons_ne_nil c [])
  | @sequence sequence rest hstands hrest ih =>
    have hread := read_sequence (@Stands.of_append _ [] _ hstands)
    rw [List.append_nil, read_nil] at hread
    obtain ⟨hready, -⟩ := h.process hstands.isSequence.nonempty hread
    exact (ih hready).cons hstands.isSequence.nonempty
  | @pasteStart before rest hleads hrest ih =>
    have hread := read_pasteStart hleads []
    rw [List.append_nil, read_nil] at hread
    have hnonempty : before ++ bracketedPasteStart ≠ [] := by simp [bracketedPasteStart]
    obtain ⟨hready, -⟩ := h.process hnonempty hread
    exact (ih hready).cons hnonempty
  | @pasteEnd content rest hcontent hrest ih =>
    have hread := read_pasteEnd hcontent []
    rw [List.append_nil, read_nil] at hread
    have hnonempty : content ++ bracketedPasteEnd ≠ [] := by simp [bracketedPasteEnd]
    obtain ⟨hready, -⟩ := h.process hnonempty hread
    exact (ih hready).cons hnonempty

/-- **The events do not depend on the chunks**, exactly where the input is unambiguous. -/
theorem chunkingIndependent_iff (input : Text) : ChunkingIndependent input ↔ Unambiguous false input := by
  constructor
  · intro h
    rcases unambiguous_or_ambiguous false input with hunambiguous | hambiguous
    · exact hunambiguous
    · obtain ⟨chunks, chunks', hchunks, hchunks', hdiffer⟩ :=
        cutsDiffer hambiguous (show Ready new false from ⟨rfl, rfl, rfl, nofun⟩)
      exact absurd (h chunks chunks' hchunks hchunks') hdiffer
  · intro h chunks chunks' hchunks hchunks'
    rw [eventsFrom_of_unambiguous h hchunks, eventsFrom_of_unambiguous h hchunks']

/-- An escape and an arrow key: cut between the two escapes and the rest, they are another key and two
characters. -/
theorem escape_arrow_depends : ∃ input, ¬ ChunkingIndependent input := by
  refine ⟨[esc, esc, unit '[', unit 'A'], fun h => ?_⟩
  have hsame := h [[esc, esc, unit '[', unit 'A']] [[esc, esc], [unit '[', unit 'A']] ⟨by decide, rfl⟩ ⟨by decide, rfl⟩
  revert hsame
  decide +kernel

end StdinBuffer

end Mcpi.Tui
