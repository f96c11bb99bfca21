import Mcpi.Ai.BlockReading
import Mcpi.Ai.SseReading
import Mcpi.Lib.Json.Integer
import Mathlib.Data.List.TakeWhile

/-!
# The readers of server-sent events

What each reader yields of events that come in chunks, whatever the chunks are. `readPiMessagesEvents` yields every
event. `iterateSseMessages` yields every event unless a chunk ends between the CR and the LF after an event's name.
`parseSSE` needs LF and the blank line after the last event.
-/

namespace Mcpi.Ai

open LineBreaks
open Search (blocks blocks_append blocks_of_none blocks_of_some)

variable {ν : Type} [JsonNumber ν] {lineEnd : LineEnd} {finalBlankLine : Bool} {events : List (SentEvent ν)}
  {text clean a b : List Char}

/-! ## CR LF as LF -/

/-- Each CR comes right before an LF. -/
def CrBeforeLf (text : List Char) : Prop := ∀ rest, '\r' :: rest <:+ text → rest.head? = some '\n'

theorem CrBeforeLf.of_suffix (h : CrBeforeLf text) (hsuffix : a <:+ text) : CrBeforeLf a :=
  fun rest hrest => h rest (hrest.trans hsuffix)

theorem CrBeforeLf.append (ha : CrBeforeLf a) (hb : CrBeforeLf b) : CrBeforeLf (a ++ b) := by
  intro rest hrest
  obtain ⟨before, hbefore⟩ := hrest
  rcases List.append_eq_append_iff.mp hbefore with ⟨middle, ha', hrest⟩ | ⟨middle, hbefore', hb'⟩
  · cases middle with
    | nil => exact hb rest ⟨[], hrest⟩
    | cons c middle =>
      obtain ⟨rfl, rfl⟩ := List.cons.inj hrest
      have hhead := ha middle ⟨before, ha'.symm⟩
      cases middle with
      | nil => cases hhead
      | cons d middle => exact hhead
  · exact hb rest ⟨middle, hb'.symm⟩

theorem crBeforeLf_of_not_mem (h : '\r' ∉ text) : CrBeforeLf text :=
  fun _ hrest => absurd (hrest.subset List.mem_cons_self) h

theorem crBeforeLf_chars (lineEnd : LineEnd) : CrBeforeLf lineEnd.chars := by
  cases lineEnd with
  | lf => exact crBeforeLf_of_not_mem (by decide)
  | crlf =>
    intro rest hrest
    rcases List.suffix_cons_iff.mp hrest with heq | hrest
    · obtain ⟨-, rfl⟩ := List.cons.inj heq
      rfl
    · exact absurd (hrest.subset List.mem_cons_self) (by decide)

theorem crBeforeLf_written (events : List (SentEvent ν)) : CrBeforeLf (written lineEnd finalBlankLine events) := by
  induction events with
  | nil => exact crBeforeLf_of_not_mem List.not_mem_nil
  | cons event events ih =>
    rw [written]
    apply (crBeforeLf_of_not_mem event.eventLine_line.2).append
    apply (crBeforeLf_chars lineEnd).append
    apply (crBeforeLf_of_not_mem event.dataLine_line.2).append
    apply (crBeforeLf_chars lineEnd).append
    split
    · exact ih
    · exact (crBeforeLf_chars lineEnd).append ih

/-- A text without its CRs. -/
def withoutCr (text : List Char) : List Char := text.filter (· ≠ '\r')

theorem withoutCr_append (a b : List Char) : withoutCr (a ++ b) = withoutCr a ++ withoutCr b := List.filter_append a b

theorem withoutCr_line (h : '\r' ∉ text) : withoutCr text = text := by
  apply List.filter_eq_self.mpr
  intro c hc
  rw [decide_eq_true_eq]
  rintro rfl
  exact h hc

theorem not_mem_withoutCr (text : List Char) : '\r' ∉ withoutCr text := fun h => by
  have hkept := (List.mem_filter.mp h).2
  rw [decide_eq_true_eq] at hkept
  exact hkept rfl

theorem withoutCr_written (lineEnd : LineEnd) (finalBlankLine : Bool) (events : List (SentEvent ν)) :
    withoutCr (written lineEnd finalBlankLine events) = written .lf finalBlankLine events := by
  have hchars : withoutCr lineEnd.chars = LineEnd.lf.chars := by cases lineEnd <;> rfl
  induction events with
  | nil => rfl
  | cons event events ih =>
    rw [written, written, withoutCr_append, withoutCr_append, withoutCr_append, withoutCr_append, withoutCr_append,
      withoutCr_line event.eventLine_line.2, withoutCr_line event.dataLine_line.2, hchars, ih]
    split
    · rfl
    · rw [hchars]

theorem replaceCrLf_append (h : '\r' ∉ clean) (text : List Char) :
    replaceCrLf (clean ++ text) = clean ++ replaceCrLf text := by
  induction clean with
  | nil => rfl
  | cons c clean ih =>
    rw [List.mem_cons, not_or] at h
    rw [List.cons_append, replaceCrLf, ih h.2, List.cons_append]
    intro _ heq _
    exact h.1 heq.symm

/-- A part of the text loses its CRs but one that it ends with. -/
theorem replaceCrLf_part (text rest : List Char) (h : CrBeforeLf (text ++ rest)) :
    ∃ pending, (pending = [] ∨ pending = ['\r']) ∧ replaceCrLf text = withoutCr text ++ pending ∧
      CrBeforeLf (pending ++ rest) := by
  fun_induction replaceCrLf text with
  | case1 => exact ⟨[], .inl rfl, rfl, h⟩
  | case2 text ih =>
    obtain ⟨pending, hpending, heq, hcr⟩ := ih (h.of_suffix ⟨['\r', '\n'], rfl⟩)
    exact ⟨pending, hpending, by rw [heq]; rfl, hcr⟩
  | case3 c text hnot ih =>
    obtain ⟨pending, hpending, heq, hcr⟩ := ih (h.of_suffix ⟨[c], rfl⟩)
    by_cases hc : c = '\r'
    · subst hc
      cases text with
      | nil =>
        -- the LF is yet to come
        exact ⟨['\r'], .inr rfl, rfl, h⟩
      | cons d text =>
        have hhead := h _ (List.suffix_refl _)
        obtain rfl := Option.some.inj hhead
        exact absurd rfl (hnot text rfl)
    · refine ⟨pending, hpending, ?_, hcr⟩
      rw [heq, withoutCr, withoutCr, List.filter_cons_of_pos (by simpa using hc), List.cons_append]

/-! ## `readPiMessagesEvents` -/

/-- What comes after the last chunk. -/
def finishPi (result : List (List Char) × List Char) : Generated (Json ν) :=
  (yieldEach parseTruthy result.1).andThen (if trim result.2 ≠ [] then yieldEach parseTruthy [result.2] else ⟨[], none⟩)

theorem finishPi_append (blocks more : List (List Char)) (rest : List Char) :
    (finishPi (blocks ++ more, rest) : Generated (Json ν)) =
      (yieldEach parseTruthy blocks).andThen (finishPi (more, rest)) := by
  rw [finishPi, yieldEach_append, Generated.andThen_assoc]
  rfl

theorem indexOf_append_cr (h : Search.indexOf blankLine text = none) :
    Search.indexOf blankLine (text ++ ['\r']) = none := by
  induction text with
  | nil => rfl
  | cons c text ih =>
    rw [Search.indexOf] at h
    split at h
    · cases h
    next hbegins =>
      rw [List.cons_append, Search.indexOf, if_neg, ih (Option.map_eq_none_iff.mp h)]
      · rfl
      · intro hlonger
        apply hbegins
        obtain ⟨rfl, hrest⟩ := List.cons_prefix_cons.mp hlonger
        cases text with
        | nil => cases (List.cons_prefix_cons.mp hrest).1
        | cons d text =>
          obtain ⟨rfl, -⟩ := List.cons_prefix_cons.mp hrest
          exact ⟨text, rfl⟩

/-- A CR at the end does not matter for the blocks. -/
theorem blocks_pending {pending : List Char} (h : pending = [] ∨ pending = ['\r']) (text : List Char) :
    blocks blankLine (text ++ pending) = ((blocks blankLine text).1, (blocks blankLine text).2 ++ pending) := by
  rcases h with rfl | rfl
  · rw [List.append_nil, List.append_nil]
  · rw [blocks_append blankLine_ne, blocks_of_none (indexOf_append_cr (Search.blocks_rest blankLine_ne text)),
      List.append_nil]

theorem readPiTexts_eq {pending : List Char} (texts : List (List Char)) (hclean : '\r' ∉ clean)
    (hpending : pending = [] ∨ pending = ['\r']) (h : CrBeforeLf (pending ++ texts.flatten)) :
    (readPiTexts (clean ++ pending) [] texts : Generated (Json ν)) =
      finishPi (blocks blankLine (clean ++ withoutCr texts.flatten)) := by
  induction texts generalizing clean pending with
  | nil =>
    have hnil : pending = [] := by
      rcases hpending with rfl | rfl
      · rfl
      · have hhead := h [] (List.suffix_refl _)
        cases hhead
    have hsame : replaceCrLf clean = clean := by
      have heq := replaceCrLf_append hclean []
      rw [List.append_nil] at heq
      rw [heq]
      exact List.append_nil _
    rw [readPiTexts, hnil, List.append_nil, List.append_nil, hsame]
    exact congrArg (fun text => finishPi (blocks blankLine text)) (List.append_nil _).symm
  | cons text texts ih =>
    rw [List.flatten_cons, ← List.append_assoc] at h
    obtain ⟨pending', hpending', heq, hcr⟩ := replaceCrLf_part (pending ++ text) texts.flatten h
    have hwithout : withoutCr (pending ++ text) = withoutCr text := by
      rw [withoutCr_append]
      rcases hpending with rfl | rfl <;> rfl
    rw [hwithout] at heq
    rw [readPiTexts, List.append_assoc, replaceCrLf_append hclean, heq, ← List.append_assoc, blocks_pending hpending']
    dsimp only
    have hrest : '\r' ∉ (blocks blankLine (clean ++ withoutCr text)).2 := by
      intro hmem
      rcases List.mem_append.mp ((Search.blocks_rest_suffix _ _).subset hmem) with hmem | hmem
      · exact hclean hmem
      · exact not_mem_withoutCr text hmem
    rw [ih hrest hpending' hcr, ← finishPi_append, List.flatten_cons, withoutCr_append, ← List.append_assoc,
      blocks_append blankLine_ne (clean ++ withoutCr text)]

/-! ## All readers -/

theorem trim_ne_nil {c : Char} (hc : c ∈ text) (h : isSpace c = false) : trim text ≠ [] := by
  intro heq
  rw [trim, List.reverse_eq_nil_iff, List.dropWhile_eq_nil_iff] at heq
  rw [← List.takeWhile_append_dropWhile (p := isSpace) (l := text)] at hc
  have hspace : isSpace c = true := by
    rcases List.mem_append.mp hc with hfront | hback
    · exact List.mem_takeWhile_imp hfront
    · exact heq c (List.mem_reverse.mpr hback)
  rw [h] at hspace
  cases hspace

theorem finishPi_written (finalBlankLine : Bool) (events : List (SentEvent ν)) :
    finishPi (blocks blankLine (written .lf finalBlankLine events)) = ⟨events.map SentEvent.payload, none⟩ := by
  have hall : ∀ events : List (SentEvent ν),
      yieldEach parseTruthy (events.map SentEvent.block) = ⟨events.map SentEvent.payload, none⟩ :=
    yieldEach_map parseTruthy_block
  cases finalBlankLine with
  | true =>
    rw [blocks_written, finishPi, hall, if_neg (fun h => h rfl)]
    exact congrArg (fun values => (⟨values, none⟩ : Generated (Json ν))) (List.append_nil _)
  | false =>
    rcases List.eq_nil_or_concat events with rfl | ⟨earlier, last, rfl⟩
    · have hnil : blocks blankLine (written .lf false ([] : List (SentEvent ν))) = ([], []) := blocks_of_none rfl
      rw [hnil]
      rfl
    · have hlast : trim (last.block ++ ['\n']) ≠ [] := by
        apply @trim_ne_nil _ 'e'
        · exact List.mem_cons_self
        · decide
      rw [List.concat_eq_append, blocks_written_open, finishPi, hall, if_pos hlast, yieldEach,
        parseTruthy_lines last.split_block_newline, List.map_append]
      rfl

inductive EventReader
  | iterateSseMessages
  | readPiMessagesEvents
  | parseSSE
  deriving DecidableEq

/-- A reader yields the payloads of the events, once each and in order, and does not throw. -/
def EventReader.Yields (events : List (SentEvent ν)) (chunks : List (List UInt8)) : EventReader → Prop
  | .iterateSseMessages => (Mcpi.Ai.iterateSseMessages chunks).map (·.data) = events.map (·.data)
  | .readPiMessagesEvents => Mcpi.Ai.readPiMessagesEvents chunks = ⟨events.map SentEvent.payload, none⟩
  | .parseSSE => Mcpi.Ai.parseSSE chunks = ⟨events.map SentEvent.payload, none⟩

/-- A chunk ends between the CR and the LF after the name of an event. -/
def ChunkEndsInName (lineEnd : LineEnd) (events : List (SentEvent ν)) (chunks : List (List UInt8)) : Prop :=
  ∃ earlier event later, events = earlier ++ event :: later ∧ event.name ≠ [] ∧ lineEnd = .crlf ∧
    ∃ taken rest, chunks = taken ++ rest ∧
      taken.flatten = Utf8.encode (written lineEnd true earlier ++ (event.eventLine ++ ['\r']))

/-- What a reader asks of the events and their chunks. -/
def EventReader.Reads (lineEnd : LineEnd) (finalBlankLine : Bool) (events : List (SentEvent ν))
    (chunks : List (List UInt8)) : EventReader → Prop
  | .iterateSseMessages => ¬ ChunkEndsInName lineEnd events chunks
  | .readPiMessagesEvents => True
  | .parseSSE => events = [] ∨ lineEnd = .lf ∧ finalBlankLine = true

variable {chunks : List (List UInt8)}

theorem head_written_ne (lineEnd : LineEnd) (finalBlankLine : Bool) (events : List (SentEvent ν)) :
    (written lineEnd finalBlankLine events).head? ≠ some '\uFEFF' := by
  intro h
  rcases head_written lineEnd finalBlankLine events with hnil | he
  · rw [hnil] at h
    cases h
  · rw [he] at h
    cases h

section

variable (h : chunks.flatten = Utf8.encode (written lineEnd finalBlankLine events))
include h

theorem iterateSseMessages_iff :
    EventReader.iterateSseMessages.Yields events chunks ↔ ¬ ChunkEndsInName lineEnd events chunks := by
  obtain ⟨htexts, hlast⟩ := Utf8.decodeChunks_encode (head_written_ne lineEnd finalBlankLine events) h
  have hread : iterateSseMessages chunks =
      iterateSseTexts [] .initial [] (Utf8.TextDecoder.init.decodeChunks chunks).1 := by
    rw [iterateSseMessages, ← hlast]
  have hcut : CutInEvent lineEnd (tokens (Utf8.TextDecoder.init.decodeChunks chunks).1) events ↔
      ChunkEndsInName lineEnd events chunks := by
    apply exists_congr
    intro earlier
    apply exists_congr
    intro event
    apply exists_congr
    intro later
    apply and_congr_right
    rintro rfl
    apply and_congr_right
    intro _
    apply and_congr_right
    rintro rfl
    rw [cut_tokens_iff (by simp)]
    obtain ⟨more, hmore⟩ : ∃ more, written .crlf finalBlankLine (earlier ++ event :: later) =
        (written .crlf true earlier ++ (event.eventLine ++ ['\r'])) ++ '\n' :: more := by
      have hline : ∀ rest, written .crlf true earlier ++ (event.eventLine ++ (LineEnd.crlf.chars ++ rest)) =
          (written .crlf true earlier ++ (event.eventLine ++ ['\r'])) ++ '\n' :: rest := by
        intro rest
        rw [List.append_assoc, List.append_assoc]
        rfl
      rw [written_append, written]
      exact ⟨_, hline _⟩
    rw [hmore] at h
    apply Utf8.cut_decodeChunks_iff (by decide) _ h
    rw [List.head?_append, List.head?_append]
    rcases head_written .crlf true earlier with hnil | he
    · rw [hnil]
      rintro ⟨⟩
    · rw [he]
      rintro ⟨⟩
  rw [EventReader.Yields, hread, iterateSseTexts_eq _ oneLine_nil, readPieces_eq _ oneLine_nil,
    decodeAll_written ((chars_tokens _).trans htexts), hcut]

theorem readPiMessagesEvents_yields :
    EventReader.readPiMessagesEvents.Yields events chunks := by
  obtain ⟨htexts, hlast⟩ := Utf8.decodeChunks_encode (head_written_ne lineEnd finalBlankLine events) h
  have hcr : CrBeforeLf ([] ++ (Utf8.TextDecoder.init.decodeChunks chunks).1.flatten) := by
    rw [htexts]
    exact crBeforeLf_written events
  have hread := readPiTexts_eq (ν := ν) _ List.not_mem_nil (.inl rfl) hcr
  rw [htexts, withoutCr_written] at hread
  rw [EventReader.Yields]
  show readPiTexts [] (Utf8.TextDecoder.init.decodeChunks chunks).2 (Utf8.TextDecoder.init.decodeChunks chunks).1 = _
  rw [hlast]
  exact hread.trans (finishPi_written finalBlankLine events)

theorem parseSSE_iff :
    EventReader.parseSSE.Yields events chunks ↔ events = [] ∨ lineEnd = .lf ∧ finalBlankLine = true := by
  obtain ⟨htexts, -⟩ := Utf8.decodeChunks_encode (head_written_ne lineEnd finalBlankLine events) h
  have hread : (parseSSE chunks : Generated (Json ν)) =
      yieldEach parseCodexChunk (blocks blankLine (written lineEnd finalBlankLine events)).1 := by
    rw [parseSSE, parseSSETexts_eq _ rfl, htexts]
    rfl
  have hall : ∀ events : List (SentEvent ν),
      yieldEach parseCodexChunk (events.map SentEvent.block) = ⟨events.map SentEvent.payload, none⟩ :=
    yieldEach_map parseCodexChunk_block
  -- where fewer are yielded than there are events, they are not all yielded
  have hfewer : ∀ earlier : List (SentEvent ν), earlier.length < events.length →
      parseSSE chunks = ⟨earlier.map SentEvent.payload, none⟩ →
      ¬ EventReader.parseSSE.Yields events chunks := by
    intro earlier hlt hearlier hyields
    have heq := congrArg (fun generated => generated.values.length) (hearlier.symm.trans hyields)
    simp only [List.length_map] at heq
    omega
  rw [or_comm]
  cases lineEnd with
  | lf =>
    cases finalBlankLine with
    | true =>
      refine iff_of_true ?_ (.inl ⟨rfl, rfl⟩)
      rw [EventReader.Yields, hread, blocks_written, hall]
    | false =>
      rcases List.eq_nil_or_concat events with rfl | ⟨earlier, last, rfl⟩
      · refine iff_of_true ?_ (.inr rfl)
        rw [EventReader.Yields, hread]
        have hnil : blocks blankLine (written .lf false ([] : List (SentEvent ν))) = ([], []) :=
          blocks_of_none rfl
        rw [hnil]
        rfl
      · refine iff_of_false (hfewer earlier (by simp) ?_) ?_
        · rw [hread, List.concat_eq_append, blocks_written_open, hall]
        · rintro (⟨-, hfinal⟩ | hnil)
          · cases hfinal
          · simp at hnil
  | crlf =>
    have hnone : parseSSE chunks = (⟨[], none⟩ : Generated (Json ν)) := by
      rw [hread, blocks_of_none (indexOf_written_crlf finalBlankLine events)]
      rfl
    cases events with
    | nil => exact iff_of_true hnone (.inr rfl)
    | cons event events =>
      refine iff_of_false (hfewer [] (by simp) hnone) ?_
      rintro (⟨hcrlf, -⟩ | hnil)
      · cases hcrlf
      · cases hnil

end

/-- **What the readers yield**, for any cut of the written events into chunks. -/
theorem yields_iff (reader : EventReader) (lineEnd : LineEnd) (finalBlankLine : Bool) (events : List (SentEvent ν))
    (chunks : List (List UInt8)) (h : chunks.flatten = Utf8.encode (written lineEnd finalBlankLine events)) :
    reader.Yields events chunks ↔ reader.Reads lineEnd finalBlankLine events chunks := by
  cases reader with
  | iterateSseMessages => exact iterateSseMessages_iff h
  | readPiMessagesEvents => exact iff_of_true (readPiMessagesEvents_yields h) trivial
  | parseSSE => exact parseSSE_iff h

def messageStop : SentEvent Int where
  name := "message_stop".toList
  data := "{}".toList
  members := []
  name_line := by decide +kernel
  data_line := by decide +kernel
  begins := rfl
  ends := rfl
  parses := rfl

/-- Chunks that end between CR and LF, in front of the last character. -/
theorem readPiMessagesEvents_two_chunks : EventReader.readPiMessagesEvents.Yields [messageStop]
    [Utf8.encode "event: message_stop\r".toList, Utf8.encode "\ndata: {}\r\n".toList] :=
  (yields_iff .readPiMessagesEvents .crlf false [messageStop] _ (by decide +kernel)).mpr trivial

/-- The name and the payload come as two events where a chunk ends between CR and LF. -/
theorem name_ends_event_between_chunks :
    ¬ ∀ (reader : EventReader) (lineEnd : LineEnd) (finalBlankLine : Bool) (events : List (SentEvent Int))
      (chunks : List (List UInt8)), chunks.flatten = Utf8.encode (written lineEnd finalBlankLine events) →
      reader.Yields events chunks := by
  intro hall
  have hyields := hall .iterateSseMessages .crlf true [messageStop]
    [Utf8.encode "event: message_stop\r".toList, Utf8.encode "\ndata: {}\r\n\r\n".toList] (by decide +kernel)
  refine (@iterateSseMessages_iff _ _ .crlf true _ _ (by decide +kernel)).mp hyields ?_
  exact ⟨[], messageStop, [], rfl, by decide +kernel, rfl, [Utf8.encode "event: message_stop\r".toList],
    [Utf8.encode "\ndata: {}\r\n\r\n".toList], rfl, by decide +kernel⟩

end Mcpi.Ai
