import Mcpi.Ai.SentEvents

/-!
# What `iterateSseMessages` reads

The reader decodes the lines of its pieces. A piece that ends between the CR and the LF of a line gives an empty line
more, and that ends the event after its name.
-/

namespace Mcpi.Ai

open LineBreaks

variable {text line rest buffer : List Char} {state : SseDecoderState}

/-! ## Lines of the buffer -/

theorem indexOf_cons (c d : Char) (text : List Char) :
    Search.indexOf [c] (d :: text) = if d = c then some 0 else (Search.indexOf [c] text).map (· + 1) := by
  rw [Search.indexOf]
  by_cases h : d = c
  · rw [if_pos h, if_pos (List.cons_prefix_cons.mpr ⟨h.symm, List.nil_prefix⟩)]
  · rw [if_neg h, if_neg (fun hprefix => h (List.cons_prefix_cons.mp hprefix).1.symm)]

theorem nextLineBreakIndex_break {c : Char} (h : c = '\r' ∨ c = '\n') (text : List Char) :
    nextLineBreakIndex (c :: text) = some 0 := by
  rw [nextLineBreakIndex, indexOf_cons, indexOf_cons]
  rcases h with rfl | rfl
  · rw [if_pos rfl, if_neg (by decide)]
    cases Search.indexOf ['\n'] text with
    | none => rfl
    | some i => exact congrArg some (Nat.zero_min _)
  · rw [if_neg (by decide), if_pos rfl]
    cases Search.indexOf ['\r'] text with
    | none => rfl
    | some i => exact congrArg some (Nat.min_zero _)

theorem nextLineBreakIndex_char {c : Char} (hcr : c ≠ '\r') (hlf : c ≠ '\n') (text : List Char) :
    nextLineBreakIndex (c :: text) = (nextLineBreakIndex text).map (· + 1) := by
  rw [nextLineBreakIndex, nextLineBreakIndex, indexOf_cons, indexOf_cons, if_neg hcr, if_neg hlf]
  cases Search.indexOf ['\r'] text with
  | none => rfl
  | some i =>
    cases Search.indexOf ['\n'] text with
    | none => rfl
    | some j => exact congrArg some (Nat.add_min_add_right i j 1)

theorem consumeLine_char {c : Char} (hcr : c ≠ '\r') (hlf : c ≠ '\n') (text : List Char) :
    consumeLine (c :: text) = (consumeLine text).map fun (line, rest) => (c :: line, rest) := by
  rw [consumeLine, consumeLine, nextLineBreakIndex_char hcr hlf]
  cases nextLineBreakIndex text with
  | none => rfl
  | some i =>
    simp only [Option.map_some, List.getElem?_cons_succ, List.take_succ_cons]
    split <;> rfl

theorem consumeLine_lf (text : List Char) : consumeLine ('\n' :: text) = some ([], text) := by
  rw [consumeLine, nextLineBreakIndex_break (.inr rfl)]
  rfl

theorem consumeLine_crlf (text : List Char) : consumeLine ('\r' :: '\n' :: text) = some ([], text) := by
  rw [consumeLine, nextLineBreakIndex_break (.inl rfl)]
  rfl

theorem consumeLine_cr (h : text.head? ≠ some '\n') : consumeLine ('\r' :: text) = some ([], text) := by
  rw [consumeLine, nextLineBreakIndex_break (.inl rfl)]
  dsimp only
  rw [if_neg]
  · rfl
  · rintro ⟨-, hnext⟩
    rw [List.getElem?_cons_succ, ← List.head?_eq_getElem?] at hnext
    exact h hnext

/-- The line that the reader takes off is the first line. -/
theorem splitLines_consumeLine (text : List Char) :
    splitLines text = match consumeLine text with
      | none => ([], text)
      | some (line, rest) => (line :: (splitLines rest).1, (splitLines rest).2) := by
  induction text with
  | nil => rfl
  | cons c text ih =>
    by_cases hlf : c = '\n'
    · rw [hlf, consumeLine_lf, splitLines_lf]
    · by_cases hcr : c = '\r'
      · rw [hcr]
        by_cases hnext : text.head? = some '\n'
        · obtain ⟨text, rfl⟩ : ∃ more, text = '\n' :: more := by
            cases text with
            | nil => cases hnext
            | cons d text => exact ⟨text, by rw [Option.some.inj hnext]⟩
          rw [consumeLine_crlf, splitLines_crlf]
        · rw [consumeLine_cr hnext, splitLines_cr hnext]
      · rw [consumeLine_char hcr hlf, splitLines_char hlf hcr, ih]
        cases consumeLine text with
        | none => rfl
        | some first => rfl

/-! ## Decoding lines -/

/-- The events of some lines, and the state after them. -/
def decodeLines (state : SseDecoderState) : List (List Char) → List ServerSentEvent × SseDecoderState
  | [] => ([], state)
  | line :: lines =>
    ((decodeSseLine line state).1.toList ++ (decodeLines (decodeSseLine line state).2 lines).1,
      (decodeLines (decodeSseLine line state).2 lines).2)

/-- The events of all lines, of what comes after the last line break, and of the end. -/
def decodeAll (state : SseDecoderState) (rest : List Char) : List (List Char) → List ServerSentEvent
  | [] =>
    let (event, state) := if rest.length > 0 then decodeSseLine rest state else (none, state)
    event.toList ++ (flushSseEvent state).1.toList
  | line :: lines => (decodeSseLine line state).1.toList ++ decodeAll (decodeSseLine line state).2 rest lines

theorem decodeAll_append (state : SseDecoderState) (rest : List Char) (a b : List (List Char)) :
    decodeAll state rest (a ++ b) = (decodeLines state a).1 ++ decodeAll (decodeLines state a).2 rest b := by
  induction a generalizing state with
  | nil => rfl
  | cons line a ih =>
    rw [List.cons_append, decodeAll, ih, decodeLines, List.append_assoc]

theorem consumeLines_eq (buffer : List Char) (state : SseDecoderState) : consumeLines buffer state =
    ((decodeLines state (splitLines buffer).1).1, (splitLines buffer).2,
      (decodeLines state (splitLines buffer).1).2) := by
  fun_induction consumeLines buffer state with
  | case1 buffer state h =>
    rw [splitLines_consumeLine, h]
    rfl
  | case2 buffer state line rest h event state' heq events buffer' state'' heq' ih =>
    rw [splitLines_consumeLine, h]
    rw [heq'] at ih
    rw [decodeLines, heq]
    obtain ⟨hevents, hstate⟩ := Prod.mk.inj ih
    obtain ⟨hbuffer, hstate⟩ := Prod.mk.inj hstate
    rw [hevents, hbuffer, hstate]

theorem splitLines_oneLine (h : OneLine buffer) : splitLines buffer = ([], buffer) := by
  have heq := splitLines_line h []
  rw [List.append_nil] at heq
  rw [heq]
  rw [show splitLines [] = ([], []) by rw [splitLines]]
  exact congrArg _ (List.append_nil _)

theorem iterateSseTexts_eq (texts : List (List Char)) (h : OneLine buffer) :
    iterateSseTexts buffer state [] texts =
      decodeAll state (readPieces buffer texts).2 (readPieces buffer texts).1 := by
  induction texts generalizing buffer state with
  | nil =>
    rw [iterateSseTexts, List.append_nil, consumeLines_eq, splitLines_oneLine h]
    rfl
  | cons text texts ih =>
    rw [iterateSseTexts, consumeLines_eq, readPieces]
    dsimp only
    rw [ih (oneLine_splitLines _), decodeAll_append]

/-! ## Lines of an event -/

variable {ν : Type} [JsonNumber ν] {event : SentEvent ν} {events : List (SentEvent ν)} {lines : List (List Char)}

theorem data_ne_nil (event : SentEvent ν) : event.data ≠ [] := by
  intro h
  have hbegins := event.begins
  rw [h] at hbegins
  cases hbegins

theorem decodeSseLine_eventLine (event : SentEvent ν) :
    decodeSseLine event.eventLine .initial = (none, ⟨some event.name, [], [event.eventLine]⟩) := by
  have hline : event.eventLine = ['e', 'v', 'e', 'n', 't', ':', ' '] ++ event.name := rfl
  have hindex : Search.indexOf [':'] event.eventLine = some 5 := by
    rw [hline]
    simp [indexOf_cons]
  rw [decodeSseLine, hindex, hline]
  simp [SseDecoderState.initial]

theorem decodeSseLine_dataLine (event : SentEvent ν) (name : Option (List Char)) (raw : List (List Char)) :
    decodeSseLine event.dataLine ⟨name, [], raw⟩ = (none, ⟨name, [event.data], raw ++ [event.dataLine]⟩) := by
  have hline : event.dataLine = ['d', 'a', 't', 'a', ':', ' '] ++ event.data := rfl
  have hindex : Search.indexOf [':'] event.dataLine = some 4 := by
    rw [hline]
    simp [indexOf_cons]
  rw [decodeSseLine, hindex, hline]
  simp

theorem flushSseEvent_data (data : List Char) (name : Option (List Char)) (raw : List (List Char)) :
    flushSseEvent ⟨name, [data], raw⟩ = (some ⟨name, data, raw⟩, .initial) := by
  rw [flushSseEvent, if_neg (by rintro ⟨-, ⟨⟩⟩), List.intercalate_singleton]

/-- An empty line where a piece ends between CR and LF. -/
def gapLine (gap : Bool) : List (List Char) := if gap then [[]] else []

theorem decodeAll_gap (gap : Bool) (rest : List Char) (lines : List (List Char)) :
    decodeAll .initial rest (gapLine gap ++ lines) = decodeAll .initial rest lines := by
  cases gap <;> rfl

theorem decodeAll_data (event : SentEvent ν) (gap : Bool) (name : Option (List Char)) (raw : List (List Char)) :
    (decodeAll ⟨name, [], raw⟩ rest (event.dataLine :: (gapLine gap ++ [] :: lines))).map (·.data) =
      event.data :: (decodeAll .initial rest lines).map (·.data) := by
  rw [decodeAll, decodeSseLine_dataLine]
  cases gap with
  | false =>
    show (decodeAll ⟨name, [event.data], _⟩ rest ([] :: lines)).map _ = _
    rw [decodeAll, decodeSseLine, if_pos rfl, flushSseEvent_data]
    rfl
  | true =>
    -- the blank line comes after the empty one
    show (decodeAll ⟨name, [event.data], _⟩ rest ([] :: [] :: lines)).map _ = _
    rw [decodeAll, decodeSseLine, if_pos rfl, flushSseEvent_data]
    show event.data :: (decodeAll .initial rest (gapLine true ++ lines)).map _ = _
    rw [decodeAll_gap]

theorem decodeAll_last (event : SentEvent ν) (gap : Bool) (name : Option (List Char)) (raw : List (List Char)) :
    (decodeAll ⟨name, [], raw⟩ [] (event.dataLine :: gapLine gap)).map (·.data) = [event.data] := by
  rw [decodeAll, decodeSseLine_dataLine]
  cases gap with
  | false =>
    show ((flushSseEvent ⟨name, [event.data], _⟩).1.toList).map _ = _
    rw [flushSseEvent_data]
    rfl
  | true =>
    show (decodeAll ⟨name, [event.data], _⟩ [] [[]]).map _ = _
    rw [decodeAll, decodeSseLine, if_pos rfl, flushSseEvent_data]
    rfl

/-- An empty line after the name ends the event, unless the name is empty. -/
theorem decodeAll_name (event : SentEvent ν) (gap : Bool) :
    decodeAll .initial rest (event.eventLine :: (gapLine gap ++ lines)) =
      if gap = true ∧ event.name ≠ [] then
        ⟨some event.name, [], [event.eventLine]⟩ :: decodeAll .initial rest lines
      else decodeAll ⟨some event.name, [], [event.eventLine]⟩ rest lines := by
  rw [decodeAll, decodeSseLine_eventLine]
  cases gap with
  | false => rw [if_neg (fun h => nomatch h.1)]; rfl
  | true =>
    show decodeAll ⟨some event.name, [], _⟩ rest ([] :: lines) = _
    rw [decodeAll, decodeSseLine, if_pos rfl, flushSseEvent]
    by_cases hname : event.name = []
    · rw [if_pos ⟨.inr (congrArg some hname), rfl⟩, if_neg (fun h => h.2 hname)]
      rfl
    · rw [if_neg, if_pos ⟨rfl, hname⟩]
      · rfl
      · rintro ⟨h | h, -⟩
        · cases h
        · exact hname (Option.some.inj h)

/-! ## All events -/

/-- A piece ends between the CR and the LF after the name of an event. -/
def CutInEvent (lineEnd : LineEnd) (tokens : List (Option Char)) (events : List (SentEvent ν)) : Prop :=
  ∃ earlier event later, events = earlier ++ event :: later ∧ event.name ≠ [] ∧ lineEnd = .crlf ∧
    Cut tokens (written lineEnd true earlier ++ (event.eventLine ++ ['\r']))

theorem not_cutInEvent_nil (lineEnd : LineEnd) (tokens : List (Option Char)) :
    ¬ CutInEvent lineEnd tokens ([] : List (SentEvent ν)) := by
  rintro ⟨earlier, event, later, heq, -⟩
  cases earlier <;> cases heq

variable {lineEnd : LineEnd} {finalBlankLine : Bool} {tokens : List (Option Char)}

theorem cutInEvent_cons {first later : List (Option Char)} (htokens : tokens = first ++ later)
    (hfirst : events ≠ [] → chars first = written lineEnd true [event]) :
    CutInEvent lineEnd tokens (event :: events) ↔
      (event.name ≠ [] ∧ lineEnd = .crlf ∧ Cut tokens (event.eventLine ++ ['\r'])) ∨
        CutInEvent lineEnd later events := by
  subst htokens
  have hmore : ∀ (earlier : List (SentEvent ν)) (next : SentEvent ν), events ≠ [] →
      (Cut (first ++ later) (written lineEnd true (event :: earlier) ++ (next.eventLine ++ ['\r'])) ↔
        Cut later (written lineEnd true earlier ++ (next.eventLine ++ ['\r']))) := by
    intro earlier next hne
    have happend : written lineEnd true (event :: earlier) = chars first ++ written lineEnd true earlier := by
      rw [hfirst hne, written, written]
      simp [written]
    rw [happend, List.append_assoc]
    exact cut_append (by simp)
  constructor
  · rintro ⟨earlier, next, rest, heq, hname, hcrlf, hcut⟩
    cases earlier with
    | nil =>
      obtain ⟨rfl, rfl⟩ := List.cons.inj heq
      exact .inl ⟨hname, hcrlf, hcut⟩
    | cons _ earlier =>
      obtain ⟨rfl, rfl⟩ := List.cons.inj heq
      exact .inr ⟨earlier, next, rest, rfl, hname, hcrlf, (hmore earlier next (by simp)).mp hcut⟩
  · rintro (⟨hname, hcrlf, hcut⟩ | ⟨earlier, next, rest, rfl, hname, hcrlf, hcut⟩)
    · exact ⟨[], event, events, rfl, hname, hcrlf, hcut⟩
    · exact ⟨event :: earlier, next, rest, rfl, hname, hcrlf, (hmore earlier next (by simp)).mpr hcut⟩

/-- What comes after the name of an event: its payload, and the rest once the blank line is read. -/
theorem decodeAll_payload (event : SentEvent ν)
    (h : chars tokens = (if events = [] ∧ finalBlankLine = false then [] else lineEnd.chars) ++
      written lineEnd finalBlankLine events) :
    ∃ blank later, tokens = blank ++ later ∧ (events ≠ [] → chars blank = lineEnd.chars) ∧
      chars later = written lineEnd finalBlankLine events ∧ ∀ gap name raw,
        (decodeAll ⟨name, [], raw⟩ (scan [] false tokens).2
          (event.dataLine :: (gapLine gap ++ (scan [] false tokens).1))).map (·.data) =
        event.data :: (decodeAll .initial (scan [] false later).2 (scan [] false later).1).map (·.data) := by
  by_cases hlast : events = [] ∧ finalBlankLine = false
  · rw [if_pos hlast, List.nil_append] at h
    refine ⟨[], tokens, rfl, fun hne => absurd hlast.1 hne, h, fun gap name raw => ?_⟩
    rw [hlast.1, written] at h
    rw [scan_end h, List.append_nil, decodeAll_last]
    rfl
  · rw [if_neg hlast] at h
    obtain ⟨blank, later, gap₃, rfl, hblank, hlater, hscan, -⟩ := scan_line lineEnd oneLine_nil h
    refine ⟨blank, later, rfl, fun _ => hblank, hlater, fun gap name raw => ?_⟩
    rw [hscan]
    show (decodeAll ⟨name, [], raw⟩ _ (event.dataLine :: (gapLine gap ++ [] :: (gapLine gap₃ ++ _)))).map _ = _
    rw [decodeAll_data, decodeAll_gap]

/-- The payloads are read, unless an empty line ends an event after its name. -/
theorem decodeAll_written (h : chars tokens = written lineEnd finalBlankLine events) :
    (decodeAll .initial (scan [] false tokens).2 (scan [] false tokens).1).map (·.data) = events.map (·.data) ↔
      ¬ CutInEvent lineEnd tokens events := by
  induction events generalizing tokens with
  | nil =>
    rw [scan_end h]
    exact iff_of_true rfl (not_cutInEvent_nil lineEnd tokens)
  | cons event events ih =>
    rw [written] at h
    obtain ⟨name, tokens', gap, rfl, hname, h, hscan, hgap⟩ := scan_line lineEnd event.eventLine_line h
    obtain ⟨data, tokens'', gap', rfl, hdata, h, hscan', -⟩ := scan_line lineEnd event.dataLine_line h
    obtain ⟨blank, later, rfl, hblank, hlater, hpayload⟩ := decodeAll_payload event h
    have hfirst : events ≠ [] → chars (name ++ (data ++ blank)) = written lineEnd true [event] := by
      intro hne
      rw [chars_append, chars_append, hname, hdata, hblank hne, written]
      simp [written]
    have htokens : name ++ (data ++ (blank ++ later)) = (name ++ (data ++ blank)) ++ later := by
      simp only [List.append_assoc]
    rw [cutInEvent_cons htokens hfirst, ← hgap, hscan, hscan']
    show (decodeAll .initial _ (event.eventLine :: (gapLine gap ++
      (event.dataLine :: (gapLine gap' ++ (scan [] false (blank ++ later)).1))))).map _ = _ ↔ _
    rw [decodeAll_name]
    by_cases hcut : gap = true ∧ event.name ≠ []
    · rw [if_pos hcut]
      refine iff_of_false (fun heq => ?_) (fun hno => hno (.inl ⟨hcut.2, hcut.1⟩))
      exact data_ne_nil event (List.cons.inj heq).1.symm
    · rw [if_neg hcut, hpayload, List.map_cons, List.cons_inj_right, ih hlater, or_iff_right]
      exact fun hboth => hcut ⟨hboth.2, hboth.1⟩

end Mcpi.Ai
