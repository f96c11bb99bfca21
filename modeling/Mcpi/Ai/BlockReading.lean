import Mcpi.Ai.SentEvents

/-!
# What the block readers read

`readPiMessagesEvents` and `parseSSE` take the buffer apart at blank lines. The first turns CR LF into LF before and
reads what is left in the end; the second does neither.
-/

namespace Mcpi.Ai

open LineBreaks
open Search (blocks blocks_append blocks_rest blocks_of_none blocks_of_some)

/-! ## Generators -/

section Generated

variable {α β : Type} {parse : List Char → Except ReadError (Option α)}

theorem Generated.andThen_assoc (a b c : Generated α) : (a.andThen b).andThen c = a.andThen (b.andThen c) := by
  cases a with
  | mk values thrown =>
    cases thrown with
    | some error => rfl
    | none =>
      cases b with
      | mk values' thrown' =>
        cases thrown' with
        | some error => rfl
        | none =>
          exact congrArg (fun values => (⟨values, c.thrown⟩ : Generated α)) (List.append_assoc _ _ _)

theorem yieldEach_append (a b : List (List Char)) :
    yieldEach parse (a ++ b) = (yieldEach parse a).andThen (yieldEach parse b) := by
  induction a with
  | nil => rfl
  | cons block a ih =>
    rw [List.cons_append, yieldEach, yieldEach]
    cases parse block with
    | error error => rfl
    | ok value =>
      rw [ih, Generated.andThen_assoc]

theorem yieldEach_map {text : β → List Char} {value : β → α} (h : ∀ b, parse (text b) = .ok (some (value b)))
    (items : List β) : yieldEach parse (items.map text) = ⟨items.map value, none⟩ := by
  induction items with
  | nil => rfl
  | cons b items ih =>
    rw [List.map_cons, yieldEach, h]
    rw [ih]
    rfl

end Generated

/-! ## The block of an event -/

variable {ν : Type} [JsonNumber ν] {event : SentEvent ν} {events : List (SentEvent ν)} {text more line : List Char}

namespace SentEvent

/-- What comes before the blank line. -/
def block (event : SentEvent ν) : List Char := event.eventLine ++ '\n' :: event.dataLine

variable (event : SentEvent ν)

theorem split_block : List.splitOn '\n' event.block = [event.eventLine, event.dataLine] := by
  rw [block, List.splitOn_append_cons_self_of_not_mem event.eventLine_line.1,
    List.splitOn_eq_singleton event.dataLine_line.1]

theorem split_block_newline :
    List.splitOn '\n' (event.block ++ ['\n']) = [event.eventLine, event.dataLine, []] := by
  rw [block, List.append_assoc, List.cons_append, List.splitOn_append_cons_self_of_not_mem event.eventLine_line.1,
    List.splitOn_append_cons_self_of_not_mem event.dataLine_line.1]
  rfl

theorem startsWithData_eventLine : startsWithData event.eventLine = false := by
  rw [startsWithData, decide_eq_false_iff_not]
  intro h
  cases (List.cons_prefix_cons.mp h).1

theorem startsWithData_dataLine : startsWithData event.dataLine = true := by
  rw [startsWithData, decide_eq_true_eq]
  exact ⟨' ' :: event.data, rfl⟩

theorem exists_cons : ∃ rest, event.data = '{' :: rest := by
  have hbegins := event.begins
  cases hdata : event.data with
  | nil =>
    rw [hdata] at hbegins
    cases hbegins
  | cons c rest =>
    rw [hdata] at hbegins
    exact ⟨rest, by rw [Option.some.inj hbegins]⟩

theorem trim_data : trim event.data = event.data := by
  obtain ⟨rest, hdata⟩ := event.exists_cons
  have hfirst : event.data.dropWhile isSpace = event.data := by
    rw [hdata]
    exact List.dropWhile_cons_of_neg (by decide)
  have hlast : event.data.reverse.dropWhile isSpace = event.data.reverse := by
    have hends := event.ends
    rw [← List.head?_reverse] at hends
    cases hreverse : event.data.reverse with
    | nil => rfl
    | cons c chars =>
      rw [hreverse] at hends
      obtain rfl := Option.some.inj hends
      exact List.dropWhile_cons_of_neg (by decide)
  rw [trim, hfirst, hlast, List.reverse_reverse]

theorem trim_dataLine : trim (event.dataLine.drop 5) = event.data := by
  have hspace : trim (' ' :: event.data) = trim event.data := by
    rw [trim, List.dropWhile_cons_of_pos (by decide), trim]
  show trim (' ' :: event.data) = event.data
  rw [hspace, event.trim_data]

/-- The payload is a text of its own, not the end of the stream. -/
theorem data_counts : event.data ≠ [] ∧ event.data ≠ "[DONE]".toList := by
  obtain ⟨rest, hdata⟩ := event.exists_cons
  rw [hdata]
  constructor
  · exact List.cons_ne_nil _ _
  · intro h
    cases (List.cons.inj h).1

theorem parseData_data (error : ReadError) :
    parseData event.data error = .ok (some event.payload) := by
  rw [parseData, event.parses]
  rfl

end SentEvent

theorem parseTruthy_lines {raw : List Char} {rest : List (List Char)}
    (h : List.splitOn '\n' raw = event.eventLine :: event.dataLine :: rest) :
    parseTruthy raw = .ok (some event.payload) := by
  have hfind : (List.splitOn '\n' raw).find? startsWithData = some event.dataLine := by
    rw [h, List.find?_cons_of_neg (by rw [event.startsWithData_eventLine]; exact Bool.false_ne_true),
      List.find?_cons_of_pos event.startsWithData_dataLine]
  rw [parseTruthy, parsePiMessagesEvent, hfind]
  dsimp only
  rw [event.trim_dataLine, if_pos event.data_counts, event.parseData_data]
  rfl

theorem parseTruthy_block (event : SentEvent ν) : parseTruthy event.block = .ok (some event.payload) :=
  parseTruthy_lines event.split_block

theorem parseCodexChunk_block (event : SentEvent ν) : parseCodexChunk event.block = .ok (some event.payload) := by
  have hlines : ((List.splitOn '\n' event.block).filter startsWithData).map (fun line => trim (line.drop 5)) =
      [event.data] := by
    rw [event.split_block, List.filter_cons_of_neg (by rw [event.startsWithData_eventLine]; exact Bool.false_ne_true),
      List.filter_cons_of_pos event.startsWithData_dataLine, List.filter_nil, List.map_singleton, event.trim_dataLine]
  rw [parseCodexChunk, hlines]
  rw [List.intercalate_singleton]
  show (if trim event.data ≠ [] ∧ trim event.data ≠ "[DONE]".toList then
    parseData (trim event.data) (.codexProtocolError (trim event.data)) else .ok none) = _
  rw [event.trim_data, if_pos event.data_counts, event.parseData_data]

/-! ## Blank lines -/

theorem blankLine_ne : blankLine ≠ [] := List.cons_ne_nil _ _

theorem not_blankLine_cons {c : Char} (h : '\n' ≠ c) (text : List Char) : ¬ blankLine <+: c :: text :=
  fun hbegins => h (List.cons_prefix_cons.mp hbegins).1

theorem indexOf_blankLine (h : '\n' ∉ line) (more : List Char) :
    Search.indexOf blankLine (line ++ '\n' :: '\n' :: more) = some line.length := by
  induction line with
  | nil =>
    rw [List.nil_append, Search.indexOf, if_pos ⟨more, rfl⟩]
    rfl
  | cons c line ih =>
    rw [List.mem_cons, not_or] at h
    rw [List.cons_append, Search.indexOf, if_neg (not_blankLine_cons h.1 _), ih h.2]
    rfl

theorem indexOf_next (h : '\n' ∉ line) (hmore : more.head? ≠ some '\n') :
    Search.indexOf blankLine (line ++ '\n' :: more) = (Search.indexOf blankLine more).map (· + (line.length + 1)) := by
  induction line with
  | nil =>
    rw [List.nil_append, Search.indexOf, if_neg]
    · rfl
    · rintro hbegins
      obtain ⟨rest, hrest⟩ := (List.cons_prefix_cons.mp hbegins).2
      rw [← hrest] at hmore
      exact hmore rfl
  | cons c line ih =>
    rw [List.mem_cons, not_or] at h
    rw [List.cons_append, Search.indexOf, if_neg (not_blankLine_cons h.1 _), ih h.2]
    cases Search.indexOf blankLine more <;> rfl

theorem head_dataLine (event : SentEvent ν) (text : List Char) : (event.dataLine ++ text).head? ≠ some '\n' := by
  show some 'd' ≠ some '\n'
  decide

theorem blocks_block (event : SentEvent ν) (more : List Char) :
    blocks blankLine (event.block ++ '\n' :: '\n' :: more) =
      (event.block :: (blocks blankLine more).1, (blocks blankLine more).2) := by
  have hindex : Search.indexOf blankLine (event.block ++ '\n' :: '\n' :: more) = some event.block.length := by
    rw [SentEvent.block, List.append_assoc, List.cons_append,
      indexOf_next event.eventLine_line.1 (head_dataLine event _), indexOf_blankLine event.dataLine_line.1,
      List.length_append, List.length_cons]
    show some (event.dataLine.length + (event.eventLine.length + 1)) = _
    exact congrArg some (by omega)
  have hdrop : (event.block ++ '\n' :: '\n' :: more).drop (event.block.length + blankLine.length) = more := by
    rw [← List.drop_drop, List.drop_left]
    rfl
  rw [blocks_of_some blankLine_ne hindex, List.take_left, hdrop]

/-- With LF and all blank lines, the blocks are those of the events. -/
theorem blocks_written (events : List (SentEvent ν)) :
    blocks blankLine (written .lf true events) = (events.map SentEvent.block, []) := by
  induction events with
  | nil => exact blocks_of_none rfl
  | cons event events ih =>
    have htext : written .lf true (event :: events) = event.block ++ '\n' :: '\n' :: written .lf true events := by
      rw [written, if_neg (fun h => Bool.false_ne_true h.2.symm), SentEvent.block, List.append_assoc]
      rfl
    rw [htext, blocks_block, ih]
    rfl

/-- Without the last blank line, the last block is what is left. -/
theorem blocks_written_open (earlier : List (SentEvent ν)) (last : SentEvent ν) :
    blocks blankLine (written .lf false (earlier ++ [last])) = (earlier.map SentEvent.block, last.block ++ ['\n']) := by
  have hlast : written .lf false [last] = last.block ++ ['\n'] := by
    rw [written, if_pos ⟨rfl, rfl⟩, SentEvent.block, List.append_assoc]
    rfl
  have hend : ([] : List Char).head? ≠ some '\n' := by decide
  have hnone : Search.indexOf blankLine (last.block ++ ['\n']) = none := by
    rw [SentEvent.block, List.append_assoc, List.cons_append, indexOf_next last.eventLine_line.1 (head_dataLine last _),
      indexOf_next last.dataLine_line.1 hend]
    rfl
  rw [written_append, blocks_append blankLine_ne, blocks_written, hlast, List.nil_append,
    blocks_of_none hnone, List.append_nil]

/-! ## `parseSSE` -/

theorem parseSSETexts_eq {buffer : List Char} (texts : List (List Char)) (h : Search.indexOf blankLine buffer = none) :
    (parseSSETexts buffer texts : Generated (Json ν)) =
      yieldEach parseCodexChunk (blocks blankLine (buffer ++ texts.flatten)).1 := by
  induction texts generalizing buffer with
  | nil =>
    rw [List.flatten_nil, List.append_nil, blocks_of_none h]
    rfl
  | cons text texts ih =>
    rw [List.flatten_cons, ← List.append_assoc, blocks_append blankLine_ne (buffer ++ text),
      yieldEach_append, ← ih (blocks_rest blankLine_ne _)]
    rfl

/-- Where lines end with CR LF there is no blank line. -/
theorem indexOf_written_crlf (finalBlankLine : Bool) (events : List (SentEvent ν)) :
    Search.indexOf blankLine (written .crlf finalBlankLine events) = none := by
  have hline : ∀ {line more : List Char}, OneLine line → more.head? ≠ some '\n' → Search.indexOf blankLine more = none →
      Search.indexOf blankLine (line ++ (LineEnd.crlf.chars ++ more)) = none := by
    intro line more hline hmore hnone
    have hcr : '\n' ∉ line ++ ['\r'] := by
      intro hmem
      rcases List.mem_append.mp hmem with hmem | hmem
      · exact hline.1 hmem
      · cases List.mem_singleton.mp hmem
    have htext : line ++ (LineEnd.crlf.chars ++ more) = (line ++ ['\r']) ++ '\n' :: more := by
      rw [List.append_assoc]
      rfl
    rw [htext, indexOf_next hcr hmore, hnone]
    rfl
  induction events with
  | nil => rfl
  | cons event events ih =>
    have hhead : (written .crlf finalBlankLine events).head? ≠ some '\n' := by
      intro h
      rcases head_written .crlf finalBlankLine events with hnil | he
      · rw [hnil] at h
        cases h
      · rw [he] at h
        cases h
    rw [written]
    apply hline event.eventLine_line (head_dataLine event _)
    apply hline event.dataLine_line
    · split
      · exact hhead
      · rintro ⟨⟩
    · split
      · exact ih
      · exact hline oneLine_nil hhead ih

end Mcpi.Ai
