import Mcpi.CodingAgent.SessionFile

/-!
# What the readers of a session file read

Reading in chunks gives the lines of the whole file: the decoder's streaming law carries the text
over the chunks, and the line at hand is carried over as what is pending. `loadEntriesFromFile`
so has the entries of the whole file, and `readSessionHeader` the first of them where its line
lies within the limit of the scan.
-/

namespace Mcpi.CodingAgent.SessionFile

open Utf8 Lines

variable {ε : Type} {values : LineValues ε}

theorem newline_ne_replacement : '\n' ≠ replacement := by decide

variable {decoder : StringDecoder}

theorem newline_not_mem_finalText (h : decoder.Holds) :
    '\n' ∉ decoder.finalText := fun hmem =>
  newline_ne_replacement (StringDecoder.finalText_eq h _ hmem)

theorem entryOf_nil : entryOf values [] = none := rfl

/-! ## Loading all entries -/

/-- The entries so far and those of the text to come. -/
def Loading.outcome (values : LineValues ε) (state : Loading ε) (rest : List UInt8) : List ε :=
  state.entries ++ (List.splitOn '\n' (state.pending ++ state.decoder.remaining rest)).filterMap (entryOf values)

variable (values) in
theorem outcome_loadChunk {state : Loading ε} (h : state.decoder.Holds) (data rest : List UInt8) :
    (loadChunk values state data).outcome values rest = state.outcome values (data ++ rest) ∧
      (loadChunk values state data).decoder.Holds ∧ '\n' ∉ (loadChunk values state data).pending := by
  obtain ⟨htext, hholds⟩ := StringDecoder.write_spec h data rest
  refine ⟨?_, hholds, not_mem_complete _⟩
  have hsplit := split_append_complete (state.pending ++ (state.decoder.write data).1)
    ((state.decoder.write data).2.remaining rest)
  rw [Loading.outcome, Loading.outcome, htext, ← List.append_assoc, hsplit, List.filterMap_append, ← List.append_assoc]
  rfl

variable (values) in
theorem loadChunks_spec {size : Nat} (hsize : 0 < size) (rest : List UInt8) (state : Loading ε)
    (h : state.decoder.Holds) (hpending : '\n' ∉ state.pending) :
    (loadChunks values size state rest).outcome values [] = state.outcome values rest ∧
      (loadChunks values size state rest).decoder.Holds ∧
      '\n' ∉ (loadChunks values size state rest).pending := by
  induction hn : rest.length using Nat.strongRecOn generalizing rest state with
  | ind n ih =>
    rw [loadChunks]
    split
    next hnil =>
      obtain rfl : rest = [] := (List.take_eq_nil_iff.mp hnil).resolve_left (Nat.ne_of_gt hsize)
      exact ⟨rfl, h, hpending⟩
    next hdata =>
      obtain ⟨houtcome, hholds, hpending'⟩ :=
        outcome_loadChunk values h (rest.take size) (rest.drop size)
      rw [List.take_append_drop] at houtcome
      rw [← houtcome]
      exact ih _ (hn ▸ length_drop_lt hdata) _ _ hholds hpending' rfl

/-- **The entries of the chunks** are those of the whole file. -/
theorem readEntries_eq {size : Nat} (hsize : 0 < size) (content : List UInt8) :
    readEntries values size content = wholeFileEntries values content := by
  obtain ⟨houtcome, hholds, hpending⟩ := loadChunks_spec values hsize content
    ⟨StringDecoder.init, [], []⟩ .nothing List.not_mem_nil
  have hlast : '\n' ∉ (loadChunks values size ⟨StringDecoder.init, [], []⟩ content).pending ++
      (loadChunks values size ⟨StringDecoder.init, [], []⟩ content).decoder.finalText := fun hmem =>
    (List.mem_append.mp hmem).elim hpending (newline_not_mem_finalText hholds)
  rw [Loading.outcome, StringDecoder.remaining_nil, List.splitOn_eq_singleton hlast] at houtcome
  rw [readEntries, wholeFileEntries, fileLines]
  exact Eq.trans (congrArg _ (by simp [List.filterMap_cons, Option.toList]; split <;> simp_all)) houtcome

/-! ## Looking for the header -/

theorem parseSessionHeaderCandidate_eq (line : List Char) :
    parseSessionHeaderCandidate values line = (entryOf values line).map fun entry =>
        if values.isSessionHeader entry then some entry else none := by
  rw [parseSessionHeaderCandidate]
  split
  next hblank =>
    rw [entryOf, parseSessionEntryLine, if_pos hblank]
    rfl
  next => cases entryOf values line <;> [rfl; (dsimp only [Option.map]; split <;> rfl)]

variable (values) in
/-- Scanning some lines finds the first candidate, or goes on with the line at hand. -/
theorem scanLines_eq (lines : List (List Char)) (tail : List Char) (lineChunks : List (List Char)) :
    (∃ header, (prefixFirst lineChunks.flatten (lines, tail)).1.findSome?
        (parseSessionHeaderCandidate values) = some header ∧
        scanLines values lineChunks lines = .inl header) ∨
      ((prefixFirst lineChunks.flatten (lines, tail)).1.findSome? (parseSessionHeaderCandidate values) = none ∧
        ∃ next, scanLines values lineChunks lines = .inr next ∧
          (next ++ [tail]).flatten = (prefixFirst lineChunks.flatten (lines, tail)).2) := by
  induction lines generalizing lineChunks with
  | nil => exact .inr ⟨rfl, lineChunks, rfl, by simp [prefixFirst]⟩
  | cons line lines ih =>
    have hjoin : (lineChunks ++ [line]).flatten = lineChunks.flatten ++ line := by simp
    rw [scanLines, hjoin]
    cases hcandidate : parseSessionHeaderCandidate values (lineChunks.flatten ++ line) with
    | some header =>
      left
      exact ⟨header, by rw [prefixFirst, List.findSome?_cons, hcandidate], rfl⟩
    | none =>
      have hrest : (prefixFirst lineChunks.flatten (line :: lines, tail)).1.findSome?
          (parseSessionHeaderCandidate values) = lines.findSome? (parseSessionHeaderCandidate values) := by
        rw [prefixFirst, List.findSome?_cons, hcandidate]
      have hempty : prefixFirst ([] : List (List Char)).flatten (lines, tail) = (lines, tail) := by
        cases lines <;> rfl
      have hnext := ih []
      rw [hempty] at hnext
      rw [hrest]
      exact hnext

variable {lineChunks : List (List Char)}

variable (values) in
/-- The chunks of the line at hand have no newline. -/
theorem scanChunk_eq (h : '\n' ∉ lineChunks.flatten) (chunk : List Char) :
    (∃ header, (complete (lineChunks.flatten ++ chunk)).1.findSome? (parseSessionHeaderCandidate values) = some header ∧
        scanChunk values lineChunks chunk = .inl header) ∨
      ((complete (lineChunks.flatten ++ chunk)).1.findSome? (parseSessionHeaderCandidate values) = none ∧
        ∃ next, scanChunk values lineChunks chunk = .inr next ∧
          next.flatten = (complete (lineChunks.flatten ++ chunk)).2) := by
  rw [complete_append_left h, scanChunk]
  rcases scanLines_eq values (complete chunk).1 (complete chunk).2 lineChunks with
    ⟨header, hfound, hscan⟩ | ⟨hnone, next, hscan, hnext⟩
  · left
    refine ⟨header, hfound, ?_⟩
    dsimp only
    rw [hscan]
  · right
    refine ⟨hnone, next ++ [(complete chunk).2], ?_, hnext⟩
    dsimp only
    rw [hscan]

/-- What the scan makes of the text it may see: the first candidate among the complete lines, and
where there is none the rest, if the file has ended. -/
def scanOutcome (values : LineValues ε) (text : List Char) (ended : Bool) : Except ReadError (Option ε) :=
  match (complete text).1.findSome? (parseSessionHeaderCandidate values) with
  | some header => .ok header
  | none =>
    if ended then .ok (parseSessionHeaderCandidate values (complete text).2).join
    else .error .SessionHeaderScanLimitError

/-- A chunk with a candidate decides the scan, and the others leave its outcome as it is. -/
theorem scanOutcome_append (seen more : List Char) (ended : Bool) :
    scanOutcome values (seen ++ more) ended =
      match (complete seen).1.findSome? (parseSessionHeaderCandidate values) with
      | some header => .ok header
      | none => scanOutcome values ((complete seen).2 ++ more) ended := by
  rw [scanOutcome, complete_append]
  dsimp only
  rw [List.findSome?_append]
  cases (complete seen).1.findSome? (parseSessionHeaderCandidate values) <;> rfl

/-- The end of the file, with nothing left to decode. -/
theorem scanEnd_eq (h : decoder.Holds) (hchunks : '\n' ∉ lineChunks.flatten) :
    .ok (scanEnd values decoder lineChunks) = scanOutcome values (lineChunks.flatten ++ decoder.remaining []) true := by
  have hline : '\n' ∉ lineChunks.flatten ++ decoder.finalText := fun hmem =>
    (List.mem_append.mp hmem).elim hchunks (newline_not_mem_finalText h)
  rw [StringDecoder.remaining_nil, scanOutcome, complete_of_not_mem hline, scanEnd]
  simp

/-- What one read takes, and what later reads may take of `n` bytes. -/
theorem take_read (size n : Nat) (rest : List UInt8) :
    rest.take n = rest.take (min size n) ++ (rest.drop (min size n)).take (n - (rest.take (min size n)).length) := by
  by_cases hshort : rest.length ≤ min size n
  · rw [List.drop_eq_nil_of_le hshort, List.take_nil, List.append_nil, List.take_of_length_le hshort,
      List.take_of_length_le (hshort.trans (Nat.min_le_right _ _))]
  · have hlength : (rest.take (min size n)).length = min size n :=
      List.length_take_of_le (Nat.le_of_not_le hshort)
    have hsum : min size n + (n - min size n) = n := Nat.add_sub_of_le (Nat.min_le_right _ _)
    rw [hlength, ← List.take_add, hsum]

/-- **The scan** makes of the file what it makes of the text within the limit. -/
theorem scanChunks_eq {size limit : Nat} (hsize : 0 < size) {scanned : Nat}
    (h : decoder.Holds) (hchunks : '\n' ∉ lineChunks.flatten)
    (rest : List UInt8) :
    scanChunks values size limit scanned decoder lineChunks rest =
      scanOutcome values (lineChunks.flatten ++ decoder.remaining (rest.take (limit - scanned)))
        (decide (rest.length ≤ limit - scanned)) := by
  induction hn : limit - scanned using Nat.strongRecOn generalizing scanned decoder lineChunks rest with
  | ind n ih =>
    rw [scanChunks]
    split
    next hscanned =>
      subst hn
      dsimp only
      split
      next hnil =>
        have hpos : min size (limit - scanned) ≠ 0 := by omega
        obtain rfl : rest = [] := (List.take_eq_nil_iff.mp hnil).resolve_left hpos
        rw [List.take_nil, List.length_nil, decide_eq_true (Nat.zero_le _)]
        exact scanEnd_eq h hchunks
      next hdata =>
        -- the chunk and what the rest of the limit lets through
        have htake := take_read size (limit - scanned) rest
        rw [Nat.sub_sub] at htake
        have hended : decide (rest.length ≤ limit - scanned) = decide ((rest.drop (min size (limit - scanned))).length ≤
              limit - (scanned + (rest.take (min size (limit - scanned))).length)) := by
          rw [List.length_take, List.length_drop]
          apply decide_eq_decide.mpr
          omega
        obtain ⟨htext, hholds⟩ := StringDecoder.write_spec h (rest.take (min size (limit - scanned)))
          ((rest.drop (min size (limit - scanned))).take
            (limit - (scanned + (rest.take (min size (limit - scanned))).length)))
        rw [htake, hended, htext, ← List.append_assoc, scanOutcome_append]
        rcases scanChunk_eq values hchunks (decoder.write (rest.take (min size (limit - scanned)))).1 with
          ⟨header, hfound, hscan⟩ | ⟨hnone, next, hscan, hnext⟩
        · rw [hscan, hfound]
        · rw [hscan, hnone]
          dsimp only
          have hnext' : '\n' ∉ next.flatten := by
            rw [hnext]
            exact not_mem_complete _
          rw [ih _ (remaining_lt hscanned hdata) hholds hnext' _ rfl, hnext]
    next hscanned =>
      obtain rfl : n = 0 := by omega
      rw [List.take_zero]
      cases rest with
      | nil =>
        rw [if_pos List.take_nil, List.length_nil, decide_eq_true (Nat.le_refl 0)]
        exact scanEnd_eq h hchunks
      | cons b rest =>
        have hline : '\n' ∉ lineChunks.flatten ++ decoder.finalText := fun hmem =>
          (List.mem_append.mp hmem).elim hchunks (newline_not_mem_finalText h)
        rw [if_neg (by simp), StringDecoder.remaining_nil, scanOutcome, complete_of_not_mem hline]
        simp

theorem readSessionHeader_eq (content : List UInt8) :
    readSessionHeader values content = scanOutcome values (decode (content.take MAX_SESSION_HEADER_SCAN_BYTES))
        (decide (content.length ≤ MAX_SESSION_HEADER_SCAN_BYTES)) := by
  rw [readSessionHeader, scanChunks_eq (by decide) .nothing List.not_mem_nil]
  rfl

/-! ## Both readers -/

/-- What the first candidate of some lines is, by their entries. -/
theorem findSome_candidate (lines : List (List Char)) :
    lines.findSome? (parseSessionHeaderCandidate values) = (lines.filterMap (entryOf values)).head?.map fun entry =>
        if values.isSessionHeader entry then some entry else none := by
  rw [List.head?_filterMap]
  induction lines with
  | nil => rfl
  | cons line lines ih =>
    rw [List.findSome?_cons, List.findSome?_cons, parseSessionHeaderCandidate_eq, ih]
    cases entryOf values line <;> rfl

theorem head_validated (entries : List ε) :
    (validated values entries).head? = (entries.head?.map fun entry =>
      if values.isSessionHeader entry then some entry else none).join := by
  cases entries with
  | nil => rfl
  | cons entry entries =>
    rw [validated]
    split <;> simp [*]

/-- The first entry that is loaded is the first candidate of the file. -/
theorem head_loadEntriesFromFile (content : List UInt8) :
    (loadEntriesFromFile values (some content)).head? =
      ((fileLines content).findSome? (parseSessionHeaderCandidate values)).join := by
  show (validated values (readEntries values SESSION_READ_BUFFER_SIZE content)).head? = _
  rw [readEntries_eq (by decide), head_validated, findSome_candidate]
  rfl

/-- The complete lines of a beginning of the file are its first lines. -/
theorem exists_fileLines_append (taken rest : List UInt8) :
    ∃ more, fileLines (taken ++ rest) = (complete (decode taken)).1 ++ more := by
  obtain ⟨htext, hholds⟩ := StringDecoder.write_spec .nothing taken rest
  obtain ⟨htaken, -⟩ := StringDecoder.write_spec .nothing taken []
  rw [List.append_nil, StringDecoder.remaining_nil, StringDecoder.remaining_init] at htaken
  rw [StringDecoder.remaining_init] at htext
  rw [fileLines, htext, split_append_complete, htaken, complete_append_of_not_mem (newline_not_mem_finalText hholds)]
  exact ⟨_, rfl⟩

/-- The lines up to a newline, or the whole file, hold an entry within the limit. -/
def HeaderLineWithin (values : LineValues ε) (limit : Nat) (content : List UInt8) : Prop :=
  ∃ taken rest, content = taken ++ rest ∧ taken.length ≤ limit ∧ (rest = [] ∨ taken.getLast? = some 0x0A) ∧
    ∃ line ∈ fileLines taken, (entryOf values line).isSome

/-- Up to a newline a beginning of the file has complete lines only, but for an empty one. -/
theorem fileLines_newline {taken : List UInt8} (h : taken.getLast? = some 0x0A) :
    fileLines taken = (complete (decode taken)).1 ++ [[]] ∧
      ∀ rest, decode (taken ++ rest) = decode taken ++ decode rest := by
  obtain ⟨init, rfl⟩ := List.getLast?_eq_some_iff.mp h
  have hascii : isContinuation 0x0A = false := by decide
  constructor
  · rw [fileLines, split_eq_complete, decode_append_of_not_continuation init [] hascii, complete_append]
    have hrest : (complete ((complete (decode init)).2 ++ decode [0x0A])).2 = [] := by
      rw [complete_append_left (not_mem_complete _)]
      rfl
    rw [hrest]
  · apply decode_append_of_feed
    exact feed_completed hascii (fun b hb => absurd hb List.not_mem_nil) (by decide)

variable {content : List UInt8}

theorem readSessionHeader_of_length_le (h : content.length ≤ MAX_SESSION_HEADER_SCAN_BYTES) :
    readSessionHeader values content = .ok (loadEntriesFromFile values (some content)).head? := by
  rw [readSessionHeader_eq, List.take_of_length_le h, decide_eq_true h, head_loadEntriesFromFile,
    scanOutcome, fileLines, split_eq_complete, List.findSome?_append]
  cases (complete (decode content)).1.findSome? (parseSessionHeaderCandidate values) with
  | some header => rfl
  | none => simp

/-- **Within the limit** the header is the first entry that is loaded. -/
theorem readSessionHeader_of_within (h : HeaderLineWithin values MAX_SESSION_HEADER_SCAN_BYTES content) :
    readSessionHeader values content = .ok (loadEntriesFromFile values (some content)).head? := by
  by_cases hshort : content.length ≤ MAX_SESSION_HEADER_SCAN_BYTES
  · exact readSessionHeader_of_length_le hshort
  · obtain ⟨taken, rest, rfl, hlength, hends, line, hline, hentry⟩ := h
    have hnewline : taken.getLast? = some 0x0A := by
      apply hends.resolve_left
      rintro rfl
      rw [List.append_nil] at hshort
      exact hshort hlength
    obtain ⟨hlines, hdecode⟩ := fileLines_newline hnewline
    -- the line that holds an entry is one of the complete lines, since an empty one holds none
    have hmem : line ∈ (complete (decode taken)).1 := by
      rw [hlines] at hline
      apply (List.mem_append.mp hline).resolve_right
      intro hempty
      rw [List.mem_singleton.mp hempty, entryOf_nil] at hentry
      cases hentry
    obtain ⟨header, hheader⟩ : ∃ header, (complete (decode taken)).1.findSome?
        (parseSessionHeaderCandidate values) = some header := by
      rw [← Option.isSome_iff_exists, List.isSome_findSome?, List.any_eq_true]
      exact ⟨line, hmem, by rw [parseSessionHeaderCandidate_eq, Option.isSome_map, hentry]⟩
    obtain ⟨more, hmore⟩ := exists_fileLines_append taken rest
    have htake : (taken ++ rest).take MAX_SESSION_HEADER_SCAN_BYTES =
        taken ++ rest.take (MAX_SESSION_HEADER_SCAN_BYTES - taken.length) := by
      rw [List.take_append, List.take_of_length_le hlength]
    rw [readSessionHeader_eq, htake, hdecode, scanOutcome_append, hheader, head_loadEntriesFromFile,
      hmore, List.findSome?_append, hheader]
    rfl

/-- A header that is read is the first entry that is loaded. -/
theorem head_of_readSessionHeader {header : ε} (h : readSessionHeader values content = .ok (some header)) :
    (loadEntriesFromFile values (some content)).head? = some header := by
  by_cases hshort : content.length ≤ MAX_SESSION_HEADER_SCAN_BYTES
  · rw [readSessionHeader_of_length_le hshort] at h
    exact Except.ok.inj h
  · rw [readSessionHeader_eq, decide_eq_false hshort, scanOutcome] at h
    obtain ⟨more, hmore⟩ := exists_fileLines_append (content.take MAX_SESSION_HEADER_SCAN_BYTES)
      (content.drop MAX_SESSION_HEADER_SCAN_BYTES)
    rw [List.take_append_drop] at hmore
    rw [head_loadEntriesFromFile, hmore, List.findSome?_append]
    split at h
    next found hfound =>
      obtain rfl := Except.ok.inj h
      rw [hfound]
      rfl
    next => cases h

/-- **Chunked reading.** The entries that are loaded are those of the lines of the whole file, if
the first of them is a header, and none otherwise; the header that is scanned for is the first
entry that is loaded where its line lies within the limit, and a file whose first entry is no
header has none. -/
theorem session_readers (values : LineValues ε) (content : List UInt8) :
    ((∀ entry ∈ (wholeFileEntries values content).head?, values.isSessionHeader entry = true) →
        loadEntriesFromFile values (some content) = wholeFileEntries values content) ∧
      ((∃ entry ∈ (wholeFileEntries values content).head?, values.isSessionHeader entry = false) →
        loadEntriesFromFile values (some content) = [] ∧
          ∀ header, readSessionHeader values content ≠ .ok (some header)) ∧
      (HeaderLineWithin values MAX_SESSION_HEADER_SCAN_BYTES content →
        readSessionHeader values content = .ok (loadEntriesFromFile values (some content)).head?) := by
  have hload : loadEntriesFromFile values (some content) = validated values (wholeFileEntries values content) := by
    show validated values (readEntries values SESSION_READ_BUFFER_SIZE content) = _
    rw [readEntries_eq (by decide)]
  refine ⟨fun hheader => ?_, fun ⟨entry, hentry, hno⟩ => ?_, readSessionHeader_of_within⟩
  · rw [hload]
    cases hentries : wholeFileEntries values content with
    | nil => rfl
    | cons entry entries =>
      rw [hentries] at hheader
      rw [validated, if_pos (hheader entry rfl)]
  · have hnil : loadEntriesFromFile values (some content) = [] := by
      rw [hload]
      cases hentries : wholeFileEntries values content with
      | nil => rfl
      | cons first entries =>
        rw [hentries] at hentry
        obtain rfl := Option.some.inj hentry
        rw [validated, hno, if_neg Bool.false_ne_true]
    refine ⟨hnil, fun header hread => ?_⟩
    have hhead := head_of_readSessionHeader hread
    rw [hnil] at hhead
    cases hhead

/-- `{}` parses, and is no header. -/
def emptyObject : LineValues Unit where
  parse line := if line = ['{', '}'] then some () else none
  truthy _ := true
  isSessionHeader _ := false

/-- A file that does not begin with a header has entries, and none is loaded. -/
theorem loadEntriesFromFile_ne_wholeFile :
    loadEntriesFromFile emptyObject (some (encode ['{', '}', '\n'])) ≠
      wholeFileEntries emptyObject (encode ['{', '}', '\n']) := by
  have hwhole : wholeFileEntries emptyObject (encode ['{', '}', '\n']) = [()] := by decide +kernel
  have hload : loadEntriesFromFile emptyObject (some (encode ['{', '}', '\n'])) = validated emptyObject [()] := by
    show validated emptyObject (readEntries emptyObject SESSION_READ_BUFFER_SIZE _) = _
    rw [readEntries_eq (by decide), hwhole]
  rw [hload, hwhole]
  decide

end Mcpi.CodingAgent.SessionFile
