import Mcpi.CodingAgent.Migration
import Mcpi.Lib.Lines
import Mcpi.Lib.StringDecoder

/-!
# Reading a session file

The two readers of a session file: `loadEntriesFromFile` reads all entries in chunks of a
megabyte, `readSessionHeader` looks for the header in small chunks and gives up at a limit. Both
read the lines of the file decoded as a whole.
-/

namespace Mcpi.CodingAgent.SessionFile

open Utf8 Lines

/-! ## Lines -/

/-- The values that the lines hold. `parse` is `JSON.parse`, with no value where it throws;
`isSessionHeader` is `type === "session" && typeof id === "string"`. -/
structure LineValues (ε : Type) where
  parse : List Char → Option ε
  truthy : ε → Bool
  isSessionHeader : ε → Bool

variable {ε : Type} (values : LineValues ε)

/-- Blank and malformed lines are `null`. -/
def parseSessionEntryLine (line : List Char) : Option ε :=
  if SessionManager.trim line = [] then none else values.parse line

/-- `if (entry)` -/
def entryOf (line : List Char) : Option ε := (parseSessionEntryLine values line).filter values.truthy

/-- No value to keep scanning (`undefined`), `some none` for a parsed non-header entry (`null`),
or the header. -/
def parseSessionHeaderCandidate (line : List Char) : Option (Option ε) :=
  if SessionManager.trim line = [] then none
  else
    match entryOf values line with
    | none => none
    | some entry => if values.isSessionHeader entry then some (some entry) else some none

/-! ## Loading all entries -/

def SESSION_READ_BUFFER_SIZE : Nat := 1024 * 1024

/-- `pending` is what is behind the last newline. -/
structure Loading (ε : Type) where
  decoder : StringDecoder
  pending : List Char
  entries : List ε

/-- The turn of the loop for the bytes of one read. -/
def loadChunk (state : Loading ε) (data : List UInt8) : Loading ε :=
  let (text, decoder) := state.decoder.write data
  let (lines, pending) := complete (state.pending ++ text)
  ⟨decoder, pending, state.entries ++ lines.filterMap (entryOf values)⟩

theorem length_drop_lt {size : Nat} {rest : List UInt8} (h : ¬ rest.take size = []) :
    (rest.drop size).length < rest.length := by
  rw [List.take_eq_nil_iff, not_or] at h
  have hpos := List.length_pos_iff.mpr h.2
  rw [List.length_drop]
  omega

/-- Reads of at most `size` bytes, until one returns none. -/
def loadChunks (size : Nat) (state : Loading ε) (rest : List UInt8) : Loading ε :=
  let data := rest.take size
  if _h : data = [] then state
  else loadChunks size (loadChunk values state data) (rest.drop size)
termination_by rest.length
decreasing_by exact length_drop_lt _h

/-- The entries that are read, the last line without a newline too. -/
def readEntries (size : Nat) (content : List UInt8) : List ε :=
  let state := loadChunks values size ⟨StringDecoder.init, [], []⟩ content
  state.entries ++ (entryOf values (state.pending ++ state.decoder.finalText)).toList

/-- A file that does not begin with a header has no entries. -/
def validated (entries : List ε) : List ε :=
  match entries with
  | [] => []
  | header :: _ => if values.isSessionHeader header then entries else []

/-- `content` is what the file holds, if there is one. -/
def loadEntriesFromFile (content : Option (List UInt8)) : List ε :=
  match content with
  | none => []
  | some content => validated values (readEntries values SESSION_READ_BUFFER_SIZE content)

/-! ## Looking for the header -/

def SESSION_HEADER_READ_BUFFER_SIZE : Nat := 4096

def MAX_SESSION_HEADER_SCAN_BYTES : Nat := 1024 * 1024

/-- The lines that a chunk completes, the first one begun by `lineChunks`: what is returned, or
the chunks of the line at hand. -/
def scanLines (lineChunks : List (List Char)) : List (List Char) → Option ε ⊕ List (List Char)
  | [] => .inr lineChunks
  | line :: lines =>
    match parseSessionHeaderCandidate values (lineChunks ++ [line]).flatten with
    | some header => .inl header
    | none => scanLines [] lines

/-- The turn of the loop for the text of one chunk. -/
def scanChunk (lineChunks : List (List Char)) (chunk : List Char) : Option ε ⊕ List (List Char) :=
  let (lines, tail) := complete chunk
  match scanLines values lineChunks lines with
  | .inl header => .inl header
  | .inr lineChunks => .inr (lineChunks ++ [tail])

/-- `parseSessionHeaderCandidate(lineChunks.join("")) ?? null` once no byte is left. -/
def scanEnd (decoder : StringDecoder) (lineChunks : List (List Char)) : Option ε :=
  (parseSessionHeaderCandidate values (lineChunks ++ [decoder.finalText]).flatten).join

inductive ReadError where
  | SessionHeaderScanLimitError
  deriving DecidableEq

theorem remaining_lt {size limit scanned : Nat} {rest : List UInt8} (hscanned : scanned < limit)
    (h : ¬ rest.take (min size (limit - scanned)) = []) :
    limit - (scanned + (rest.take (min size (limit - scanned))).length) < limit - scanned := by
  have hpos := List.length_pos_iff.mpr h
  omega

/-- The loop over the reads, then the probe for the end of the file. -/
def scanChunks (size limit : Nat) (scanned : Nat) (decoder : StringDecoder)
    (lineChunks : List (List Char)) (rest : List UInt8) : Except ReadError (Option ε) :=
  if _hscanned : scanned < limit then
    let readLength := min size (limit - scanned)
    let data := rest.take readLength
    if _h : data = [] then .ok (scanEnd values decoder lineChunks)
    else
      let (chunk, decoder) := decoder.write data
      match scanChunk values lineChunks chunk with
      | .inl header => .ok header
      | .inr lineChunks =>
        scanChunks size limit (scanned + data.length) decoder lineChunks (rest.drop readLength)
  else if rest.take 1 = [] then .ok (scanEnd values decoder lineChunks)
  else .error .SessionHeaderScanLimitError
termination_by limit - scanned
decreasing_by exact remaining_lt _hscanned _h

/-- No value is `null`. -/
def readSessionHeader (content : List UInt8) : Except ReadError (Option ε) :=
  scanChunks values SESSION_HEADER_READ_BUFFER_SIZE MAX_SESSION_HEADER_SCAN_BYTES 0 StringDecoder.init [] content

/-! ## The whole file -/

/-- The file decoded as a whole and split at its newlines. -/
def fileLines (content : List UInt8) : List (List Char) := List.splitOn '\n' (decode content)

/-- The entries that the lines of the whole file hold. -/
def wholeFileEntries (content : List UInt8) : List ε := (fileLines content).filterMap (entryOf values)

end Mcpi.CodingAgent.SessionFile
