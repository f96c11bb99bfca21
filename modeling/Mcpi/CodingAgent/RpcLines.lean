import Mcpi.CodingAgent.SessionReaders
import Mcpi.Lib.Json.Integer
import Mcpi.Lib.Json.RoundTrip

/-!
# The lines of the RPC mode

`modes/rpc/jsonl.ts`: a message is the JSON text of a value and a newline. The reader takes the stream
in chunks that are cut anywhere, and breaks lines at newlines only.
-/

namespace Mcpi.CodingAgent.Rpc

open Utf8 Lines

variable {ν : Type} [JsonNumber ν]

def serializeJsonLine (value : Json ν) : List Char := Json.stringify value ++ ['\n']

inductive Chunk where
  | text (chunk : List Char)
  | bytes (chunk : List UInt8)

/-- `emitted` is what `onLine` has been called with. -/
structure LineReader where
  decoder : StringDecoder
  buffer : List Char
  emitted : List (List Char)

/-- `line.endsWith("\r") ? line.slice(0, -1) : line` -/
def emitLine (line : List Char) : List Char := if line.getLast? = some '\r' then line.dropLast else line

/-- `typeof chunk === "string" ? chunk : decoder.write(chunk)` -/
def Chunk.decoded (decoder : StringDecoder) : Chunk → List Char × StringDecoder
  | .text chunk => (chunk, decoder)
  | .bytes chunk => decoder.write chunk

def LineReader.onData (reader : LineReader) (chunk : Chunk) : LineReader :=
  let (text, decoder) := chunk.decoded reader.decoder
  let (lines, buffer) := complete (reader.buffer ++ text)
  ⟨decoder, buffer, reader.emitted ++ lines.map emitLine⟩

def LineReader.onEnd (reader : LineReader) : LineReader :=
  let buffer := reader.buffer ++ reader.decoder.finalText
  if buffer = [] then ⟨StringDecoder.init, [], reader.emitted⟩
  else ⟨StringDecoder.init, [], reader.emitted ++ [emitLine buffer]⟩

/-- The lines of a stream that ends after some chunks. -/
def attachJsonlLineReader (chunks : List Chunk) : List (List Char) :=
  (chunks.foldl LineReader.onData ⟨StringDecoder.init, [], []⟩).onEnd.emitted

/-- The lines of a text. What is behind its last newline is one, unless it is empty. -/
def textLines (text : List Char) : List (List Char) :=
  ((complete text).1 ++ if (complete text).2 = [] then [] else [(complete text).2]).map emitLine

variable {reader : LineReader}

theorem emitted_onEnd (h : reader.decoder.Holds) (hbuffer : '\n' ∉ reader.buffer) :
    reader.onEnd.emitted = reader.emitted ++ textLines (reader.buffer ++ reader.decoder.finalText) := by
  have hlast : '\n' ∉ reader.buffer ++ reader.decoder.finalText := fun hmem =>
    (List.mem_append.mp hmem).elim hbuffer (SessionFile.newline_not_mem_finalText h)
  rw [LineReader.onEnd, textLines, complete_of_not_mem hlast]
  split
  · exact (List.append_nil _).symm
  · rfl

theorem textLines_append (a b : List Char) :
    textLines (a ++ b) = (complete a).1.map emitLine ++ textLines ((complete a).2 ++ b) := by
  rw [textLines, textLines, complete_append, ← List.map_append, List.append_assoc]

/-- The lines so far and those of the bytes to come. -/
theorem emitted_chunks (chunks : List (List UInt8)) (h : reader.decoder.Holds) (hbuffer : '\n' ∉ reader.buffer) :
    ((chunks.map Chunk.bytes).foldl LineReader.onData reader).onEnd.emitted =
      reader.emitted ++ textLines (reader.buffer ++ reader.decoder.remaining chunks.flatten) := by
  induction chunks generalizing reader with
  | nil =>
    rw [List.flatten_nil, StringDecoder.remaining_nil]
    exact emitted_onEnd h hbuffer
  | cons chunk chunks ih =>
    obtain ⟨htext, hholds⟩ := StringDecoder.write_spec h chunk chunks.flatten
    rw [List.flatten_cons, htext, ← List.append_assoc, textLines_append, ← List.append_assoc]
    exact ih hholds (not_mem_complete _)

/-- **The lines are those of all bytes at once.** -/
theorem attachJsonlLineReader_eq (chunks : List (List UInt8)) :
    attachJsonlLineReader (chunks.map .bytes) = textLines (decode chunks.flatten) :=
  (emitted_chunks chunks .nothing List.not_mem_nil).trans (List.nil_append _)

theorem emitLine_stringify (value : Json ν) : emitLine (Json.stringify value) = Json.stringify value := by
  refine if_neg fun h => Json.lineBreak_not_mem_stringify (.inr rfl) value ?_
  exact List.mem_of_getLast? h

theorem textLines_serializeJsonLine (value : Json ν) (text : List Char) :
    textLines (serializeJsonLine value ++ text) = Json.stringify value :: textLines text := by
  rw [serializeJsonLine, List.append_assoc, List.singleton_append, textLines,
    complete_append_left (Json.newline_not_mem_stringify value), complete, if_pos rfl]
  show emitLine (Json.stringify value ++ []) :: _ = _
  rw [List.append_nil, emitLine_stringify]
  rfl

/-- **Messages are read back**, however the bytes are cut. -/
theorem messages_read_back (values : List (Json ν)) (chunks : List (List UInt8))
    (h : chunks.flatten = encode (values.flatMap serializeJsonLine)) :
    (attachJsonlLineReader (chunks.map .bytes)).map Json.parse = values.map some := by
  have hlines : attachJsonlLineReader (chunks.map .bytes) = textLines (decode chunks.flatten) :=
    (emitted_chunks chunks .nothing List.not_mem_nil).trans (List.nil_append _)
  rw [hlines, h, decode_encode]
  clear hlines h
  induction values with
  | nil => rfl
  | cons value values ih =>
    rw [List.flatMap_cons, textLines_serializeJsonLine, List.map_cons, Json.parse_stringify, ih, List.map_cons]

/-- Two messages, cut inside a character and inside a name. -/
theorem messages_read_back_two :
    (attachJsonlLineReader ([[34, 195], [169, 34, 10, 110, 117], [108, 108, 10]].map .bytes)).map (Json.parse (ν := Int)) =
      [some (.str "é"), some .null] :=
  messages_read_back [.str "é", .null] [[34, 195], [169, 34, 10, 110, 117], [108, 108, 10]] (by decide)

end Mcpi.CodingAgent.Rpc
