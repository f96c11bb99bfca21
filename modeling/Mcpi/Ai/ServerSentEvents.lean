import Mcpi.Ai.TransformMessages
import Mcpi.Lib.Blocks
import Mcpi.Lib.DecodedChunks
import Mcpi.Lib.Json.Text
import Mcpi.Lib.Separated

/-!
# Reading server-sent events

The three readers of an HTTP body: `iterateSseMessages` of `anthropic-messages.ts`, `readPiMessagesEvents` of
`pi-messages.ts` and `parseSSE` of `openai-codex-responses.ts`. The body comes in chunks of bytes, which the decoder
turns into texts; nobody aborts.
-/

namespace Mcpi.Ai

variable {ν : Type} [JsonNumber ν]

/-! ## `iterateSseMessages` -/

structure ServerSentEvent where
  event : Option (List Char)
  data : List Char
  raw : List (List Char)
  deriving DecidableEq

structure SseDecoderState where
  event : Option (List Char)
  data : List (List Char)
  raw : List (List Char)
  deriving DecidableEq

def SseDecoderState.initial : SseDecoderState := ⟨none, [], []⟩

/-- The event that a blank line ends; an empty name counts as none. -/
def flushSseEvent (state : SseDecoderState) : Option ServerSentEvent × SseDecoderState :=
  if (state.event = none ∨ state.event = some []) ∧ state.data.length = 0 then (none, state)
  else (some ⟨state.event, List.intercalate ['\n'] state.data, state.raw⟩, .initial)

def decodeSseLine (line : List Char) (state : SseDecoderState) : Option ServerSentEvent × SseDecoderState :=
  if line = [] then flushSseEvent state
  else
    let state := { state with raw := state.raw ++ [line] }
    if [':'] <+: line then (none, state)
    else
      let delimiterIndex := Search.indexOf [':'] line
      let fieldName := match delimiterIndex with
        | none => line
        | some i => line.take i
      let value := match delimiterIndex with
        | none => []
        | some i => line.drop (i + 1)
      let value := if [' '] <+: value then value.drop 1 else value
      if fieldName = "event".toList then (none, { state with event := some value })
      else if fieldName = "data".toList then (none, { state with data := state.data ++ [value] })
      else (none, state)

def nextLineBreakIndex (text : List Char) : Option Nat :=
  match Search.indexOf ['\r'] text, Search.indexOf ['\n'] text with
  | none, newlineIndex => newlineIndex
  | carriageReturnIndex, none => carriageReturnIndex
  | some carriageReturnIndex, some newlineIndex => some (min carriageReturnIndex newlineIndex)

/-- The first line of a text and what comes after its line break. -/
def consumeLine (text : List Char) : Option (List Char × List Char) :=
  match nextLineBreakIndex text with
  | none => none
  | some lineBreakIndex =>
    let nextIndex := lineBreakIndex + 1
    let nextIndex := if text[lineBreakIndex]? = some '\r' ∧ text[nextIndex]? = some '\n' then nextIndex + 1
      else nextIndex
    some (text.take lineBreakIndex, text.drop nextIndex)

theorem nextLineBreakIndex_lt {text : List Char} {i : Nat} (h : nextLineBreakIndex text = some i) :
    i < text.length := by
  have hindex : ∀ {c : Char} {i : Nat}, Search.indexOf [c] text = some i → i < text.length :=
    fun h => Search.indexOf_lt (List.cons_ne_nil _ _) h
  rw [nextLineBreakIndex] at h
  split at h
  · exact hindex h
  · exact hindex (by assumption)
  next hcr hlf =>
    cases h
    exact Nat.lt_of_le_of_lt (Nat.min_le_left _ _) (hindex hcr)

theorem consumeLine_length {text line rest : List Char} (h : consumeLine text = some (line, rest)) :
    rest.length < text.length := by
  rw [consumeLine] at h
  split at h
  · cases h
  next i hindex =>
    have hlt := nextLineBreakIndex_lt hindex
    obtain ⟨-, rfl⟩ := Prod.mk.inj (Option.some.inj h)
    rw [List.length_drop]
    split <;> omega

/-- The loop `while (consumed)`: the events of the lines in the buffer, what is left of it, and the state. -/
def consumeLines (buffer : List Char) (state : SseDecoderState) : List ServerSentEvent × List Char × SseDecoderState :=
  match _h : consumeLine buffer with
  | none => ([], buffer, state)
  | some (line, rest) =>
    let (event, state) := decodeSseLine line state
    let (events, buffer, state) := consumeLines rest state
    (event.toList ++ events, buffer, state)
termination_by buffer.length
decreasing_by exact consumeLine_length (by assumption)

/-- The loop over the texts, and what comes after it; `last` is what the decoder gives at the end. -/
def iterateSseTexts (buffer : List Char) (state : SseDecoderState) (last : List Char) :
    List (List Char) → List ServerSentEvent
  | [] =>
    let (events, buffer, state) := consumeLines (buffer ++ last) state
    let (event, state) := if buffer.length > 0 then decodeSseLine buffer state else (none, state)
    events ++ event.toList ++ (flushSseEvent state).1.toList
  | text :: texts =>
    let (events, buffer, state) := consumeLines (buffer ++ text) state
    events ++ iterateSseTexts buffer state last texts

def iterateSseMessages (body : List (List UInt8)) : List ServerSentEvent :=
  let (texts, last) := Utf8.TextDecoder.init.decodeChunks body
  iterateSseTexts [] .initial last texts

/-! ## Generators that may throw -/

inductive ReadError
  /-- What `JSON.parse` throws. -/
  | syntaxError (text : List Char)
  | codexProtocolError (payload : List Char)
  deriving DecidableEq

/-- What a generator has yielded, and what it has thrown. -/
structure Generated (α : Type) where
  values : List α
  thrown : Option ReadError
  deriving DecidableEq

/-- What comes after a part of a generator that may throw. -/
def Generated.andThen {α : Type} (first rest : Generated α) : Generated α :=
  match first.thrown with
  | some _ => first
  | none => ⟨first.values ++ rest.values, rest.thrown⟩

/-- Each block is parsed, and what is in it yielded. -/
def yieldEach {α : Type} (parse : List Char → Except ReadError (Option α)) : List (List Char) → Generated α
  | [] => ⟨[], none⟩
  | block :: blocks =>
    match parse block with
    | .error error => ⟨[], some error⟩
    | .ok value => (⟨value.toList, none⟩ : Generated α).andThen (yieldEach parse blocks)

/-- `JSON.parse(data)` -/
def parseData (data : List Char) (error : ReadError) : Except ReadError (Option (Json ν)) :=
  match Json.parse data with
  | some value => .ok (some value)
  | none => .error error

def trim (text : List Char) : List Char := ((text.dropWhile isSpace).reverse.dropWhile isSpace).reverse

def startsWithData (line : List Char) : Bool := "data:".toList <+: line

def blankLine : List Char := ['\n', '\n']

/-! ## `readPiMessagesEvents` -/

/-- `replace(/\r\n/g, "\n")` -/
def replaceCrLf : List Char → List Char
  | [] => []
  | '\r' :: '\n' :: text => '\n' :: replaceCrLf text
  | c :: text => c :: replaceCrLf text

/-- Whether a value counts as true. -/
def isTruthy : Json ν → Bool
  | .null => false
  | .bool b => b
  | .num n => JsonNumber.safeNat? n ≠ some ⟨0, Nat.zero_le _⟩
  | .str s => s ≠ ""
  | .arr _ | .obj _ => true

def parsePiMessagesEvent (raw : List Char) : Except ReadError (Option (Json ν)) :=
  match (List.splitOn '\n' raw).find? startsWithData with
  | none => .ok none
  | some line =>
    let data := trim (line.drop 5)
    if data ≠ [] ∧ data ≠ "[DONE]".toList then parseData data (.syntaxError data) else .ok none

/-- `if (event) yield event` -/
def parseTruthy (raw : List Char) : Except ReadError (Option (Json ν)) :=
  match parsePiMessagesEvent raw with
  | .error error => .error error
  | .ok event => .ok (event.filter isTruthy)

def readPiTexts (buffer last : List Char) : List (List Char) → Generated (Json ν)
  | [] =>
    let (blocks, buffer) := Search.blocks blankLine (replaceCrLf (buffer ++ last))
    (yieldEach parseTruthy blocks).andThen (if trim buffer ≠ [] then yieldEach parseTruthy [buffer] else ⟨[], none⟩)
  | text :: texts =>
    let (blocks, buffer) := Search.blocks blankLine (replaceCrLf (buffer ++ text))
    (yieldEach parseTruthy blocks).andThen (readPiTexts buffer last texts)

def readPiMessagesEvents (stream : List (List UInt8)) : Generated (Json ν) :=
  let (texts, last) := Utf8.TextDecoder.init.decodeChunks stream
  readPiTexts [] last texts

/-! ## `parseSSE` -/

def parseCodexChunk (chunk : List Char) : Except ReadError (Option (Json ν)) :=
  let dataLines := ((List.splitOn '\n' chunk).filter startsWithData).map fun line => trim (line.drop 5)
  if dataLines.length > 0 then
    let data := trim (List.intercalate ['\n'] dataLines)
    if data ≠ [] ∧ data ≠ "[DONE]".toList then parseData data (.codexProtocolError data) else .ok none
  else .ok none

/-- What is left of the buffer in the end is not looked at. -/
def parseSSETexts (buffer : List Char) : List (List Char) → Generated (Json ν)
  | [] => ⟨[], none⟩
  | text :: texts =>
    let (chunks, buffer) := Search.blocks blankLine (buffer ++ text)
    (yieldEach parseCodexChunk chunks).andThen (parseSSETexts buffer texts)

def parseSSE (body : List (List UInt8)) : Generated (Json ν) :=
  parseSSETexts [] (Utf8.TextDecoder.init.decodeChunks body).1

end Mcpi.Ai
