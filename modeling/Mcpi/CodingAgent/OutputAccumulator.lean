import Mcpi.Lib.TextDecoder
import Mcpi.CodingAgent.Truncate

/-!
# The output accumulator

Streaming output with bounded memory: the accumulator counts the whole output, keeps a rolling tail
of it for what is shown, and writes the raw bytes to a file once the output is over a limit.
-/

namespace Mcpi.CodingAgent

open Utf8 (byteLength)

/-- `tempFile` is what has been written to the file, once it is open. -/
structure OutputAccumulator where
  limits : Limits
  maxRollingBytes : Nat
  decoder : Utf8.TextDecoder
  rawChunks : List (List UInt8)
  tailText : List Char
  tailBytes : Nat
  tailStartsAtLineBoundary : Bool
  totalRawBytes : Nat
  totalDecodedBytes : Nat
  completedLines : Nat
  totalLines : Nat
  currentLineBytes : Nat
  hasOpenLine : Bool
  finished : Bool
  tempFile : Option (List UInt8)

structure OutputSnapshot where
  content : List Char
  truncation : TruncationResult

namespace OutputAccumulator

/-- The constructor, with the options `maxLines` and `maxBytes`. -/
def create (maxLines maxBytes : Option Nat) : OutputAccumulator :=
  let limits := Limits.ofOptions maxLines maxBytes
  { limits
    maxRollingBytes := max (limits.maxBytes * 2) 1
    decoder := .init
    rawChunks := []
    tailText := []
    tailBytes := 0
    tailStartsAtLineBoundary := true
    totalRawBytes := 0
    totalDecodedBytes := 0
    completedLines := 0
    totalLines := 0
    currentLineBytes := 0
    hasOpenLine := false
    finished := false
    tempFile := none }

def trimTail (acc : OutputAccumulator) : OutputAccumulator :=
  let buffer := Utf8.encode acc.tailText
  if buffer.length ≤ acc.maxRollingBytes then { acc with tailBytes := buffer.length }
  else
    let start := Utf8.boundaryFrom buffer (buffer.length - acc.maxRollingBytes)
    let tailText := Utf8.decode (buffer.drop start)
    { acc with
      tailStartsAtLineBoundary :=
        if start = 0 then acc.tailStartsAtLineBoundary else buffer[start - 1]? = some 0x0A
      tailText
      tailBytes := byteLength tailText }

/-- `text.slice(text.lastIndexOf("\n") + 1)` -/
def afterLastNewline (text : List Char) : List Char := (List.splitOn '\n' text).getLast?.getD []

/-- The part of `appendDecodedText` that counts lines. -/
def countLines (acc : OutputAccumulator) (text : List Char) : OutputAccumulator :=
  let newlines := text.count '\n'
  let acc :=
    if newlines = 0 then
      { acc with currentLineBytes := acc.currentLineBytes + byteLength text, hasOpenLine := true }
    else
      let tail := afterLastNewline text
      { acc with
        completedLines := acc.completedLines + newlines
        currentLineBytes := byteLength tail
        hasOpenLine := !tail.isEmpty }
  { acc with totalLines := acc.completedLines + (if acc.hasOpenLine then 1 else 0) }

/-- The part of `appendDecodedText` that keeps the tail. -/
def extendTail (acc : OutputAccumulator) (text : List Char) : OutputAccumulator :=
  let bytes := byteLength text
  let acc :=
    { acc with
      totalDecodedBytes := acc.totalDecodedBytes + bytes
      tailText := acc.tailText ++ text
      tailBytes := acc.tailBytes + bytes }
  if acc.tailBytes > acc.maxRollingBytes * 2 then acc.trimTail else acc

def appendDecodedText (acc : OutputAccumulator) (text : List Char) : OutputAccumulator :=
  if text = [] then acc else (acc.extendTail text).countLines text

def shouldUseTempFile (acc : OutputAccumulator) : Bool :=
  acc.totalRawBytes > acc.limits.maxBytes || acc.totalDecodedBytes > acc.limits.maxBytes ||
    acc.totalLines > acc.limits.maxLines

def ensureTempFile (acc : OutputAccumulator) : OutputAccumulator :=
  match acc.tempFile with
  | some _ => acc
  | none => { acc with tempFile := some acc.rawChunks.flatten, rawChunks := [] }

/-- What `append` does with the raw bytes. -/
def keepRaw (acc : OutputAccumulator) (data : List UInt8) : OutputAccumulator :=
  if acc.tempFile.isSome || acc.shouldUseTempFile then
    let acc := acc.ensureTempFile
    { acc with tempFile := acc.tempFile.map (· ++ data) }
  else if data.length > 0 then { acc with rawChunks := acc.rawChunks ++ [data] }
  else acc

def append (acc : OutputAccumulator) (data : List UInt8) : Except String OutputAccumulator :=
  if acc.finished then .error "Cannot append to a finished output accumulator"
  else
    let (text, decoder) := acc.decoder.decodeStream data
    let acc := { acc with totalRawBytes := acc.totalRawBytes + data.length, decoder }
    .ok ((acc.appendDecodedText text).keepRaw data)

def finish (acc : OutputAccumulator) : OutputAccumulator :=
  if acc.finished then acc
  else
    let acc := { acc with finished := true }.appendDecodedText acc.decoder.decodeEnd
    if acc.shouldUseTempFile then acc.ensureTempFile else acc

def getSnapshotText (acc : OutputAccumulator) : List Char :=
  if acc.tailStartsAtLineBoundary then acc.tailText
  else if '\n' ∈ acc.tailText then (acc.tailText.dropWhile (· ≠ '\n')).drop 1
  else acc.tailText

def truncation (acc : OutputAccumulator) : TruncationResult :=
  let tailTruncation := truncateTail acc.getSnapshotText acc.limits
  let truncated := acc.totalLines > acc.limits.maxLines || acc.totalDecodedBytes > acc.limits.maxBytes
  { tailTruncation with
    truncated
    truncatedBy :=
      if truncated then
        some (tailTruncation.truncatedBy.getD (if acc.totalDecodedBytes > acc.limits.maxBytes then .bytes else .lines))
      else none
    totalLines := acc.totalLines
    totalBytes := acc.totalDecodedBytes
    maxLines := acc.limits.maxLines
    maxBytes := acc.limits.maxBytes }

/-- `snapshot({ persistIfTruncated })`: what is shown, and the accumulator after it. -/
def snapshot (acc : OutputAccumulator) (persistIfTruncated : Bool) : OutputSnapshot × OutputAccumulator :=
  let truncation := acc.truncation
  (⟨truncation.content, truncation⟩,
    if persistIfTruncated && truncation.truncated then acc.ensureTempFile else acc)

/-- What is done with an accumulator before it is finished. -/
inductive Operation where
  | append (data : List UInt8)
  | snapshot (persistIfTruncated : Bool)

def perform (acc : OutputAccumulator) : List Operation → Except String OutputAccumulator
  | [] => .ok acc
  | .append data :: rest => do
      let acc ← acc.append data
      perform acc rest
  | .snapshot persistIfTruncated :: rest => perform (acc.snapshot persistIfTruncated).2 rest

/-- The chunks that have been appended. -/
def chunksOf : List Operation → List (List UInt8)
  | [] => []
  | .append data :: rest => data :: chunksOf rest
  | .snapshot _ :: rest => chunksOf rest

end OutputAccumulator

end Mcpi.CodingAgent
