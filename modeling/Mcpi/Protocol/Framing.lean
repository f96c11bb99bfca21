import Mcpi.Protocol.Cbor.Encoder

/-!
# Frames

`framing.ts`. A frame is a payload behind its length. The decoder is pushed chunks of bytes and
returns the payloads that became complete; between pushes it keeps a part of a header or of a
payload, the latter in blocks. Its loops are given one turn for each byte of the chunk: every
turn reads one at least.
-/

namespace Mcpi.Protocol

open Cbor (MAX_UINT32)

/-! ## Encoding -/

/-- `FRAME_HEADER_LENGTH` -/
def FRAME_HEADER_LENGTH : Nat := 4

/-- `PAYLOAD_BLOCK_SIZE` -/
def PAYLOAD_BLOCK_SIZE : Nat := 64 * 1024

/-- `DEFAULT_MAX_FRAME_LENGTH` -/
def DEFAULT_MAX_FRAME_LENGTH : Int := 16 * 1024 * 1024

/-- What framing throws: a `RangeError` or a `FrameError`. -/
inductive FrameFailure where
  | range (message : String)
  | frame (message : String)
  deriving DecidableEq

/-- The message of the error. -/
def FrameFailure.message : FrameFailure → String
  | .range message | .frame message => message

/-- `FrameDecoderOptions` -/
structure FrameDecoderOptions where
  maxFrameLength : Option Int := none
  deriving DecidableEq

/-- A limit for the length of a payload. -/
abbrev MaxFrameLength := { n : Nat // n ≤ MAX_UINT32 }

/-- `resolveMaxFrameLength` -/
def resolveMaxFrameLength (options : FrameDecoderOptions) : Except FrameFailure MaxFrameLength :=
  let value := options.maxFrameLength.getD DEFAULT_MAX_FRAME_LENGTH
  if h : 0 ≤ value ∧ value ≤ MAX_UINT32 then .ok ⟨value.toNat, by omega⟩
  else .error (.range ("maxFrameLength must be an integer between 0 and " ++ toString MAX_UINT32))

/-- The length of a payload and the payload. -/
def frame (payload : List UInt8) : List UInt8 :=
  BigEndian.encode FRAME_HEADER_LENGTH payload.length ++ payload

/-- `encodeFrame` -/
def encodeFrame (payload : List UInt8) : Except FrameFailure (List UInt8) :=
  if payload.length > MAX_UINT32 then
    .error (.range "Frame payload exceeds the unsigned 32-bit length limit")
  else .ok (frame payload)

/-- The message about a frame that is too long. -/
def tooLong (length maxFrameLength : Nat) : FrameFailure :=
  .frame ("Frame length " ++ toString length ++ " exceeds configured limit of " ++
    toString maxFrameLength)

/-- `assertCompleteFrame` -/
def assertCompleteFrame (frame : List UInt8) (options : FrameDecoderOptions) :
    Except FrameFailure Unit := do
  if frame.length < FRAME_HEADER_LENGTH then
    throw (.frame "Frame does not contain a complete length prefix")
  let length := BigEndian.decode (frame.take FRAME_HEADER_LENGTH)
  let maxFrameLength ← resolveMaxFrameLength options
  if length > maxFrameLength then throw (tooLong length maxFrameLength)
  if frame.length ≠ FRAME_HEADER_LENGTH + length then
    throw (.frame "Frame must contain exactly one complete payload")

/-! ## `FrameDecoder` -/

/-- `DecoderState` -/
inductive DecoderState where
  | opened
  | ended
  | failed
  deriving DecidableEq

/-- A block of a payload and the part of it that is written. -/
structure PayloadBlock where
  byteLength : Nat
  bytes : List UInt8
  deriving DecidableEq

/-- What is there of a payload: the blocks before the current one, and that one. -/
structure Payload where
  payloadBlocks : List (List UInt8) := []
  currentPayloadBlock : Option PayloadBlock := none
  payloadLength : Nat := 0
  deriving DecidableEq

/-- The blocks in one. -/
def Payload.bytes (payload : Payload) : List UInt8 :=
  payload.payloadBlocks.flatten ++ (payload.currentPayloadBlock.elim [] PayloadBlock.bytes)

/-- The block that the next bytes go to, and the blocks before it: a new one if there is none, or
the current one is full. -/
def Payload.nextBlock (payload : Payload) (expectedPayloadLength : Nat) : List (List UInt8) × PayloadBlock :=
  let block : PayloadBlock :=
    { byteLength := min PAYLOAD_BLOCK_SIZE (expectedPayloadLength - payload.payloadLength)
      bytes := [] }
  match payload.currentPayloadBlock with
  | none => (payload.payloadBlocks, block)
  | some current =>
    if current.bytes.length = current.byteLength then
      (payload.payloadBlocks ++ [current.bytes], block)
    else (payload.payloadBlocks, current)

/-- The inner loop of `push`, which returns the rest of the chunk too. -/
def Payload.read (expectedPayloadLength : Nat) : Nat → Payload → List UInt8 → Payload × List UInt8
  | 0, payload, chunk => (payload, chunk)
  | turns + 1, payload, chunk =>
    if chunk ≠ [] ∧ payload.payloadLength < expectedPayloadLength then
      let (payloadBlocks, block) := payload.nextBlock expectedPayloadLength
      let payloadBytes := min (block.byteLength - block.bytes.length) chunk.length
      Payload.read expectedPayloadLength turns
        { payloadBlocks
          currentPayloadBlock := some { block with bytes := block.bytes ++ chunk.take payloadBytes }
          payloadLength := payload.payloadLength + payloadBytes }
        (chunk.drop payloadBytes)
    else (payload, chunk)

/-- `FrameDecoder` -/
structure FrameDecoder where
  maxFrameLength : MaxFrameLength
  header : List UInt8 := []
  payload : Payload := {}
  expectedPayloadLength : Option Nat := none
  state : DecoderState := .opened
  deriving DecidableEq

namespace FrameDecoder

/-- The constructor. -/
def new (options : FrameDecoderOptions) : Except FrameFailure FrameDecoder := do
  let maxFrameLength ← resolveMaxFrameLength options
  return { maxFrameLength }

/-- `fail`, the exception apart. -/
def fail (decoder : FrameDecoder) : FrameDecoder :=
  { maxFrameLength := decoder.maxFrameLength, state := .failed }

/-- The second half of a turn: read the payload, and return it if it is complete. -/
def readPayload (decoder : FrameDecoder) (expectedPayloadLength : Nat) (chunk : List UInt8) :
    FrameDecoder × List (List UInt8) × List UInt8 :=
  let (payload, chunk) :=
    Payload.read expectedPayloadLength chunk.length decoder.payload chunk
  if payload.payloadLength = expectedPayloadLength then
    ({ decoder with payload := {}, expectedPayloadLength := none }, [payload.bytes], chunk)
  else ({ decoder with payload }, [], chunk)

/-- One turn of the outer loop of `push`: the payloads it completes, and the rest of the chunk. -/
def readTurn (decoder : FrameDecoder) (chunk : List UInt8) :
    Except FrameFailure (FrameDecoder × List (List UInt8) × List UInt8) :=
  match decoder.expectedPayloadLength with
  | some expectedPayloadLength => .ok (decoder.readPayload expectedPayloadLength chunk)
  | none =>
    let headerBytes := min (FRAME_HEADER_LENGTH - decoder.header.length) chunk.length
    let header := decoder.header ++ chunk.take headerBytes
    let chunk := chunk.drop headerBytes
    if header.length < FRAME_HEADER_LENGTH then .ok ({ decoder with header }, [], chunk)
    else
      let frameLength := BigEndian.decode header
      if frameLength > decoder.maxFrameLength then
        .error (tooLong frameLength decoder.maxFrameLength)
      else if frameLength = 0 then .ok ({ decoder with header := [] }, [[]], chunk)
      else
        .ok (readPayload { decoder with
          header := [], payload := {}, expectedPayloadLength := some frameLength }
          frameLength chunk)

/-- The outer loop of `push`. -/
def readFrames : Nat → FrameDecoder → List UInt8 → List (List UInt8) →
    Except FrameFailure (List (List UInt8)) × FrameDecoder
  | 0, decoder, _, frames => (.ok frames, decoder)
  | turns + 1, decoder, chunk, frames =>
    if chunk = [] then (.ok frames, decoder)
    else
      match decoder.readTurn chunk with
      | .error e => (.error e, decoder.fail)
      | .ok (decoder, complete, chunk) => readFrames turns decoder chunk (frames ++ complete)

/-- `push` -/
def push (decoder : FrameDecoder) (chunk : List UInt8) : Except FrameFailure (List (List UInt8)) × FrameDecoder :=
  match decoder.state with
  | .ended => (.error (.frame "Frame decoder has ended"), decoder)
  | .failed => (.error (.frame "Frame decoder has failed"), decoder)
  | .opened => readFrames chunk.length decoder chunk []

/-- `end` -/
def finish (decoder : FrameDecoder) : Except FrameFailure Unit × FrameDecoder :=
  match decoder.state with
  | .ended => (.error (.frame "Frame decoder has ended"), decoder)
  | .failed => (.error (.frame "Frame decoder has failed"), decoder)
  | .opened =>
    if decoder.header.length ≠ 0 ∨ decoder.expectedPayloadLength.isSome then
      (.error (.frame "Truncated frame at end of stream"), decoder.fail)
    else (.ok (), { decoder with state := .ended })

end FrameDecoder

end Mcpi.Protocol
