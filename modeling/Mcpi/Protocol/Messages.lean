import Mcpi.Protocol.Cbor.RoundTrip
import Mcpi.Protocol.FrameStream

/-!
# Messages

`codec.ts`. A message is checked against its schema, encoded and framed; the decoder of a
stream goes the other way. `check` stands for `Check` of the schema library with the schema of
the messages of a kind. Arrays have no holes here.
-/

namespace Mcpi.Protocol

open Cbor (MAX_UINT32 encodeCbor decodeCbor)

/-- The two kinds of messages. -/
inductive MessageKind where
  | client
  | server
  deriving DecidableEq

/-- The kind in a message of an error. -/
def MessageKind.text : MessageKind → String
  | .client => "client"
  | .server => "server"

/-- `ProtocolValidationError` -/
structure ProtocolValidationError where
  message : String
  deriving DecidableEq

mutual
/-- `isProtocolValue` -/
def isProtocolValue (value : Value) (optionalProperty : Bool) : Bool :=
  match value with
  | .undefined => optionalProperty
  | .null | .bool _ | .number _ | .string _ => true
  | .bytes _ | .other _ => false
  | .array items => areProtocolValues items
  | .object prototype entries => prototype = .object && areProtocolProperties entries

/-- The same of every item. -/
def areProtocolValues : List Value → Bool
  | [] => true
  | item :: items => isProtocolValue item false && areProtocolValues items

/-- The same of every property. -/
def areProtocolProperties : List (JsString × Value) → Bool
  | [] => true
  | (_, value) :: entries => isProtocolValue value true && areProtocolProperties entries
end

/-- `parseClientMessage` and `parseServerMessage` -/
def parseMessage (check : MessageKind → Value → Bool) (kind : MessageKind) (value : Value) :
    Except ProtocolValidationError Value :=
  if !isProtocolValue value false || !check kind value then
    .error ⟨"Invalid " ++ kind.text ++ " protocol message"⟩
  else .ok value

/-- `boundedErrorMessage` -/
def boundedErrorMessage (message : String) : String :=
  if message.length ≤ 500 then message else (message.take 497).toString ++ "..."

/-- The frame of a message that was validated. -/
def encodeValidated (validated : Value) (options : FrameDecoderOptions) :
    Except String (List UInt8) := do
  let maxFrameLength := options.maxFrameLength.getD DEFAULT_MAX_FRAME_LENGTH
  let payload ← (encodeCbor validated { maxByteLength := some maxFrameLength }).mapError (·.message)
  let frame ← (encodeFrame payload).mapError (·.message)
  (assertCompleteFrame frame { maxFrameLength := some maxFrameLength }).mapError (·.message)
  return frame

/-- `encodeClientMessage` and `encodeServerMessage` -/
def encodeMessage (check : MessageKind → Value → Bool) (kind : MessageKind) (value : Value)
    (options : FrameDecoderOptions) : Except ProtocolValidationError (List UInt8) := do
  let validated ← parseMessage check kind value
  (encodeValidated validated options).mapError fun message =>
    ⟨"Unable to encode " ++ kind.text ++ " protocol message: " ++ boundedErrorMessage message⟩

/-! ## `ValidatedMessageDecoder` -/

/-- `ValidatedMessageDecoder` -/
structure MessageDecoder where
  kind : MessageKind
  maxFrameLength : Int
  frames : FrameDecoder
  failed : Bool := false

namespace MessageDecoder

variable (check : MessageKind → Value → Bool)

/-- The constructor. -/
def new (kind : MessageKind) (options : FrameDecoderOptions) : Except FrameFailure MessageDecoder := do
  let frames ← FrameDecoder.new options
  return { kind, frames, maxFrameLength := options.maxFrameLength.getD DEFAULT_MAX_FRAME_LENGTH }

/-- The error about a decoder that has failed. -/
def failure (decoder : MessageDecoder) : ProtocolValidationError :=
  ⟨decoder.kind.text ++ " message decoder has failed"⟩

/-- The error about a frame. -/
def invalidFrame (decoder : MessageDecoder) (message : String) : ProtocolValidationError :=
  ⟨"Invalid " ++ decoder.kind.text ++ " protocol frame: " ++ boundedErrorMessage message⟩

/-- The message in a payload. -/
def receive (decoder : MessageDecoder) (payload : List UInt8) : Except ProtocolValidationError Value :=
  match decodeCbor payload { maxByteLength := some decoder.maxFrameLength } with
  | .error e => .error (decoder.invalidFrame e.message)
  | .ok value => parseMessage check decoder.kind value

/-- The messages in some payloads. -/
def receiveAll (decoder : MessageDecoder) : List (List UInt8) → Except ProtocolValidationError (List Value)
  | [] => .ok []
  | payload :: payloads => do
      let message ← decoder.receive check payload
      let messages ← receiveAll decoder payloads
      return message :: messages

/-- `push` -/
def push (decoder : MessageDecoder) (chunk : List UInt8) :
    Except ProtocolValidationError (List Value) × MessageDecoder :=
  if decoder.failed then (.error decoder.failure, decoder)
  else
    match decoder.frames.push chunk with
    | (.error e, frames) =>
      (.error (decoder.invalidFrame e.message), { decoder with frames, failed := true })
    | (.ok payloads, frames) =>
      match decoder.receiveAll check payloads with
      | .error e => (.error e, { decoder with frames, failed := true })
      | .ok messages => (.ok messages, { decoder with frames })

/-- `end` -/
def finish (decoder : MessageDecoder) : Except ProtocolValidationError Unit × MessageDecoder :=
  if decoder.failed then (.error decoder.failure, decoder)
  else
    match decoder.frames.finish with
    | (.error e, frames) =>
      (.error ⟨"Invalid " ++ decoder.kind.text ++ " protocol framing: " ++
        boundedErrorMessage e.message⟩, { decoder with frames, failed := true })
    | (.ok (), frames) => (.ok (), { decoder with frames })

/-- One push after another: all the messages, or the first error. -/
def pushAll (decoder : MessageDecoder) : List (List UInt8) →
    Except ProtocolValidationError (List Value) × MessageDecoder
  | [] => (.ok [], decoder)
  | chunk :: chunks =>
    match decoder.push check chunk with
    | (.error e, decoder) => (.error e, decoder)
    | (.ok messages, decoder) =>
      match pushAll decoder chunks with
      | (.error e, decoder) => (.error e, decoder)
      | (.ok messages', decoder) => (.ok (messages ++ messages'), decoder)

/-- What can be called on a decoder. -/
inductive Call where
  | push (chunk : List UInt8)
  | finish

/-- The decoder after a call, whatever came of it. -/
def call (decoder : MessageDecoder) : Call → MessageDecoder
  | .push chunk => (decoder.push check chunk).2
  | .finish => decoder.finish.2

theorem call_failed {decoder : MessageDecoder} (h : decoder.failed = true) (c : Call) :
    (decoder.call check c).failed = true := by
  cases c with
  | push chunk => rw [call, push, if_pos h]; exact h
  | finish => rw [call, finish, if_pos h]; exact h

theorem calls_failed {decoder : MessageDecoder} (h : decoder.failed = true) (calls : List Call) :
    (calls.foldl (call check) decoder).failed = true := by
  induction calls generalizing decoder with
  | nil => exact h
  | cons c calls ih => exact ih (call_failed check h c)

end MessageDecoder

end Mcpi.Protocol
