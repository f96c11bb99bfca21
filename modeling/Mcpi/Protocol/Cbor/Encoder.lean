import Mcpi.Lib.BigEndian
import Mcpi.Protocol.Value

/-!
# `encodeCbor`

`cbor/options.ts` and `cbor/encoder.ts`. The writer is the bytes written so far: how its
buffer grows is left out, and a write that would pass the byte limit fails. Properties that
are `undefined` are skipped where the source filters them out beforehand.
-/

namespace Mcpi.Protocol.Cbor

/-! ## Options -/

/-- What the codec throws: a `RangeError` or a `CborError`. -/
inductive CborFailure where
  | range (message : String)
  | cbor (message : String)
  deriving DecidableEq

/-- The message of the error. -/
def CborFailure.message : CborFailure → String
  | .range message | .cbor message => message

/-- A computation that may throw. -/
abbrev Attempt (α : Type) := Except CborFailure α

/-- `throw new CborError(message)` -/
def cborError {α : Type} (message : String) : Attempt α := .error (.cbor message)

/-- `UINT32_BASE` -/
def UINT32_BASE : Nat := 0x100000000

/-- `MAX_UINT32` -/
def MAX_UINT32 : Nat := 0xffffffff

/-- `MAX_CONFIGURED_DEPTH` -/
def MAX_CONFIGURED_DEPTH : Nat := 512

/-- `DEFAULT_MAX_CBOR_BYTE_LENGTH` -/
def DEFAULT_MAX_CBOR_BYTE_LENGTH : Int := 16 * 1024 * 1024

/-- `DEFAULT_MAX_CBOR_CONTAINER_LENGTH` -/
def DEFAULT_MAX_CBOR_CONTAINER_LENGTH : Int := 1000000

/-- `DEFAULT_MAX_CBOR_DEPTH` -/
def DEFAULT_MAX_CBOR_DEPTH : Int := 64

/-- `CborOptions` -/
structure CborOptions where
  maxByteLength : Option Int := none
  maxContainerLength : Option Int := none
  maxDepth : Option Int := none
  deriving DecidableEq

/-- `ResolvedCborOptions` -/
structure ResolvedCborOptions where
  maxByteLength : { n : Nat // n ≤ MAX_UINT32 }
  maxContainerLength : { n : Nat // n ≤ MAX_UINT32 }
  maxDepth : { n : Nat // n ≤ MAX_CONFIGURED_DEPTH }

/-- `resolveLimit` -/
def resolveLimit (name : String) (value : Int) (maximum : Nat) : Attempt { n : Nat // n ≤ maximum } :=
  if h : 0 ≤ value ∧ value ≤ maximum then .ok ⟨value.toNat, by omega⟩
  else .error (.range (name ++ " must be an integer between 0 and " ++ toString maximum))

/-- `resolveOptions` -/
def resolveOptions (options : CborOptions) : Attempt ResolvedCborOptions := do
  let maxByteLength ← resolveLimit "maxByteLength"
    (options.maxByteLength.getD DEFAULT_MAX_CBOR_BYTE_LENGTH) MAX_UINT32
  let maxContainerLength ← resolveLimit "maxContainerLength"
    (options.maxContainerLength.getD DEFAULT_MAX_CBOR_CONTAINER_LENGTH) MAX_UINT32
  let maxDepth ← resolveLimit "maxDepth" (options.maxDepth.getD DEFAULT_MAX_CBOR_DEPTH)
    MAX_CONFIGURED_DEPTH
  return { maxByteLength, maxContainerLength, maxDepth }

/-! ## Text -/

/-- `textEncoder.encode` -/
def textEncode (value : JsString) : List UInt8 := Utf8.encode (Utf16.decode value)

/-- `textDecoder.decode`, where it does not throw. -/
def textDecode (bytes : List UInt8) : Option JsString := (Utf8.decodeFatal bytes).map Utf16.encode

/-! ## `CborWriter` -/

/-- `ensureCapacity` -/
def ensureCapacity (maxByteLength : Nat) (buffer : List UInt8) (additionalBytes : Nat) : Attempt Unit :=
  if buffer.length + additionalBytes > maxByteLength then
    cborError ("CBOR byte length exceeds configured limit of " ++ toString maxByteLength)
  else .ok ()

/-- `writeBytes` -/
def writeBytes (maxByteLength : Nat) (bytes buffer : List UInt8) : Attempt (List UInt8) := do
  ensureCapacity maxByteLength buffer bytes.length
  return buffer ++ bytes

/-- `writeByte` -/
def writeByte (maxByteLength value : Nat) (buffer : List UInt8) : Attempt (List UInt8) :=
  writeBytes maxByteLength [UInt8.ofNat value] buffer

/-- `writeUint16` -/
def writeUint16 (maxByteLength value : Nat) (buffer : List UInt8) : Attempt (List UInt8) :=
  writeBytes maxByteLength (BigEndian.encode 2 value) buffer

/-- `writeUint32` -/
def writeUint32 (maxByteLength value : Nat) (buffer : List UInt8) : Attempt (List UInt8) :=
  writeBytes maxByteLength (BigEndian.encode 4 value) buffer

/-- `writeUint64` -/
def writeUint64 (maxByteLength value : Nat) (buffer : List UInt8) : Attempt (List UInt8) := do
  let high := value / UINT32_BASE
  let low := value - high * UINT32_BASE
  let buffer ← writeUint32 maxByteLength high buffer
  writeUint32 maxByteLength low buffer

/-- `writeFloat64` -/
def writeFloat64 (maxByteLength : Nat) (bits : UInt64) (buffer : List UInt8) : Attempt (List UInt8) :=
  writeBytes maxByteLength (0xfb :: BigEndian.encode 8 bits.toNat) buffer

/-- `writeArgument` -/
def writeArgument (maxByteLength majorType value : Nat) (buffer : List UInt8) : Attempt (List UInt8) :=
  let head := majorType * 32
  if value < 24 then writeByte maxByteLength (head + value) buffer
  else if value ≤ 0xff then do
    let buffer ← writeByte maxByteLength (head + 24) buffer
    writeByte maxByteLength value buffer
  else if value ≤ 0xffff then do
    let buffer ← writeByte maxByteLength (head + 25) buffer
    writeUint16 maxByteLength value buffer
  else if value ≤ MAX_UINT32 then do
    let buffer ← writeByte maxByteLength (head + 26) buffer
    writeUint32 maxByteLength value buffer
  else do
    let buffer ← writeByte maxByteLength (head + 27) buffer
    writeUint64 maxByteLength value buffer

/-! ## Values -/

/-- `encodeText` -/
def encodeText (options : ResolvedCborOptions) (value : JsString) (buffer : List UInt8) :
    Attempt (List UInt8) := do
  let bytes := textEncode value
  if bytes.length > options.maxByteLength then
    cborError ("CBOR text string length exceeds configured limit of " ++
      toString options.maxByteLength.1)
  if textDecode bytes ≠ some value then
    cborError "CBOR text strings must contain valid Unicode scalar values"
  let buffer ← writeArgument options.maxByteLength 3 bytes.length buffer
  writeBytes options.maxByteLength bytes buffer

/-- The number case of `encodeValue`. -/
def encodeNumber (options : ResolvedCborOptions) (value : JsNumber) (buffer : List UInt8) : Attempt (List UInt8) :=
  match value with
  | .int n =>
    if 0 ≤ n.1 then writeArgument options.maxByteLength 0 n.1.toNat buffer
    else writeArgument options.maxByteLength 1 (-1 - n.1).toNat buffer
  | .double bits =>
    if !value.isFinite then cborError "CBOR numbers must be finite"
    else if value.isInteger && !value.isNegativeZero then
      cborError "CBOR integers must be safe JavaScript integers"
    else writeFloat64 options.maxByteLength bits.1 buffer

/-- The byte string case of `encodeValue`. -/
def encodeBytes (options : ResolvedCborOptions) (value buffer : List UInt8) :
    Attempt (List UInt8) := do
  if value.length > options.maxByteLength then
    cborError ("CBOR byte string length exceeds configured limit of " ++
      toString options.maxByteLength.1)
  let buffer ← writeArgument options.maxByteLength 2 value.length buffer
  writeBytes options.maxByteLength value buffer

/-- How many properties are not `undefined`. -/
def entriesLength (entries : List (JsString × Value)) : Nat :=
  entries.countP fun entry => entry.2.isDefined

/-- A value deeper than the limit is refused before anything else. -/
def checkDepth (options : ResolvedCborOptions) (depth : Nat) : Attempt Unit :=
  if depth > options.maxDepth then
    cborError ("CBOR nesting depth exceeds configured limit of " ++ toString options.maxDepth.1)
  else .ok ()

mutual
/-- `encodeValue` -/
def encodeValue (options : ResolvedCborOptions) (depth : Nat) (value : Value)
    (buffer : List UInt8) : Attempt (List UInt8) := do
  checkDepth options depth
  match value with
  | .null => writeByte options.maxByteLength 0xf6 buffer
  | .bool b => writeByte options.maxByteLength (if b then 0xf5 else 0xf4) buffer
  | .number n => encodeNumber options n buffer
  | .string s => encodeText options s buffer
  | .bytes bytes => encodeBytes options bytes buffer
  | .array items => do
      if items.length > options.maxContainerLength then
        cborError ("CBOR array length exceeds configured limit of " ++
          toString options.maxContainerLength.1)
      let buffer ← writeArgument options.maxByteLength 4 items.length buffer
      encodeItems options (depth + 1) items buffer
  | .object prototype entries =>
    if prototype = .other then cborError "Unsupported CBOR value type: object"
    else do
      if entriesLength entries > options.maxContainerLength then
        cborError ("CBOR map length exceeds configured limit of " ++
          toString options.maxContainerLength.1)
      let buffer ← writeArgument options.maxByteLength 5 (entriesLength entries) buffer
      encodeEntries options (depth + 1) entries buffer
  | .undefined => cborError "Unsupported CBOR value type: undefined"
  | .other typeof => cborError ("Unsupported CBOR value type: " ++ typeof)

/-- The loop over the items of an array. -/
def encodeItems (options : ResolvedCborOptions) (depth : Nat) (items : List Value)
    (buffer : List UInt8) : Attempt (List UInt8) :=
  match items with
  | [] => .ok buffer
  | .undefined :: _ => cborError "CBOR arrays must not contain holes or undefined values"
  | item :: items => do
      let buffer ← encodeValue options depth item buffer
      encodeItems options depth items buffer

/-- The loop over the properties of an object. -/
def encodeEntries (options : ResolvedCborOptions) (depth : Nat) (entries : List (JsString × Value))
    (buffer : List UInt8) : Attempt (List UInt8) :=
  match entries with
  | [] => .ok buffer
  | (_, .undefined) :: entries => encodeEntries options depth entries buffer
  | (key, value) :: entries => do
      let buffer ← encodeText options key buffer
      let buffer ← encodeValue options depth value buffer
      encodeEntries options depth entries buffer
end

/-- `encodeCbor` -/
def encodeCbor (value : Value) (options : CborOptions) : Attempt (List UInt8) := do
  let resolved ← resolveOptions options
  encodeValue resolved 0 value []

end Mcpi.Protocol.Cbor
