import Mcpi.Protocol.Cbor.Encoder

/-!
# `decodeCbor`

`cbor/decoder.ts`. The reader is the bytes from its offset on. The depth of `readItem` is
counted down from the limit, `levels` being how many levels are left, so that the recursion
ends; the loops over items take the reader of one item as an argument.
-/

namespace Mcpi.Protocol.Cbor

/-- A reader: the value it reads and the bytes it leaves. -/
abbrev Reader (α : Type) := List UInt8 → Attempt (α × List UInt8)

/-- `readByte` -/
def readByte : Reader Nat
  | [] => cborError "Truncated CBOR payload"
  | value :: bytes => .ok (value.toNat, bytes)

/-- `readBytes` -/
def readBytes (length : Nat) : Reader (List UInt8) := fun bytes =>
  if length > bytes.length then cborError "Truncated CBOR payload"
  else .ok (bytes.take length, bytes.drop length)

/-- `readArgument`, of at most four bytes. -/
def readShortArgument (additionalInformation : Nat) : Reader Nat := fun bytes =>
  if additionalInformation < 24 then .ok (additionalInformation, bytes)
  else
    match additionalInformation with
    | 24 => readByte bytes
    | 25 => do
        let (value, bytes) ← readBytes 2 bytes
        return (BigEndian.decode value, bytes)
    | 26 => do
        let (value, bytes) ← readBytes 4 bytes
        return (BigEndian.decode value, bytes)
    | 31 => cborError "Indefinite-length CBOR items are not supported"
    | _ => cborError "Malformed CBOR additional information"

/-- `readArgument` -/
def readArgument (additionalInformation : Nat) : Reader Nat := fun bytes =>
  if additionalInformation = 27 then do
    let (high, bytes) ← readShortArgument 26 bytes
    let (low, bytes) ← readShortArgument 26 bytes
    if high > 0x1fffff then
      cborError "Decoded CBOR integer or length is outside the safe range"
    return (high * UINT32_BASE + low, bytes)
  else readShortArgument additionalInformation bytes

/-- `readLength` -/
def readLength (additionalInformation : Nat) (kind : String) (limit : Nat) : Reader Nat := fun bytes =>
  if additionalInformation = 31 then
    cborError ("Indefinite-length CBOR " ++ kind ++ "s are not supported")
  else do
    let (length, bytes) ← readArgument additionalInformation bytes
    if length > limit then
      cborError ("CBOR " ++ kind ++ " length exceeds configured limit of " ++ toString limit)
    return (length, bytes)

/-- `readSimple` -/
def readSimple (additionalInformation : Nat) : Reader Value := fun bytes =>
  match additionalInformation with
  | 20 => .ok (.bool false, bytes)
  | 21 => .ok (.bool true, bytes)
  | 22 => .ok (.null, bytes)
  | 27 => do
      let (value, bytes) ← readBytes 8 bytes
      let value := JsNumber.ofBits (UInt64.ofNat (BigEndian.decode value))
      if !value.isFinite then cborError "Decoded CBOR number must be finite"
      if value.isInteger && !value.isSafeInteger then
        cborError "Decoded CBOR integer is outside the safe range"
      return (.number value, bytes)
  | 31 => cborError "CBOR break marker is not supported"
  | _ => cborError "Unsupported CBOR simple value or floating-point width"

/-- A number from an argument. What `readArgument` returns is safe. -/
def integerValue (n : Int) : Attempt Value :=
  if h : n.natAbs ≤ MAX_SAFE_INTEGER then .ok (.number (.int ⟨n, h⟩))
  else cborError "Decoded CBOR integer is outside the safe range"

/-- The loop over the items of an array. -/
def readItems (readItem : Reader Value) : Nat → Reader (List Value)
  | 0, bytes => .ok ([], bytes)
  | length + 1, bytes => do
      let (item, bytes) ← readItem bytes
      let (items, bytes) ← readItems readItem length bytes
      return (item :: items, bytes)

/-- The loop over the entries of a map; the keys of `result` are the keys read so far. -/
def readEntries (readItem : Reader Value) :
    Nat → List (JsString × Value) → Reader (List (JsString × Value))
  | 0, result, bytes => .ok (result, bytes)
  | length + 1, result, bytes => do
      let (key, bytes) ← readItem bytes
      match key with
      | .string key =>
        if key ∈ result.map Prod.fst then cborError "CBOR map contains a duplicate key"
        else do
          let (value, bytes) ← readItem bytes
          readEntries readItem length (defineProperty result key value) bytes
      | _ => cborError "CBOR map keys must be strings"

/-- The cases of `readItem`, by the major type. -/
def readMajorType (options : ResolvedCborOptions) (readItem : Reader Value)
    (majorType additionalInformation : Nat) : Reader Value := fun bytes =>
  match majorType with
  | 0 => do
      let (argument, bytes) ← readArgument additionalInformation bytes
      return (← integerValue argument, bytes)
  | 1 => do
      let (argument, bytes) ← readArgument additionalInformation bytes
      return (← integerValue (-1 - argument), bytes)
  | 2 => do
      let (length, bytes) ←
        readLength additionalInformation "byte string" options.maxByteLength bytes
      let (value, bytes) ← readBytes length bytes
      return (.bytes value, bytes)
  | 3 => do
      let (length, bytes) ←
        readLength additionalInformation "text string" options.maxByteLength bytes
      let (text, bytes) ← readBytes length bytes
      match textDecode text with
      | some text => return (.string text, bytes)
      | none => cborError "CBOR text string contains invalid UTF-8"
  | 4 => do
      let (length, bytes) ←
        readLength additionalInformation "array" options.maxContainerLength bytes
      let (items, bytes) ← readItems readItem length bytes
      return (.array items, bytes)
  | 5 => do
      let (length, bytes) ←
        readLength additionalInformation "map" options.maxContainerLength bytes
      let (entries, bytes) ← readEntries readItem length [] bytes
      return (.object .object entries, bytes)
  | 6 => cborError "CBOR tags are not supported"
  | 7 => readSimple additionalInformation bytes
  | _ => cborError "Malformed CBOR major type"

/-- `readItem` -/
def readItem (options : ResolvedCborOptions) : Nat → Reader Value
  | 0, _ =>
    cborError ("CBOR nesting depth exceeds configured limit of " ++ toString options.maxDepth.1)
  | levels + 1, bytes => do
      let (initial, bytes) ← readByte bytes
      readMajorType options (readItem options levels) (initial / 32) (initial % 32) bytes

/-- `decodeCbor` -/
def decodeCbor (bytes : List UInt8) (options : CborOptions) : Attempt Value := do
  let resolved ← resolveOptions options
  if bytes.length > resolved.maxByteLength then
    cborError ("CBOR byte length exceeds configured limit of " ++
      toString resolved.maxByteLength.1)
  let (value, bytes) ← readItem resolved (resolved.maxDepth + 1) bytes
  if bytes ≠ [] then cborError "CBOR payload contains trailing data"
  return value

end Mcpi.Protocol.Cbor
