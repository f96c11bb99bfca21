import Mathlib.Data.Fintype.Basic
import Mcpi.Lib.Json.Cut
import Mcpi.Session.State

/-!
# The JSONL codec

`jsonl/codec.ts`: a session file is a header line and one line for each mutation. Encoding
writes the JSON text of an object; decoding reads it back property by property and says
what is wrong with the first one that does not fit. A line that is no JSON at all fails
with kind `syntax`, which is what a torn append looks like; every other failure has kind
`schema`.
-/

namespace Mcpi.Session.Jsonl

variable {ν : Type}

/-! ## Errors -/

/-- `JsonlDecodeError["kind"]`. The codec lets a `usage` record without a usage or its cost pass, and
`applyMutation` then throws a `TypeError` where it reads that: `noUsage` has what it checks before. -/
inductive DecodeErrorKind where
  | syntaxError
  | schema
  | noUsage (id : String) (seq : Nat) (lane : String)
  deriving DecidableEq

/-- `JsonlDecodeError` -/
structure JsonlDecodeError where
  kind : DecodeErrorKind
  message : String
  deriving DecidableEq

/-- Reading a property of an object. -/
abbrev Decode (α : Type) := Except JsonlDecodeError α

/-- `new JsonlDecodeError("schema", message)` -/
def schemaError {α : Type} (message : String) : Decode α := .error ⟨.schema, message⟩

/-! ## Reading properties -/

section Require

variable [JsonNumber ν]

/-- `parseObject` -/
def parseObject (line : List Char) : Decode (List (String × Json ν)) :=
  match Json.parse line with
  | none => .error ⟨.syntaxError, "is not valid JSON"⟩
  | some (.obj members) => .ok members
  | some _ => schemaError "is not a JSON object"

/-- `requireString` -/
def requireString (value : Option (Json ν)) (field : String) : Decode String :=
  match value with
  | some (.str s) => .ok s
  | _ => schemaError ("has invalid " ++ field)

/-- A safe integer of at least `least`. -/
def requireSafeInteger (value : Option (Json ν)) (least : Nat) (field : String) : Decode SafeNat :=
  match value with
  | some (.num n) =>
    match JsonNumber.safeNat? n with
    | some k => if least ≤ k.1 then .ok k else schemaError ("has invalid " ++ field)
    | none => schemaError ("has invalid " ++ field)
  | _ => schemaError ("has invalid " ++ field)

/-- `requireSequence` -/
def requireSequence (value : Option (Json ν)) : Decode SafeNat := requireSafeInteger value 1 "seq"

/-- `requireTimestamp` -/
def requireTimestamp (value : Option (Json ν)) : Decode SafeNat :=
  requireSafeInteger value 0 "timestamp"

/-- `requireNullableId` -/
def requireNullableId (value : Option (Json ν)) (field : String) : Decode (Option String) :=
  match value with
  | some .null => .ok none
  | some (.str s) => .ok (some s)
  | _ => schemaError ("has invalid " ++ field)

/-- A string that may be left out. -/
def optionalString (value : Option (Json ν)) (field : String) : Decode (Option String) :=
  match value with
  | none => .ok none
  | some (.str s) => .ok (some s)
  | _ => schemaError ("has invalid " ++ field)

end Require

/-! ## The header -/

/-- `JsonlV4Header` -/
structure JsonlV4Header (ν : Type) where
  id : String
  createdAt : SafeNat
  cwd : String
  parentSessionId : Option String
  legacyParentSessionPath : Option String
  metadata : Option (List (String × Json ν))
  /-- The parent is known by id or, in a migrated session, by path. -/
  one_parent : parentSessionId = none ∨ legacyParentSessionPath = none

/-- A member that is left out when it is `undefined`. -/
def optionalMember (key : String) (value : Option (Json ν)) : List (String × Json ν) :=
  match value with
  | some v => [(key, v)]
  | none => []

section Header

variable [JsonNumber ν]

/-- The properties of a header. -/
def headerMembers (header : JsonlV4Header ν) : List (String × Json ν) :=
  [("kind", .str "header"), ("version", .num (JsonNumber.ofNat 4)), ("id", .str header.id),
    ("createdAt", .num (JsonNumber.ofNat header.createdAt)), ("cwd", .str header.cwd)] ++
  optionalMember "parentSessionId" (header.parentSessionId.map .str) ++
  optionalMember "legacyParentSessionPath" (header.legacyParentSessionPath.map .str) ++
  optionalMember "metadata" (header.metadata.map .obj)

/-- The text of a header line. -/
def headerLine (header : JsonlV4Header ν) : List Char := Json.stringify (.obj (headerMembers header))

/-- `encodeHeader` -/
def encodeHeader (header : JsonlV4Header ν) : List Char := headerLine header ++ ['\n']

/-- `metadata` of a header: an object that may be left out. -/
def decodeHeaderMetadata (value : Option (Json ν)) : Decode (Option (List (String × Json ν))) :=
  match value with
  | none => .ok none
  | some (.obj members) => .ok (some members)
  | some _ => schemaError "has invalid metadata"

/-- A header has at most one way to name its parent. -/
def checkOneParent (parentSessionId legacyParentSessionPath : Option String) :
    Decode (PLift (parentSessionId = none ∨ legacyParentSessionPath = none)) :=
  if h : parentSessionId = none ∨ legacyParentSessionPath = none then .ok ⟨h⟩
  else schemaError "has both parentSessionId and legacyParentSessionPath"

/-- `if (!ok) throw new JsonlDecodeError("schema", message)` -/
def check (ok : Bool) (message : String) : Decode Unit :=
  if ok then .ok () else schemaError message

/-- `value.version === 4` -/
def isVersion4 : Option (Json ν) → Bool
  | some (.num n) => (JsonNumber.safeNat? n).any fun k => k.1 = 4
  | _ => false

/-- `decodeHeader` -/
def decodeHeader (line : List Char) : Decode (JsonlV4Header ν) := do
  let value ← parseObject line
  check ((Json.member? "kind" value).bind Json.str? = some "header") "is not a header"
  check (isVersion4 (Json.member? "version" value)) "has unsupported session version"
  let parentSessionId ←
    optionalString (Json.member? "parentSessionId" value) "parentSessionId"
  let legacyParentSessionPath ←
    optionalString (Json.member? "legacyParentSessionPath" value) "legacyParentSessionPath"
  let one ← checkOneParent parentSessionId legacyParentSessionPath
  let metadata ← decodeHeaderMetadata (Json.member? "metadata" value)
  let id ← requireString (Json.member? "id" value) "id"
  let createdAt ← requireTimestamp (Json.member? "createdAt" value)
  let cwd ← requireString (Json.member? "cwd" value) "cwd"
  return { id, createdAt, cwd, parentSessionId, legacyParentSessionPath, metadata,
           one_parent := one.down }

/-- `parseHeader` -/
def parseHeader (line : List Char) : Decode (JsonlV4Header ν) := decodeHeader line

end Header

/-! ## Mutations -/

/-- An id or `null`. -/
def nullableId : Option String → Json ν
  | some id => .str id
  | none => .null

section Mutation

variable [JsonNumber ν]

/-- The properties of a mutation line. -/
def mutationMembers : SessionMutation ν → List (String × Json ν)
  | .entry lane e =>
    [("kind", .str "entry")] ++ optionalMember "lane" (lane.map .str) ++
      [("id", .str e.id), ("type", .str e.type.name)] ++ e.payload.members ++
      [("parentId", nullableId e.parentId), ("seq", .num (JsonNumber.ofNat e.seq)),
        ("timestamp", .num (JsonNumber.ofNat e.timestamp))]
  | .record r =>
    [("kind", .str "record"), ("id", .str r.id), ("lane", .str r.lane),
      ("type", .str r.type.name)] ++ r.payload.members ++
      [("seq", .num (JsonNumber.ofNat r.seq)), ("timestamp", .num (JsonNumber.ofNat r.timestamp))]
  | .lane seq l leafId =>
    [("kind", .str "lane"), ("seq", .num (JsonNumber.ofNat seq)), ("lane", .str l),
      ("leafId", nullableId leafId)]
  | .name seq n =>
    [("kind", .str "fact"), ("seq", .num (JsonNumber.ofNat seq)), ("fact", .str "name")] ++
      optionalMember "name" (n.map .str)
  | .label seq targetId text =>
    [("kind", .str "fact"), ("seq", .num (JsonNumber.ofNat seq)), ("fact", .str "label"),
      ("targetId", .str targetId)] ++ optionalMember "label" (text.map .str)

/-- The text of a mutation line. -/
def mutationLine (mutation : SessionMutation ν) : List Char :=
  Json.stringify (.obj (mutationMembers mutation))

/-- `encodeMutation` -/
def encodeMutation (mutation : SessionMutation ν) : List Char := mutationLine mutation ++ ['\n']

/-- `ENTRY_TYPES.has(type)` -/
def requireEntryType (type : String) : Decode EntryType :=
  match EntryType.ofName? type with
  | some t => .ok t
  | none => schemaError ("has unknown entry type " ++ type)

/-- `RECORD_TYPES.has(type)` -/
def requireRecordType (type : String) : Decode RecordType :=
  match RecordType.ofName? type with
  | some t => .ok t
  | none => schemaError ("has unknown record type " ++ type)

/-- `{ ...entryFields, id, type, parentId, seq, timestamp }`, where the type asks a `custom` entry
for its `customType`. -/
def requireEntry (id : String) (seq : Nat) (parentId : Option String) (timestamp : SafeNat)
    (type : EntryType) (payload : EntryPayload ν) : Decode (Entry ν) :=
  if typed : EntryPayload.Typed type payload then
    .ok { id, seq, parentId, timestamp, type, payload, typed }
  else schemaError "has invalid customType"

/-- `value.intent` of an operation that starts. -/
def requireIntent (payload : RecordPayload ν) : Decode Unit :=
  match payload.get? "intent" with
  | some (.obj intent) => do
      let operationKind ← requireString (Json.member? "kind" intent) "operation kind"
      check (OPERATION_KINDS.any fun kind => kind.name = operationKind) ("has unknown operation kind " ++ operationKind)
  | _ => schemaError "has invalid intent"

/-- The checks of `parseRecordMutation` that depend on the type. -/
def checkRecordType (type : RecordType) (payload : RecordPayload ν) : Decode Unit :=
  match type with
  | .operation_started => requireIntent payload
  | .operation_finished => do
      let _ ← requireString (payload.get? "runId") "runId"
      return ()
  | _ => .ok ()

/-- `{ ...recordFields, id, lane, type, seq, timestamp }` -/
def requireRecord (id : String) (seq : Nat) (lane : String) (timestamp : SafeNat)
    (type : RecordType) (payload : RecordPayload ν) : Decode (LaneRecord ν) := do
  checkRecordType type payload
  if typed : RecordPayload.Typed type payload then
    .ok { id, seq, lane, timestamp, type, payload, typed }
  else .error ⟨.noUsage id seq lane, ""⟩

/-- `parseEntryMutation` -/
def parseEntryMutation (value : List (String × Json ν)) (seq : Nat) : Decode (SessionMutation ν) := do
  let lane ← optionalString (Json.member? "lane" value) "lane"
  let id ← requireString (Json.member? "id" value) "id"
  let typeName ← requireString (Json.member? "type" value) "entry type"
  let type ← requireEntryType typeName
  let parentId ← requireNullableId (Json.member? "parentId" value) "parentId"
  let timestamp ← requireTimestamp (Json.member? "timestamp" value)
  let entry ← requireEntry id seq parentId timestamp type (Payload.rest entryKeys value)
  return .entry lane entry

/-- `parseRecordMutation` -/
def parseRecordMutation (value : List (String × Json ν)) (seq : Nat) : Decode (SessionMutation ν) := do
  let id ← requireString (Json.member? "id" value) "id"
  let lane ← requireString (Json.member? "lane" value) "lane"
  let typeName ← requireString (Json.member? "type" value) "record type"
  let type ← requireRecordType typeName
  let timestamp ← requireTimestamp (Json.member? "timestamp" value)
  let record ← requireRecord id seq lane timestamp type (Payload.rest recordKeys value)
  return .record record

/-- `parseLaneMutation` -/
def parseLaneMutation (value : List (String × Json ν)) (seq : Nat) : Decode (SessionMutation ν) := do
  let lane ← requireString (Json.member? "lane" value) "lane"
  let leafId ← requireNullableId (Json.member? "leafId" value) "leafId"
  return .lane seq lane leafId

/-- `parseFactMutation` -/
def parseFactMutation (value : List (String × Json ν)) (seq : Nat) : Decode (SessionMutation ν) :=
  match (Json.member? "fact" value).bind Json.str? with
  | some "name" => do
      let name ← optionalString (Json.member? "name" value) "name"
      return .name seq name
  | some "label" => do
      let label ← optionalString (Json.member? "label" value) "label"
      let targetId ← requireString (Json.member? "targetId" value) "targetId"
      return .label seq targetId label
  | _ => schemaError "has unknown fact type"

/-- `decodeMutation` -/
def decodeMutation (line : List Char) : Decode (SessionMutation ν) := do
  let value ← parseObject line
  let seq ← requireSequence (Json.member? "seq" value)
  match (Json.member? "kind" value).bind Json.str? with
  | some "entry" => parseEntryMutation value seq
  | some "record" => parseRecordMutation value seq
  | some "lane" => parseLaneMutation value seq
  | some "fact" => parseFactMutation value seq
  | _ => schemaError "has unknown mutation kind"

/-- `parseMutation` -/
def parseMutation (line : List Char) : Decode (SessionMutation ν) := decodeMutation line

end Mutation

/-! ## What was written reads back -/

section RoundTrip

@[simp] theorem requireString_str (s field : String) :
    requireString (some (.str s : Json ν)) field = .ok s := rfl

@[simp] theorem requireNullableId_nullableId (id : Option String) (field : String) :
    requireNullableId (some (nullableId id : Json ν)) field = .ok id := by
  cases id <;> rfl

@[simp] theorem optionalString_map_str (value : Option String) (field : String) :
    optionalString (value.map (Json.str : String → Json ν)) field = .ok value := by
  cases value <;> rfl

@[simp] theorem member?_optionalMember (key key' : String) (value : Option (Json ν)) :
    Json.member? key (optionalMember key' value) = if key' = key then value else none := by
  cases value <;> simp [optionalMember]

theorem mem_optionalMember {key : String} {value : Option (Json ν)} {q : String × Json ν}
    (h : q ∈ optionalMember key value) : q.1 = key := by
  cases value with
  | none => cases h
  | some v => rw [List.mem_singleton.mp h]

theorem requireEntry_typed (e : Entry ν) :
    requireEntry e.id e.seq e.parentId e.timestamp e.type e.payload = .ok e := dif_pos e.typed

theorem requireIntent_typed {payload : RecordPayload ν}
    (h : (OPERATION_KINDS.any fun kind => payload.intentKind = some kind.name) = true) :
    requireIntent payload = .ok () := by
  obtain ⟨kind, hkind, hname⟩ := List.any_eq_true.mp h
  have hname : payload.intentKind = some kind.name := by simpa using hname
  obtain ⟨intent, hintent, hname⟩ := Option.bind_eq_some_iff.mp hname
  obtain ⟨text, htext, hname⟩ := Option.bind_eq_some_iff.mp hname
  -- only an object has properties, only a string reads as one
  obtain ⟨members, rfl⟩ : ∃ members, intent = .obj members := by
    cases intent <;> first | exact ⟨_, rfl⟩ | cases htext
  obtain rfl : text = .str kind.name := by
    cases text <;> cases hname
    rfl
  have hmember : Json.member? "kind" members = some (.str kind.name) := htext
  simp only [requireIntent, hintent, hmember, requireString_str]
  exact if_pos (List.any_eq_true.mpr ⟨kind, hkind, by simp⟩)

theorem requireRecord_typed (r : LaneRecord ν) :
    requireRecord r.id r.seq r.lane r.timestamp r.type r.payload = .ok r := by
  have hcheck : checkRecordType r.type r.payload = .ok () := by
    have h := r.typed
    generalize r.type = type at h
    cases type with
    | operation_started => exact requireIntent_typed (h.intent rfl)
    | operation_finished =>
      obtain ⟨runId, hrunId⟩ := Option.isSome_iff_exists.mp (h.runId rfl)
      obtain ⟨v, hv, hstr⟩ := Option.bind_eq_some_iff.mp hrunId
      obtain rfl : v = .str runId := by
        cases v <;> cases hstr
        rfl
      simp only [checkRecordType, hv, requireString_str]
      rfl
    | _ => rfl
  rw [requireRecord, hcheck]
  exact dif_pos r.typed

variable [JsonNumber ν]

theorem requireSafeInteger_ofNat (k : SafeNat) {least : Nat} (h : least ≤ k.1) (field : String) :
    requireSafeInteger (some (.num (JsonNumber.ofNat k.1 : ν))) least field = .ok k := by
  simp [requireSafeInteger, JsonNumber.safeNat?_ofNat, h]

@[simp] theorem requireTimestamp_ofNat (k : SafeNat) :
    requireTimestamp (some (.num (JsonNumber.ofNat k.1 : ν))) = .ok k :=
  requireSafeInteger_ofNat k (Nat.zero_le _) "timestamp"

theorem requireSequence_ofNat {seq : Nat} (hpos : 0 < seq) (hsafe : seq ≤ MAX_SAFE_INTEGER) :
    requireSequence (some (.num (JsonNumber.ofNat seq : ν))) = .ok ⟨seq, hsafe⟩ :=
  requireSafeInteger_ofNat ⟨seq, hsafe⟩ hpos "seq"

theorem parseObject_stringify (members : List (String × Json ν)) :
    parseObject (Json.stringify (.obj members)) = .ok members := by
  rw [parseObject, Json.parse_stringify]

theorem parseEntryMutation_members (lane : Option String) (e : Entry ν) :
    parseEntryMutation (mutationMembers (.entry lane e)) e.seq = .ok (.entry lane e) := by
  have hpayload : ∀ key ∈ entryKeys, Json.member? key e.payload.members = none :=
    fun key hkey => Payload.member?_reserved e.payload hkey
  have hrest : Payload.rest entryKeys (mutationMembers (.entry lane e)) = e.payload := by
    refine Payload.rest_members e.payload _ _ ?_ ?_
    · intro q hq
      simp only [List.mem_append, List.mem_cons, List.not_mem_nil, or_false] at hq
      rcases hq with (rfl | hq) | rfl | rfl
      · simp [entryKeys]
      · simp [mem_optionalMember hq, entryKeys]
      · simp [entryKeys]
      · simp [entryKeys]
    · intro q hq
      simp only [List.mem_cons, List.not_mem_nil, or_false] at hq
      rcases hq with rfl | rfl | rfl <;> simp [entryKeys]
  have hlane : Json.member? "lane" (mutationMembers (.entry lane e)) = lane.map .str := by
    simp [mutationMembers, Json.member?_append, hpayload "lane" (by decide)]
  have hid : Json.member? "id" (mutationMembers (.entry lane e)) = some (.str e.id) := by
    simp [mutationMembers, Json.member?_append, hpayload "id" (by decide)]
  have htype : Json.member? "type" (mutationMembers (.entry lane e)) = some (.str e.type.name) := by
    simp [mutationMembers, Json.member?_append, hpayload "type" (by decide)]
  have hparent : Json.member? "parentId" (mutationMembers (.entry lane e)) =
      some (nullableId e.parentId) := by
    simp [mutationMembers, Json.member?_append]
  have htime : Json.member? "timestamp" (mutationMembers (.entry lane e)) =
      some (.num (JsonNumber.ofNat e.timestamp)) := by
    simp [mutationMembers, Json.member?_append]
  simp only [parseEntryMutation, hlane, hid, htype, hparent, htime, hrest, optionalString_map_str,
    requireString_str, requireEntryType, EntryType.ofName?_name, requireNullableId_nullableId,
    requireTimestamp_ofNat, bind, Except.bind, requireEntry_typed]
  rfl

theorem parseRecordMutation_members (r : LaneRecord ν) :
    parseRecordMutation (mutationMembers (.record r)) r.seq = .ok (.record r) := by
  have hpayload : ∀ key ∈ recordKeys, Json.member? key r.payload.members = none :=
    fun key hkey => Payload.member?_reserved r.payload hkey
  have hrest : Payload.rest recordKeys (mutationMembers (.record r)) = r.payload := by
    refine Payload.rest_members r.payload _ _ ?_ ?_
    · intro q hq
      simp only [List.mem_cons, List.not_mem_nil, or_false] at hq
      rcases hq with rfl | rfl | rfl | rfl <;> simp [recordKeys]
    · intro q hq
      simp only [List.mem_cons, List.not_mem_nil, or_false] at hq
      rcases hq with rfl | rfl <;> simp [recordKeys]
  have hid : Json.member? "id" (mutationMembers (.record r)) = some (.str r.id) := by
    simp [mutationMembers, Json.member?_append, hpayload "id" (by decide)]
  have hlane : Json.member? "lane" (mutationMembers (.record r)) = some (.str r.lane) := by
    simp [mutationMembers, Json.member?_append, hpayload "lane" (by decide)]
  have htype : Json.member? "type" (mutationMembers (.record r)) = some (.str r.type.name) := by
    simp [mutationMembers, Json.member?_append, hpayload "type" (by decide)]
  have htime : Json.member? "timestamp" (mutationMembers (.record r)) =
      some (.num (JsonNumber.ofNat r.timestamp)) := by
    simp [mutationMembers, Json.member?_append]
  simp only [parseRecordMutation, hlane, hid, htype, htime, hrest, requireString_str,
    requireRecordType, RecordType.ofName?_name, requireTimestamp_ofNat, bind, Except.bind,
    requireRecord_typed]
  rfl

theorem member?_mutationMembers (m : SessionMutation ν) :
    Json.member? "seq" (mutationMembers m) = some (.num (JsonNumber.ofNat m.seq)) ∧
      (Json.member? "kind" (mutationMembers m)).bind Json.str? =
        some (match m with
          | .entry _ _ => "entry"
          | .record _ => "record"
          | .lane _ _ _ => "lane"
          | .name _ _ => "fact"
          | .label _ _ _ => "fact") := by
  cases m with
  | entry lane e =>
    have hkind : Json.member? "kind" e.payload.members = none :=
      e.payload.member?_reserved (by decide)
    simp [mutationMembers, Json.member?_append, hkind, Json.str?, SessionMutation.seq]
  | record r =>
    have hkind : Json.member? "kind" r.payload.members = none :=
      r.payload.member?_reserved (by decide)
    simp [mutationMembers, Json.member?_append, hkind, Json.str?, SessionMutation.seq]
  | lane seq l leafId => simp [mutationMembers, Json.str?, SessionMutation.seq]
  | name seq n => simp [mutationMembers, Json.str?, SessionMutation.seq]
  | label seq targetId text => simp [mutationMembers, Json.str?, SessionMutation.seq]

/-- **A mutation line reads back as its mutation.** -/
theorem parseMutation_mutationLine (m : SessionMutation ν) (hpos : 0 < m.seq)
    (hsafe : m.seq ≤ MAX_SAFE_INTEGER) : parseMutation (mutationLine m) = .ok m := by
  have hobj : parseObject (mutationLine m) = .ok (mutationMembers m) := parseObject_stringify _
  obtain ⟨hseq, hkind⟩ := member?_mutationMembers m
  rw [parseMutation, decodeMutation, hobj]
  show (do
    let seq ← requireSequence (Json.member? "seq" (mutationMembers m))
    match (Json.member? "kind" (mutationMembers m)).bind Json.str? with
    | some "entry" => parseEntryMutation (mutationMembers m) seq
    | some "record" => parseRecordMutation (mutationMembers m) seq
    | some "lane" => parseLaneMutation (mutationMembers m) seq
    | some "fact" => parseFactMutation (mutationMembers m) seq
    | _ => schemaError "has unknown mutation kind") = _
  rw [hseq, hkind, requireSequence_ofNat hpos hsafe]
  cases m with
  | entry lane e => exact parseEntryMutation_members lane e
  | record r => exact parseRecordMutation_members r
  | lane seq l leafId =>
    simp only [parseLaneMutation, mutationMembers, Json.member?_cons, Json.member?_nil]
    simp [bind, Except.bind, SessionMutation.seq]
    rfl
  | name seq n =>
    have hname : Json.member? "name" (mutationMembers (.name seq n)) =
        n.map (Json.str : String → Json ν) := by
      simp [mutationMembers]
    simp only [parseFactMutation, hname, optionalString_map_str]
    simp [mutationMembers, Json.str?, bind, Except.bind, SessionMutation.seq]
    rfl
  | label seq targetId text =>
    have hlabel : Json.member? "label" (mutationMembers (.label seq targetId text)) =
        text.map (Json.str : String → Json ν) := by
      simp [mutationMembers]
    simp only [parseFactMutation, hlabel, optionalString_map_str]
    simp [mutationMembers, Json.str?, bind, Except.bind, SessionMutation.seq]
    rfl

/-- **A header line reads back as its header.** -/
theorem parseHeader_headerLine (header : JsonlV4Header ν) : parseHeader (headerLine header) = .ok header := by
  have hobj : parseObject (headerLine header) = .ok (headerMembers header) := parseObject_stringify _
  have hkind : (Json.member? "kind" (headerMembers header)).bind Json.str? = some "header" := by
    simp [headerMembers, Json.member?_append, Json.str?]
  have hversion : isVersion4 (Json.member? "version" (headerMembers header)) = true := by
    have h4 : JsonNumber.safeNat? (JsonNumber.ofNat 4 : ν) = some ⟨4, by decide⟩ :=
      JsonNumber.safeNat?_ofNat ⟨4, by decide⟩
    simp [headerMembers, Json.member?_append, isVersion4, h4]
  have hparent : Json.member? "parentSessionId" (headerMembers header) =
      header.parentSessionId.map .str := by simp [headerMembers, Json.member?_append]
  have hpath : Json.member? "legacyParentSessionPath" (headerMembers header) =
      header.legacyParentSessionPath.map .str := by simp [headerMembers, Json.member?_append]
  have hmetadata : Json.member? "metadata" (headerMembers header) = header.metadata.map .obj := by
    simp [headerMembers, Json.member?_append]
  have hid : Json.member? "id" (headerMembers header) = some (.str header.id) := by
    simp [headerMembers, Json.member?_append]
  have hcreated : Json.member? "createdAt" (headerMembers header) =
      some (.num (JsonNumber.ofNat header.createdAt)) := by
    simp [headerMembers, Json.member?_append]
  have hcwd : Json.member? "cwd" (headerMembers header) = some (.str header.cwd) := by
    simp [headerMembers, Json.member?_append]
  have hone : checkOneParent header.parentSessionId header.legacyParentSessionPath =
      .ok ⟨header.one_parent⟩ := dif_pos header.one_parent
  have hobject : decodeHeaderMetadata (header.metadata.map (Json.obj : _ → Json ν)) =
      .ok header.metadata := by cases header.metadata <;> rfl
  simp only [parseHeader, decodeHeader, hobj, bind, Except.bind, hkind, decide_true, check, if_true,
    hversion, hparent, hpath, hmetadata, hid, hcreated, hcwd, optionalString_map_str, hone, hobject,
    requireString_str, requireTimestamp_ofNat]
  rfl

end RoundTrip

/-! ## The shape of a line -/

section Lines

variable [JsonNumber ν]

theorem newline_not_mem_headerLine (header : JsonlV4Header ν) : '\n' ∉ headerLine header :=
  Json.newline_not_mem_stringify _

theorem newline_not_mem_mutationLine (m : SessionMutation ν) : '\n' ∉ mutationLine m :=
  Json.newline_not_mem_stringify _

theorem stringifyMembers_cons (key : String) (v : Json ν) (members : List (String × Json ν)) :
    ∃ rest, Json.stringifyMembers ((key, v) :: members) = Json.stringLiteral key ++ rest := by
  cases members with
  | nil => exact ⟨_, rfl⟩
  | cons f fs => exact ⟨_, rfl⟩

/-- A mutation line opens an object on the key `kind`. -/
theorem mutationLine_opens (m : SessionMutation ν) : Json.OpensOnLetter (ν := ν) (mutationLine m) := by
  obtain ⟨v, members, hmembers⟩ : ∃ v members, mutationMembers m = ("kind", v) :: members := by
    cases m <;> exact ⟨_, _, rfl⟩
  obtain ⟨rest, hrest⟩ := stringifyMembers_cons "kind" v members
  refine ⟨mutationMembers m, 'k', ['i', 'n', 'd', '"'] ++ (rest ++ ['}']), rfl, ?_, by decide⟩
  have hkind : Json.stringLiteral "kind" = ['"', 'k', 'i', 'n', 'd', '"'] := by decide
  rw [mutationLine, Json.stringify, hmembers, hrest, hkind]
  simp

end Lines

end Mcpi.Session.Jsonl
