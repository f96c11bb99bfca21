import Mcpi.Lib.Json.RoundTrip
import Mcpi.Session.Operations
import Mcpi.Session.Sqlite.Tables

/-!
# Entries and records as rows

What `repo.ts` writes into the `payload` columns and what it makes of them when it reads
them back. A record comes back whole. An entry comes back with the properties its type
declares: other ones are dropped, and one of a wrong type is an error. So an entry that
has the declared properties, and no others, survives (`decodeEntry_row`).
-/

namespace Mcpi.Session

variable {ν : Type}

/-! ## What an entry declares -/

/-- The checks `decodeEntry` makes on the properties of an entry. -/
def EntryType.checks (type : EntryType) (payload : List (String × Json ν)) : Bool :=
  let isString := fun key => ((Json.member? key payload).bind Json.str?).isSome
  let isArray := fun key => match Json.member? key payload with
    | some (.arr _) => true
    | _ => false
  match type with
  | .message =>
    -- `typeof null` and `typeof []` are `"object"`; `null` is excluded
    match Json.member? "message" payload with
    | some (.obj _) | some (.arr _) => true
    | _ => false
  | .model_change => isString "provider" && isString "modelId"
  | .thinking_level_change => isString "thinkingLevel"
  | .active_tools_change =>
    match Json.member? "activeToolNames" payload with
    | some (.arr values) => values.all fun value => value.str?.isSome
    | _ => false
  | .compaction =>
    isString "summary" && isArray "retainedTail" &&
      ((Json.member? "tokensBefore" payload).bind Json.num?).isSome
  | .branch_summary => isString "fromId" && isString "summary"
  | .custom => isString "customType"

/-- The properties `decodeEntry` copies; `terminate` only when it is `true`. -/
def EntryType.declares [DecidableEq ν] (type : EntryType) (property : String × Json ν) : Bool :=
  match type with
  | .message => property.1 = "message" || property = ("terminate", .bool true)
  | .model_change => property.1 ∈ ["provider", "modelId"]
  | .thinking_level_change => property.1 = "thinkingLevel"
  | .active_tools_change => property.1 = "activeToolNames"
  | .compaction => property.1 ∈ ["summary", "retainedTail", "tokensBefore", "details", "usage"]
  | .branch_summary => property.1 ∈ ["fromId", "summary", "details", "usage"]
  | .custom => property.1 ∈ ["customType", "data"]

/-- An entry has the properties its type declares, with the types storage checks, and no
others. -/
structure EntryPayload.Declared [DecidableEq ν] (type : EntryType) (payload : EntryPayload ν) :
    Prop where
  checks : type.checks payload.members = true
  declares : ∀ property ∈ payload.members, type.declares property = true

instance [DecidableEq ν] (type : EntryType) (payload : EntryPayload ν) :
    Decidable (EntryPayload.Declared type payload) :=
  decidable_of_iff (type.checks payload.members = true ∧ ∀ property ∈ payload.members, type.declares property = true)
    ⟨fun h => ⟨h.1, h.2⟩, fun h => ⟨h.1, h.2⟩⟩

namespace Sqlite

section Codec

variable [JsonNumber ν]

/-! ## Entries -/

/-- `JSON.stringify(entryPayload(entry))` -/
def entryPayload (entry : Entry ν) : List Char := Json.stringify (.obj entry.payload.members)

/-- The row `insertEntryRow` gets for an entry. -/
def entryRow (entry : Entry ν) : EntryRow :=
  ⟨entry.seq, entry.id, entry.parentId, entry.type, entry.timestamp, entryPayload entry⟩

@[simp] theorem entryRow_type (entry : Entry ν) : (entryRow entry).type = entry.type := rfl

@[simp] theorem entryRow_payload (entry : Entry ν) :
    (entryRow entry).payload = entryPayload entry := rfl

/-- `readObjectPayload` -/
def readObjectPayload (payload : List Char) : Option (List (String × Json ν)) :=
  match Json.parse payload with
  | some (.obj members) => some members
  | _ => none

/-- What a row that cannot be decoded throws. -/
def decodeFailure {α : Type} (id : String) : Attempt α :=
  sessionError .invalid_entry ("Invalid SQLite session entry " ++ id ++ ": failed to decode entry " ++ id)

/-- `decodeEntry` -/
def decodeEntry [DecidableEq ν] (row : EntryRow) : Attempt (Entry ν) :=
  match readObjectPayload row.payload with
  | none => decodeFailure row.id
  | some members =>
    let payload := Payload.rest entryKeys (members.filter row.type.declares)
    if h : row.type.checks members = true ∧ EntryPayload.Typed row.type payload then
      .ok { id := row.id, seq := row.seq, parentId := row.parent_id, timestamp := row.timestamp,
            type := row.type, payload, typed := h.2 }
    else decodeFailure row.id

@[simp] theorem readObjectPayload_entryPayload (entry : Entry ν) :
    readObjectPayload (entryPayload entry) = some entry.payload.members := by
  rw [readObjectPayload, entryPayload, Json.parse_stringify]

/-- **An entry survives its row.** -/
theorem decodeEntry_row [DecidableEq ν] {entry : Entry ν} (h : EntryPayload.Declared entry.type entry.payload) :
    decodeEntry (entryRow entry) = .ok entry := by
  have hfilter : entry.payload.members.filter entry.type.declares = entry.payload.members :=
    List.filter_eq_self.mpr h.declares
  have hrest : Payload.rest entryKeys entry.payload.members = entry.payload := by
    simpa using entry.payload.rest_members [] [] (by simp) (by simp)
  unfold decodeEntry
  rw [entryRow_payload, readObjectPayload_entryPayload]
  simp only [entryRow_type, hfilter, hrest]
  rw [dif_pos ⟨h.checks, entry.typed⟩]
  rfl

/-! ## Records -/

/-- `recordRunId` -/
def recordRunId (id : String) (type : RecordType) (payload : RecordPayload ν) : Option String :=
  if type = .operation_started then some id else payload.str? "runId"

/-- `recordOpKind` -/
def recordOpKind (type : RecordType) (payload : RecordPayload ν) : Option String :=
  if type = .operation_started then payload.intentKind else none

/-- The own properties of a record before storage adds its position. -/
def recordMembers (id lane : String) (type : RecordType) (payload : RecordPayload ν) : List (String × Json ν) :=
  [("id", .str id), ("lane", .str lane), ("type", .str type.name)] ++ payload.members

/-- The row `appendRecordRow` gets for a record. -/
def recordRow (record : LaneRecord ν) : RecordRow where
  seq := record.seq
  id := record.id
  lane := record.lane
  run_id := recordRunId record.id record.type record.payload
  type := record.type
  op_kind := recordOpKind record.type record.payload
  timestamp := record.timestamp
  payload := Json.stringify (.obj (recordMembers record.id record.lane record.type record.payload))

end Codec

end Sqlite
end Mcpi.Session
