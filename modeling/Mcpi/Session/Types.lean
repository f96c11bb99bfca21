import Mcpi.Lib.Json.Value

/-!
# The session data model

Entries, lane records, queries and errors as `harness/session/types.ts` declares
them. What storage reads of an entry or a record (ids, sequence numbers, lanes, the
discriminant) is a field of its own; every other property stays in the member list of
`Payload`, because storage passes it on without looking. `ν` is the type of JavaScript
numbers.

Sequence numbers are naturals, because storage only ever counts them up; timestamps are
read off the clock or a file and are safe integers. Query bounds come from the caller and
are integers.
-/

namespace Mcpi.Session

/-! ## Errors -/

/-- `SessionErrorCode` -/
inductive SessionErrorCode where
  | not_found
  | already_exists
  | invalid_entry
  | invalid_payload
  | invalid_lane
  | invalid_query
  | invalid_fork_target
  | storage
  deriving DecidableEq

/-- `SessionError` -/
structure SessionError where
  code : SessionErrorCode
  message : String
  deriving DecidableEq

/-! ## Discriminants -/

/-- `Entry["type"]` -/
inductive EntryType where
  | message
  | model_change
  | thinking_level_change
  | active_tools_change
  | compaction
  | branch_summary
  | custom
  deriving DecidableEq

/-- `LaneRecord["type"]` -/
inductive RecordType where
  | operation_started
  | abort_requested
  | operation_finished
  | step_attempt
  | tool_started
  | queue_enqueued
  | queue_cancelled
  | write_deferred
  | usage
  deriving DecidableEq

/-- `OperationStartedRecord["intent"]["kind"]` -/
inductive OperationKind where
  | run
  | compaction
  | navigation
  deriving DecidableEq

/-- The text of an entry discriminant. -/
def EntryType.name : EntryType → String
  | .message => "message"
  | .model_change => "model_change"
  | .thinking_level_change => "thinking_level_change"
  | .active_tools_change => "active_tools_change"
  | .compaction => "compaction"
  | .branch_summary => "branch_summary"
  | .custom => "custom"

/-- The text of a record discriminant. -/
def RecordType.name : RecordType → String
  | .operation_started => "operation_started"
  | .abort_requested => "abort_requested"
  | .operation_finished => "operation_finished"
  | .step_attempt => "step_attempt"
  | .tool_started => "tool_started"
  | .queue_enqueued => "queue_enqueued"
  | .queue_cancelled => "queue_cancelled"
  | .write_deferred => "write_deferred"
  | .usage => "usage"

/-- The text of an operation kind. -/
def OperationKind.name : OperationKind → String
  | .run => "run"
  | .compaction => "compaction"
  | .navigation => "navigation"

/-- `ENTRY_TYPES` -/
def ENTRY_TYPES : List EntryType :=
  [.message, .model_change, .thinking_level_change, .active_tools_change, .compaction, .branch_summary, .custom]

/-- `RECORD_TYPES` -/
def RECORD_TYPES : List RecordType :=
  [.operation_started, .abort_requested, .operation_finished, .step_attempt, .tool_started,
    .queue_enqueued, .queue_cancelled, .write_deferred, .usage]

/-- `OPERATION_KINDS` -/
def OPERATION_KINDS : List OperationKind := [.run, .compaction, .navigation]

/-- A discriminant by its text. -/
def EntryType.ofName? (name : String) : Option EntryType := ENTRY_TYPES.find? fun t => t.name = name

/-- A discriminant by its text. -/
def RecordType.ofName? (name : String) : Option RecordType :=
  RECORD_TYPES.find? fun t => t.name = name

@[simp] theorem EntryType.ofName?_name (t : EntryType) : EntryType.ofName? t.name = some t := by
  cases t <;> rfl

@[simp] theorem RecordType.ofName?_name (t : RecordType) : RecordType.ofName? t.name = some t := by
  cases t <;> rfl

/-! ## Payloads -/

section Payload

variable {ν : Type} {reserved : List String}

/-- The remaining own properties of an entry or a record: none of them is called like a property
storage keeps in a field of its own. -/
structure Payload (reserved : List String) (ν : Type) where
  members : List (String × Json ν)
  unreserved : ∀ p ∈ members, p.1 ∉ reserved

instance [DecidableEq ν] : DecidableEq (Payload reserved ν) := fun p q =>
  decidable_of_iff (p.members = q.members) ⟨fun h => by cases p; cases q; cases h; rfl, fun h => by rw [h]⟩

/-- The properties left after `{ reserved…, ...rest }`. -/
def Payload.rest (reserved : List String) (members : List (String × Json ν)) : Payload reserved ν :=
  ⟨members.filter fun p => p.1 ∉ reserved, fun p hp => by simpa using (List.mem_filter.mp hp).2⟩

theorem Payload.member?_reserved {reserved : List String} (p : Payload reserved ν) {key : String}
    (h : key ∈ reserved) : Json.member? key p.members = none :=
  Json.member?_eq_none fun q hq heq => p.unreserved q hq (heq ▸ h)

/-- Spreading a payload between reserved properties and taking the rest gives it back. -/
theorem Payload.rest_members {reserved : List String} (p : Payload reserved ν)
    (before after : List (String × Json ν)) (hbefore : ∀ q ∈ before, q.1 ∈ reserved)
    (hafter : ∀ q ∈ after, q.1 ∈ reserved) :
    Payload.rest reserved (before ++ p.members ++ after) = p := by
  have hdrop : ∀ l : List (String × Json ν), (∀ q ∈ l, q.1 ∈ reserved) → l.filter (fun q => q.1 ∉ reserved) = [] := by
    intro l hl
    rw [List.filter_eq_nil_iff]
    intro q hq
    simp [hl q hq]
  have hkeep : p.members.filter (fun q => q.1 ∉ reserved) = p.members := by
    rw [List.filter_eq_self]
    intro q hq
    simpa using p.unreserved q hq
  obtain ⟨members, hp⟩ := p
  simp only [Payload.rest, List.filter_append, hdrop before hbefore,
    hdrop after hafter, hkeep, List.nil_append, List.append_nil]

/-- Read one property. -/
def Payload.get? (p : Payload reserved ν) (key : String) : Option (Json ν) :=
  Json.member? key p.members

/-- Read one property that is a string. -/
def Payload.str? (p : Payload reserved ν) (key : String) : Option String :=
  (p.get? key).bind Json.str?

/-- The properties of an entry and its mutation with fields of their own. -/
def entryKeys : List String := ["kind", "lane", "id", "type", "parentId", "seq", "timestamp"]

/-- The properties of a record and its mutation with fields of their own. -/
def recordKeys : List String := ["kind", "id", "lane", "type", "seq", "timestamp"]

/-- The other properties of an entry. -/
abbrev EntryPayload (ν : Type) := Payload entryKeys ν

/-- The other properties of a record. -/
abbrev RecordPayload (ν : Type) := Payload recordKeys ν

/-- What the type of an entry says about the properties storage looks into. -/
def EntryPayload.Typed (type : EntryType) (payload : EntryPayload ν) : Prop :=
  type = .custom → (payload.str? "customType").isSome = true

instance (type : EntryType) (payload : EntryPayload ν) :
    Decidable (EntryPayload.Typed type payload) := inferInstanceAs (Decidable (_ → _))

/-- The numbers of a `Usage` that session statistics add up. What is missing or no number is `NaN` in a
sum, which is `none` here. -/
structure Usage (ν : Type) where
  input : Option ν
  cacheRead : Option ν
  cacheWrite : Option ν
  totalTokens : Option ν
  costTotal : Option ν

/-- Read the statistics numbers of a `usage` property. Without a `cost` reading its total throws. -/
def Usage.read (usage : Json ν) : Option (Usage ν) :=
  let number (key : String) := (usage.get? key).bind Json.num?
  match usage.get? "cost" with
  | none => none
  | some .null => none
  | some cost => some {
      input := number "input"
      cacheRead := number "cacheRead"
      cacheWrite := number "cacheWrite"
      totalTokens := number "totalTokens"
      costTotal := (cost.get? "total").bind Json.num? }

/-- All the numbers are there. -/
def Usage.complete (usage : Usage ν) : Bool :=
  usage.input.isSome && usage.cacheRead.isSome && usage.cacheWrite.isSome && usage.totalTokens.isSome &&
    usage.costTotal.isSome

/-- The `usage` property of a record. -/
def RecordPayload.usage? (p : RecordPayload ν) : Option (Usage ν) := (p.get? "usage").bind Usage.read

/-- `record.intent.kind` -/
def RecordPayload.intentKind (p : RecordPayload ν) : Option String :=
  (p.get? "intent").bind fun intent => (intent.get? "kind").bind Json.str?

/-- What the type of a record says about the properties storage looks into. -/
structure RecordPayload.Typed (type : RecordType) (payload : RecordPayload ν) : Prop where
  usage : type = .usage → payload.usage?.isSome = true
  intent : type = .operation_started → (OPERATION_KINDS.any fun kind => payload.intentKind = some kind.name) = true
  runId : type = .operation_finished → (payload.str? "runId").isSome = true

instance (type : RecordType) (payload : RecordPayload ν) : Decidable (RecordPayload.Typed type payload) :=
  decidable_of_iff ((type = .usage → payload.usage?.isSome = true) ∧ (type = .operation_started →
        (OPERATION_KINDS.any fun kind => payload.intentKind = some kind.name) = true) ∧
      (type = .operation_finished → (payload.str? "runId").isSome = true))
    ⟨fun h => ⟨h.1, h.2.1, h.2.2⟩, fun h => ⟨h.1, h.2, h.3⟩⟩

end Payload

/-! ## Entries and records -/

section Records

variable {ν : Type}

/-- `ProvisionedEntry`: an entry before storage assigns its position. -/
structure ProvisionedEntry (ν : Type) where
  id : String
  type : EntryType
  payload : EntryPayload ν
  typed : EntryPayload.Typed type payload

/-- `Entry` -/
structure Entry (ν : Type) where
  id : String
  seq : Nat
  parentId : Option String
  timestamp : SafeNat
  type : EntryType
  payload : EntryPayload ν
  typed : EntryPayload.Typed type payload

instance [DecidableEq ν] : DecidableEq (Entry ν) := fun e f =>
  decidable_of_iff (e.id = f.id ∧ e.seq = f.seq ∧ e.parentId = f.parentId ∧ e.timestamp = f.timestamp ∧
      e.type = f.type ∧ e.payload = f.payload)
    ⟨fun h => by cases e; cases f; simpa using h, fun h => by simp [h]⟩

/-- `entry.customType` -/
def Entry.customType (entry : Entry ν) : Option String := entry.payload.str? "customType"

/-- `NewRecord`: a record before storage assigns its position. The caller gives a usage with all its
numbers. -/
structure NewRecord (ν : Type) where
  id : String
  lane : String
  type : RecordType
  payload : RecordPayload ν
  typed : RecordPayload.Typed type payload
  complete : type = .usage → (payload.usage?.any Usage.complete) = true

/-- `LaneRecord` -/
structure LaneRecord (ν : Type) where
  id : String
  seq : Nat
  lane : String
  timestamp : SafeNat
  type : RecordType
  payload : RecordPayload ν
  typed : RecordPayload.Typed type payload

instance [DecidableEq ν] : DecidableEq (LaneRecord ν) := fun r s =>
  decidable_of_iff (r.id = s.id ∧ r.seq = s.seq ∧ r.lane = s.lane ∧ r.timestamp = s.timestamp ∧
      r.type = s.type ∧ r.payload = s.payload)
    ⟨fun h => by cases r; cases s; simpa using h, fun h => by simp [h]⟩

/-- `"runId" in record && record.runId` -/
def LaneRecord.runId (record : LaneRecord ν) : Option String := record.payload.str? "runId"

/-- The usage a `usage` record adds to the statistics. -/
def LaneRecord.usage? (record : LaneRecord ν) : Option (Usage ν) :=
  if record.type = .usage then record.payload.usage? else none

/-- `LanePointer` -/
structure LanePointer where
  lane : String
  leafId : Option String
  deriving DecidableEq

/-- `SessionStats` -/
structure SessionStats (ν : Type) where
  messageCount : Nat
  cachedTokens : Option ν
  uncachedTokens : Option ν
  totalTokens : Option ν
  costTotal : Option ν
  deriving DecidableEq

/-- The statistics of a session with no messages and no usage. -/
def SessionStats.zero [Zero ν] : SessionStats ν := ⟨0, some 0, some 0, some 0, some 0⟩

/-- Statistics after one more message entry. -/
def SessionStats.addMessage (stats : SessionStats ν) : SessionStats ν :=
  { stats with messageCount := stats.messageCount + 1 }

/-- A sum is `NaN` as soon as one of its numbers is. -/
def addNumbers [Add ν] : Option ν → Option ν → Option ν
  | some a, some b => some (a + b)
  | _, _ => none

/-- Statistics after one more usage record. -/
def SessionStats.addUsage [Add ν] (stats : SessionStats ν) (usage : Usage ν) : SessionStats ν :=
  { stats with
    cachedTokens := addNumbers stats.cachedTokens usage.cacheRead
    uncachedTokens := addNumbers stats.uncachedTokens (addNumbers usage.input usage.cacheWrite)
    totalTokens := addNumbers stats.totalTokens usage.totalTokens
    costTotal := addNumbers stats.costTotal usage.costTotal }

/-- `LogItem` -/
inductive LogItem (ν : Type) where
  | entry (seq : Nat) (entry : Entry ν)
  | record (seq : Nat) (record : LaneRecord ν)
  | lane (seq : Nat) (lane : String) (leafId : Option String)
  | name (seq : Nat) (name : Option String)
  | label (seq : Nat) (targetId : String) (label : Option String)
  deriving DecidableEq

/-- `item.seq` -/
def LogItem.seq : LogItem ν → Nat
  | .entry seq _ => seq
  | .record seq _ => seq
  | .lane seq _ _ => seq
  | .name seq _ => seq
  | .label seq _ _ => seq

end Records

/-! ## Queries -/

/-- `EntryOrder` -/
inductive EntryOrder where
  | newestFirst
  | oldestFirst
  deriving DecidableEq

/-- `EntryQuery`; `cursor` is `cursor.afterSeq`. -/
structure EntryQuery where
  type : Option EntryType := none
  customType : Option String := none
  order : Option EntryOrder := none
  limit : Option Int := none
  cursor : Option Int := none
  deriving DecidableEq

/-- `BranchBounds` without its start. -/
structure BranchBounds where
  stopAtType : Option EntryType := none
  stopAtId : Option String := none
  deriving DecidableEq

/-- `EntryQuery & BranchBounds & { start: string }` -/
structure BranchQuery extends EntryQuery, BranchBounds where
  start : String
  deriving DecidableEq

/-- `ForkOptions["position"]` -/
inductive ForkPosition where
  | before
  | at
  deriving DecidableEq

/-- `ForkOptions` -/
inductive ForkOptions where
  | tree
  | branch (entryId : Option String) (position : Option ForkPosition)
  deriving DecidableEq

end Mcpi.Session
