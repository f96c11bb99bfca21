import Mcpi.Session.Types
import Mcpi.Lib.OrderedMap

/-!
# What recovery reads

The entries and lane records of `harness/session/types.ts` as the reducer of
`harness/reducer.ts` takes them apart: unlike storage it looks into messages and record
bodies. Whatever it passes on without looking is data of type `δ`, compared as a whole.
-/

namespace Mcpi.Reducer

open Session (EntryType OperationKind)

/-! ## Messages and entries -/

/-- `StopReason` -/
inductive StopReason where
  | pending
  | stop
  | length
  | toolUse
  | error
  | aborted
  | deferred
  deriving DecidableEq

section Entries

variable (δ : Type)

/-- `AgentToolCall` -/
structure AgentToolCall where
  id : String
  name : String
  rest : δ
  deriving DecidableEq

/-- `AssistantMessage["content"][number]` -/
inductive AssistantContent where
  | toolCall (call : AgentToolCall δ)
  | other (content : δ)
  deriving DecidableEq

/-- `AssistantMessage` -/
structure AssistantMessage where
  content : List (AssistantContent δ)
  provider : String
  model : String
  stopReason : StopReason
  deferred : Option δ
  rest : δ
  deriving DecidableEq

/-- `ToolResultMessage` -/
structure ToolResultMessage where
  toolCallId : String
  toolName : String
  rest : δ
  deriving DecidableEq

/-- `AgentMessage`: applications add roles of their own. -/
inductive AgentMessage where
  | assistant (message : AssistantMessage δ)
  | toolResult (message : ToolResultMessage δ)
  | other (role : { role : String // role ≠ "assistant" ∧ role ≠ "toolResult" }) (rest : δ)
  deriving DecidableEq

/-- The properties an entry has by its type. -/
inductive EntryBody where
  | message (message : AgentMessage δ) (terminate : Bool)
  | model_change (provider modelId : String)
  | thinking_level_change (thinkingLevel : String)
  | active_tools_change (activeToolNames : List String)
  | compaction (rest : δ)
  | branch_summary (rest : δ)
  | custom (rest : δ)
  deriving DecidableEq

/-- `ProvisionedEntry` -/
structure ProvisionedEntry where
  id : String
  body : EntryBody δ
  deriving DecidableEq

/-- `Entry` -/
structure Entry extends ProvisionedEntry δ where
  seq : ℕ
  parentId : Option String
  timestamp : Int
  deriving DecidableEq

end Entries

variable {δ : Type}

/-- `message.role` -/
def AgentMessage.role : AgentMessage δ → String
  | .assistant _ => "assistant"
  | .toolResult _ => "toolResult"
  | .other role _ => role

/-- `entry.type` -/
def EntryBody.type : EntryBody δ → EntryType
  | .message .. => .message
  | .model_change .. => .model_change
  | .thinking_level_change .. => .thinking_level_change
  | .active_tools_change .. => .active_tools_change
  | .compaction .. => .compaction
  | .branch_summary .. => .branch_summary
  | .custom .. => .custom

/-- `content.filter((content) => content.type === "toolCall")` -/
def AssistantMessage.toolCalls (message : AssistantMessage δ) : List (AgentToolCall δ) :=
  message.content.filterMap fun
    | .toolCall call => some call
    | .other _ => none

/-- The assistant message of an entry that carries one. -/
def EntryBody.assistant? : EntryBody δ → Option (AssistantMessage δ)
  | .message (.assistant reply) _ => some reply
  | _ => none

/-- The tool result of an entry that carries one. -/
def EntryBody.toolResult? : EntryBody δ → Option (ToolResultMessage δ)
  | .message (.toolResult result) _ => some result
  | _ => none

/-! ## Lane records -/

/-- `RecordBase` -/
structure RecordBase where
  id : String
  seq : ℕ
  lane : String
  timestamp : Int
  deriving DecidableEq

section Records

variable (δ : Type)

/-- `OperationStartedRecord["intent"]` -/
inductive OperationIntent where
  | run (initialMessages : List (ProvisionedEntry δ)) (rest : δ)
  | compaction (resultEntryId : String) (rest : δ)
  | navigation (summaryEntryId : Option String) (rest : δ)
  deriving DecidableEq

/-- `OperationStartedRecord` -/
structure OperationStartedRecord extends RecordBase where
  sourceLeafId : Option String
  intent : OperationIntent δ
  deriving DecidableEq

/-- `AbortRequestedRecord` -/
structure AbortRequestedRecord extends RecordBase where
  runId : String
  deriving DecidableEq

/-- `OperationFinishedRecord` -/
structure OperationFinishedRecord extends RecordBase where
  runId : String
  rest : δ
  deriving DecidableEq

/-- `StepAttemptRecord["step"]` -/
inductive AttemptStep where
  | assistant
  | compaction
  | branch_summary
  deriving DecidableEq

/-- `CompactionReason`, or what else a log holds in its place -/
inductive CompactionReason where
  | manual
  | threshold
  | overflow
  | unknown (reason : String)
  deriving DecidableEq

/-- `StepAttemptRecord` -/
structure StepAttemptRecord extends RecordBase where
  runId : String
  step : AttemptStep
  attempt : ℕ
  resultEntryId : String
  compactionReason : Option CompactionReason
  deriving DecidableEq

/-- `ToolStartedRecord` -/
structure ToolStartedRecord extends RecordBase where
  runId : String
  assistantEntryId : String
  toolIndex : ℕ
  toolCallId : String
  toolName : String
  resultEntryId : String
  rest : δ
  deriving DecidableEq

/-- The queue of an enqueued item; a `nextRun` item belongs to no run. -/
inductive Queue where
  | steer (runId : String)
  | followUp (runId : String)
  | nextRun
  deriving DecidableEq

/-- `QueueEnqueuedRecord` -/
structure QueueEnqueuedRecord extends RecordBase where
  queue : Queue
  target : ProvisionedEntry δ
  deriving DecidableEq

/-- `QueueCancelledRecord` -/
structure QueueCancelledRecord extends RecordBase where
  runId : Option String
  entryId : String
  deriving DecidableEq

/-- `WriteDeferredRecord` -/
structure WriteDeferredRecord extends RecordBase where
  runId : String
  target : ProvisionedEntry δ
  deriving DecidableEq

/-- `UsageRecord["cause"]` -/
inductive UsageCause where
  | assistant
  | compaction
  | branch_summary
  | deferred_fetch
  | tool
  | hook
  | adjustment
  deriving DecidableEq

/-- `UsageRecord` -/
structure UsageRecord extends RecordBase where
  cause : UsageCause
  runId : Option String
  entryId : Option String
  rest : δ
  deriving DecidableEq

/-- `LaneRecord` -/
inductive LaneRecord where
  | operation_started (record : OperationStartedRecord δ)
  | abort_requested (record : AbortRequestedRecord)
  | operation_finished (record : OperationFinishedRecord δ)
  | step_attempt (record : StepAttemptRecord)
  | tool_started (record : ToolStartedRecord δ)
  | queue_enqueued (record : QueueEnqueuedRecord δ)
  | queue_cancelled (record : QueueCancelledRecord)
  | write_deferred (record : WriteDeferredRecord δ)
  | usage (record : UsageRecord δ)
  deriving DecidableEq

end Records

/-- `intent.kind` -/
def OperationIntent.kind : OperationIntent δ → OperationKind
  | .run .. => .run
  | .compaction .. => .compaction
  | .navigation .. => .navigation

/-- `intent.initialMessages`, none unless the operation is a run -/
def OperationIntent.initialMessages : OperationIntent δ → List (ProvisionedEntry δ)
  | .run initialMessages _ => initialMessages
  | .compaction .. | .navigation .. => []

/-- `record.runId` -/
def Queue.runId : Queue → Option String
  | .steer runId | .followUp runId => some runId
  | .nextRun => none

/-- The text of `record.queue`. -/
def Queue.name : Queue → String
  | .steer _ => "steer"
  | .followUp _ => "followUp"
  | .nextRun => "nextRun"

/-- The text of `record.step`. -/
def AttemptStep.name : AttemptStep → String
  | .assistant => "assistant"
  | .compaction => "compaction"
  | .branch_summary => "branch_summary"

/-- The properties every record has. -/
def LaneRecord.base : LaneRecord δ → RecordBase
  | .operation_started record => record.toRecordBase
  | .abort_requested record => record.toRecordBase
  | .operation_finished record => record.toRecordBase
  | .step_attempt record => record.toRecordBase
  | .tool_started record => record.toRecordBase
  | .queue_enqueued record => record.toRecordBase
  | .queue_cancelled record => record.toRecordBase
  | .write_deferred record => record.toRecordBase
  | .usage record => record.toRecordBase

/-- `record.id` -/
def LaneRecord.id (record : LaneRecord δ) : String := record.base.id

/-- `record.seq` -/
def LaneRecord.seq (record : LaneRecord δ) : ℕ := record.base.seq

/-- `record.runId`, where `hasRunId(record)` -/
def LaneRecord.runId : LaneRecord δ → Option String
  | .operation_started _ => none
  | .abort_requested record => some record.runId
  | .operation_finished record => some record.runId
  | .step_attempt record => some record.runId
  | .tool_started record => some record.runId
  | .queue_enqueued record => record.queue.runId
  | .queue_cancelled record => record.runId
  | .write_deferred record => some record.runId
  | .usage record => record.runId

/-! Narrowing by `record.type` -/

section Narrow

def LaneRecord.start? : LaneRecord δ → Option (OperationStartedRecord δ)
  | .operation_started record => some record
  | _ => none

def LaneRecord.finish? : LaneRecord δ → Option (OperationFinishedRecord δ)
  | .operation_finished record => some record
  | _ => none

def LaneRecord.abort? : LaneRecord δ → Option AbortRequestedRecord
  | .abort_requested record => some record
  | _ => none

def LaneRecord.attempt? : LaneRecord δ → Option StepAttemptRecord
  | .step_attempt record => some record
  | _ => none

def LaneRecord.toolStart? : LaneRecord δ → Option (ToolStartedRecord δ)
  | .tool_started record => some record
  | _ => none

def LaneRecord.enqueue? : LaneRecord δ → Option (QueueEnqueuedRecord δ)
  | .queue_enqueued record => some record
  | _ => none

def LaneRecord.cancellation? : LaneRecord δ → Option QueueCancelledRecord
  | .queue_cancelled record => some record
  | _ => none

def LaneRecord.write? : LaneRecord δ → Option (WriteDeferredRecord δ)
  | .write_deferred record => some record
  | _ => none

def LaneRecord.usage? : LaneRecord δ → Option (UsageRecord δ)
  | .usage record => some record
  | _ => none

variable {r : LaneRecord δ}

@[simp] theorem start?_eq_some {record : OperationStartedRecord δ} :
    r.start? = some record ↔ r = .operation_started record := by
  cases r <;> simp [LaneRecord.start?]

@[simp] theorem finish?_eq_some {record : OperationFinishedRecord δ} :
    r.finish? = some record ↔ r = .operation_finished record := by
  cases r <;> simp [LaneRecord.finish?]

@[simp] theorem abort?_eq_some {record : AbortRequestedRecord} :
    r.abort? = some record ↔ r = .abort_requested record := by
  cases r <;> simp [LaneRecord.abort?]

@[simp] theorem attempt?_eq_some {record : StepAttemptRecord} :
    r.attempt? = some record ↔ r = .step_attempt record := by
  cases r <;> simp [LaneRecord.attempt?]

@[simp] theorem toolStart?_eq_some {record : ToolStartedRecord δ} :
    r.toolStart? = some record ↔ r = .tool_started record := by
  cases r <;> simp [LaneRecord.toolStart?]

@[simp] theorem enqueue?_eq_some {record : QueueEnqueuedRecord δ} :
    r.enqueue? = some record ↔ r = .queue_enqueued record := by
  cases r <;> simp [LaneRecord.enqueue?]

@[simp] theorem cancellation?_eq_some {record : QueueCancelledRecord} :
    r.cancellation? = some record ↔ r = .queue_cancelled record := by
  cases r <;> simp [LaneRecord.cancellation?]

end Narrow

/-! ## Configuration -/

/-- `EffectiveLaneConfiguration["model"]` -/
structure ModelRef where
  provider : String
  modelId : String
  deriving DecidableEq

/-- `EffectiveLaneConfiguration` -/
structure EffectiveLaneConfiguration where
  model : ModelRef
  thinkingLevel : String
  activeToolNames : List String
  deriving DecidableEq

end Mcpi.Reducer
