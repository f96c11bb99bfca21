import Mcpi.Reducer.Validate

/-!
# The reducer

`reduceLaneState` of `harness/reducer.ts`: what a lane was doing, read off its recovery slice.
It validates the slice and then computes every part of the state from the records sorted by
sequence number, those of the open operation among them, and the entries by id. `clone` is the
identity, a set is the list of what was added to it.
-/

namespace Mcpi.Reducer

open Session (EntryType OperationKind)

variable {δ : Type}

/-! ## States -/

section States

variable (δ : Type)

/-- `LaneReductionInput` -/
structure LaneReductionInput extends RecordLogSlice δ where
  leafId : Option String
  ownEntries : List (Entry δ)
  configurationEntries : List (Entry δ)
  defaults : EffectiveLaneConfiguration

/-- `TerminalFailureState["source"]` -/
inductive FailureSource where
  | step
  | deferred_fetch
  deriving DecidableEq

/-- `TerminalFailureState` -/
structure TerminalFailureState where
  entryId : String
  source : FailureSource
  message : AssistantMessage δ
  deriving DecidableEq

/-- `ToolBatchState["calls"][number]` -/
structure ToolBatchCall where
  toolIndex : ℕ
  toolCall : AgentToolCall δ
  started : Option (ToolStartedRecord δ)
  resultExists : Bool
  terminate : Bool
  deriving DecidableEq

/-- `ToolBatchState` -/
structure ToolBatchState where
  assistantEntryId : String
  calls : List (ToolBatchCall δ)
  truncated : Bool
  unresolved : Bool
  deriving DecidableEq

/-- `LaneState["operation"]["step"]` -/
structure StepState where
  kind : AttemptStep
  attempts : ℕ
  resultEntryId : String
  compactionReason : Option CompactionReason
  deriving DecidableEq

/-- `LaneState["operation"]["newestOwn"]` -/
structure NewestOwn where
  entryId : String
  type : EntryType
  role : Option String
  stopReason : Option StopReason
  deriving DecidableEq

/-- `LaneState["operation"]["targets"]` -/
structure OperationTargets where
  result : Option Bool
  summary : Option Bool
  deriving DecidableEq

/-- `LaneState["operation"]` -/
structure OperationState where
  id : String
  kind : OperationKind
  intent : OperationIntent δ
  aborting : Bool
  step : Option StepState
  toolBatch : Option (ToolBatchState δ)
  missingInitialMessages : List (ProvisionedEntry δ)
  pendingSteer : List (ProvisionedEntry δ)
  pendingFollowUp : List (ProvisionedEntry δ)
  pendingWrites : List (ProvisionedEntry δ)
  deferred : Option δ
  overflowRecoveryUsed : Bool
  newestOwn : Option NewestOwn
  targets : OperationTargets
  deriving DecidableEq

/-- `LaneState` -/
structure LaneState where
  lane : String
  leafId : Option String
  operation : Option (OperationState δ)
  pendingNextRun : List (ProvisionedEntry δ)
  deriving DecidableEq

/-- `LaneReductionResult` -/
structure LaneReductionResult where
  laneState : LaneState δ
  effectiveConfiguration : EffectiveLaneConfiguration
  terminalFailure : Option (TerminalFailureState δ)
  deriving DecidableEq

end States

/-! ## Configuration -/

/-- What an entry changes in the configuration. -/
def EffectiveLaneConfiguration.update (configuration : EffectiveLaneConfiguration)
    (entry : Entry δ) : EffectiveLaneConfiguration :=
  match entry.body with
  | .model_change provider modelId => { configuration with model := ⟨provider, modelId⟩ }
  | .thinking_level_change thinkingLevel => { configuration with thinkingLevel }
  | .active_tools_change activeToolNames => { configuration with activeToolNames }
  | .message (.assistant reply) _ =>
    { configuration with model := ⟨reply.provider, reply.model⟩ }
  | _ => configuration

def deriveEffectiveConfiguration (input : LaneReductionInput δ) : EffectiveLaneConfiguration :=
  let entries := entriesById (input.configurationEntries ++ input.ownEntries)
  (Stable.sort Entry.seq entries.values).foldl EffectiveLaneConfiguration.update input.defaults

/-! ## Records of an operation -/

/-- The records of one operation: its start, and what names it as its run. -/
def operationRecords (id : String) (records : List (LaneRecord δ)) : List (LaneRecord δ) :=
  records.filter fun
    | .operation_started record => record.id = id
    | record => record.runId = some id

/-- `records.filter((record) => record.type === "step_attempt")` -/
def stepAttempts (records : List (LaneRecord δ)) : List StepAttemptRecord :=
  records.filterMap LaneRecord.attempt?

def toolStarts (records : List (LaneRecord δ)) : List (ToolStartedRecord δ) :=
  records.filterMap LaneRecord.toolStart?

def queueEnqueues (records : List (LaneRecord δ)) : List (QueueEnqueuedRecord δ) :=
  records.filterMap LaneRecord.enqueue?

def cancelledQueueIds (records : List (LaneRecord δ)) : List String :=
  (records.filterMap LaneRecord.cancellation?).map (·.entryId)

def deferredWrites (records : List (LaneRecord δ)) : List (ProvisionedEntry δ) :=
  (records.filterMap LaneRecord.write?).map (·.target)

/-- `records.some((record) => record.type === "abort_requested")` -/
def isAborting (records : List (LaneRecord δ)) : Bool :=
  records.any fun record => record.abort?.isSome

/-! ## Queues -/

/-- `pendingQueueRecords` -/
def pendingQueueRecords (entries : EntryMap δ) (records : List (LaneRecord δ)) : List (QueueEnqueuedRecord δ) :=
  (queueEnqueues records).filter fun record =>
    !entries.has record.target.id && !(cancelledQueueIds records).contains record.target.id

/-- The targets of the pending records of one queue. -/
def pendingTargets (entries : EntryMap δ) (records : List (LaneRecord δ)) (queue : Queue) : List (ProvisionedEntry δ) :=
  ((pendingQueueRecords entries records).filter fun record => record.queue = queue).map (·.target)

/-- `capturedInitialMessageIds` -/
def capturedInitialMessageIds (started : Option (OperationStartedRecord δ)) : List String :=
  match started with
  | none => []
  | some started => started.intent.initialMessages.map (·.id)

def derivePendingNextRun (entries : EntryMap δ) (records : List (LaneRecord δ))
    (started : Option (OperationStartedRecord δ)) : List (ProvisionedEntry δ) :=
  (pendingTargets entries records .nextRun).filter fun target =>
    !(capturedInitialMessageIds started).contains target.id

/-- The targets that are not entries yet. -/
def missing (entries : EntryMap δ) (targets : List (ProvisionedEntry δ)) : List (ProvisionedEntry δ) :=
  targets.filter fun target => !entries.has target.id

/-! ## The current step -/

def deriveStep (entries : EntryMap δ) (records : List (LaneRecord δ)) : Option StepState :=
  match (stepAttempts records).getLast? with
  | none => none
  | some newestAttempt =>
    if entries.has newestAttempt.resultEntryId then none
    else some {
      kind := newestAttempt.step
      attempts := newestAttempt.attempt
      resultEntryId := newestAttempt.resultEntryId
      compactionReason :=
        if newestAttempt.step = .compaction then newestAttempt.compactionReason else none }

/-- `consumedInputIds` -/
def consumedInputIds (started : OperationStartedRecord δ) (records : List (LaneRecord δ)) : List String :=
  started.intent.initialMessages.map (·.id) ++
    ((queueEnqueues records).filter fun record => record.queue ≠ .nextRun).map (·.target.id)

/-- `none` is negative infinity. -/
def newestConsumedInputSequence (entries : EntryMap δ) (consumed : List String) : Option ℕ :=
  (consumed.filterMap fun id =>
    ((entries.get? id).filter fun entry => entry.body.type = .message).map Entry.seq).max?

def deriveOverflowRecoveryUsed (entries : EntryMap δ) (started : OperationStartedRecord δ)
    (records : List (LaneRecord δ)) : Bool :=
  let newest := newestConsumedInputSequence entries (consumedInputIds started records)
  (stepAttempts records).any fun record =>
    record.step = .compaction && record.compactionReason = some .overflow && newest.all fun seq => seq < record.seq

/-! ## The newest entries -/

def deriveNewestOwn (entry : Option (Entry δ)) : Option NewestOwn :=
  entry.map fun entry =>
    match entry.body with
    | .message (.assistant reply) _ =>
      ⟨entry.id, .message, some "assistant", some reply.stopReason⟩
    | .message message _ => ⟨entry.id, .message, some message.role, none⟩
    | body => ⟨entry.id, body.type, none, none⟩

/-- The assistant message of an entry that ended for this reason. -/
def stoppedAssistant? (stopReason : StopReason) (entry : Option (Entry δ)) : Option (AssistantMessage δ) :=
  (entry.bind fun entry => entry.body.assistant?).filter fun message =>
    message.stopReason = stopReason

def deriveTerminalFailure (records : List (LaneRecord δ)) (ownEntries : List (Entry δ)) :
    Option (TerminalFailureState δ) :=
  match ownEntries.getLast? with
  | none => none
  | some newest =>
    match stoppedAssistant? .error (some newest) with
    | none => none
    | some message =>
      let producedByStep := (stepAttempts records).any fun record =>
        record.resultEntryId = newest.id
      let producedByDeferredFetch :=
        (records.any fun record => record.usage?.any fun usage =>
          usage.cause = .deferred_fetch && usage.entryId = some newest.id) ||
        (stoppedAssistant? .deferred ownEntries.dropLast.getLast?).isSome
      if ((deferredWrites records).map (·.id)).contains newest.id then none
      else if producedByStep then some ⟨newest.id, .step, message⟩
      else if producedByDeferredFetch then some ⟨newest.id, .deferred_fetch, message⟩
      else none

/-! ## The tool batch -/

/-- `entry.terminate === true` -/
def EntryBody.terminates : EntryBody δ → Bool
  | .message _ terminate => terminate
  | _ => false

/-- The newest own entry with tool calls, and its message. -/
def toolBatchEntry? (ownEntries : List (Entry δ)) : Option (Entry δ × AssistantMessage δ) :=
  ownEntries.reverse.findSome? fun entry =>
    (entry.body.assistant?.filter fun message => !message.toolCalls.isEmpty).map (entry, ·)

/-- `starts`, by tool index -/
def batchStarts (assistantEntryId : String) (records : List (LaneRecord δ)) : OrderedMap ℕ (ToolStartedRecord δ) :=
  OrderedMap.ofValues (fun record => record.toolIndex)
    ((toolStarts records).filter fun record => record.assistantEntryId = assistantEntryId)

/-- `blockedResult`: a result in the lane that no deferred write has put there. -/
def blockedResult? (ownEntries : List (Entry δ)) (deferredWriteIds : List String) (after : ℕ)
    (toolCall : AgentToolCall δ) : Option (Entry δ) :=
  ownEntries.find? fun entry =>
    after < entry.seq && !deferredWriteIds.contains entry.id &&
      entry.body.toolResult?.any fun message => message.toolCallId = toolCall.id

def deriveToolBatch (records : List (LaneRecord δ)) (ownEntries : List (Entry δ))
    (entries : EntryMap δ) (deferredWriteIds : List String) : Option (ToolBatchState δ) :=
  match toolBatchEntry? ownEntries with
  | none => none
  | some (assistantEntry, message) =>
    let starts := batchStarts assistantEntry.id records
    let calls := message.toolCalls.mapIdx fun toolIndex toolCall =>
      let started := starts.get? toolIndex
      let startedResult := started.bind fun record => entries.get? record.resultEntryId
      let result :=
        startedResult <|> blockedResult? ownEntries deferredWriteIds assistantEntry.seq toolCall
      { toolIndex, toolCall, started, resultExists := result.isSome,
        terminate := result.any fun entry => entry.body.terminates }
    some {
      assistantEntryId := assistantEntry.id
      calls
      truncated := message.stopReason = .length
      unresolved := calls.any fun call => !call.resultExists }

/-! ## The lane -/

def deriveTargets (entries : EntryMap δ) : OperationIntent δ → OperationTargets
  | .run .. => ⟨none, none⟩
  | .compaction resultEntryId _ => ⟨some (entries.has resultEntryId), none⟩
  | .navigation none _ | .navigation (some "") _ => ⟨none, none⟩
  | .navigation (some summaryEntryId) _ => ⟨none, some (entries.has summaryEntryId)⟩

/-- `laneState.operation`; the records are those of the lane in order. -/
def deriveOperation (entries : EntryMap δ) (records : List (LaneRecord δ))
    (ownEntries : List (Entry δ)) (started : OperationStartedRecord δ) : OperationState δ :=
  let own := operationRecords started.id records
  let aborting := isAborting own
  let newest := ownEntries.getLast?
  { id := started.id
    kind := started.intent.kind
    intent := started.intent
    aborting
    step := deriveStep entries own
    toolBatch := deriveToolBatch own ownEntries entries ((deferredWrites own).map (·.id))
    missingInitialMessages := missing entries started.intent.initialMessages
    pendingSteer := if aborting then [] else pendingTargets entries records (.steer started.id)
    pendingFollowUp :=
      if aborting then [] else pendingTargets entries records (.followUp started.id)
    pendingWrites := missing entries (deferredWrites own)
    deferred := (stoppedAssistant? .deferred newest).bind (·.deferred)
    overflowRecoveryUsed := deriveOverflowRecoveryUsed entries started own
    newestOwn := deriveNewestOwn newest
    targets := deriveTargets entries started.intent }

/-- What `reduceLaneState` returns for a slice that is valid. -/
def deriveLaneState (input : LaneReductionInput δ) : LaneReductionResult δ :=
  let records := Stable.sort LaneRecord.seq input.records
  let ownEntries := Stable.sort Entry.seq input.ownEntries
  let entries := entriesById (input.entries ++ ownEntries)
  let started := input.openOperations.head?
  { laneState := {
      lane := input.lane
      leafId := input.leafId
      operation := started.map (deriveOperation entries records ownEntries)
      pendingNextRun := derivePendingNextRun entries records started }
    effectiveConfiguration := deriveEffectiveConfiguration input
    terminalFailure := started.bind fun started =>
      deriveTerminalFailure (operationRecords started.id records) ownEntries }

/-- `reduceLaneState` -/
def reduceLaneState [DecidableEq δ] (input : LaneReductionInput δ) :
    Except RecordLogCorruption (LaneReductionResult δ) := do
  validateRecordLog input.toRecordLogSlice
  pure (deriveLaneState input)

end Mcpi.Reducer
