import Mcpi.Lib.Except
import Mcpi.Lib.Stable
import Mcpi.Reducer.Types

/-!
# The recovery validator

`validateRecordLog` of `harness/reducer.ts`. It walks the lane records in the order of their
sequence numbers with six maps, and checks every record against the maps of the records before
it and against the entries, which it looks up by id.
-/

namespace Mcpi.Reducer

variable {δ : Type}

/-- `RecordLogCorruptionReason` -/
inductive RecordLogCorruptionReason where
  | multiple_open_operations
  | unknown_operation
  | record_after_finish
  | non_consecutive_attempt
  | invalid_compaction_reason
  | queue_after_abort
  | invalid_queue_cancellation
  | inconsistent_step
  | tool_call_mismatch
  | duplicate_tool_invocation
  | provisioned_entry_mismatch
  | invalid_deferred_handle
  deriving DecidableEq

/-- `RecordLogCorruption` -/
structure RecordLogCorruption where
  reason : RecordLogCorruptionReason
  message : String
  deriving DecidableEq

def corrupt {α : Type} (reason : RecordLogCorruptionReason) (message : String) : Except RecordLogCorruption α :=
  .error ⟨reason, message⟩

/-- `RecordLogSlice` -/
structure RecordLogSlice (δ : Type) where
  lane : String
  openOperations : List (OperationStartedRecord δ)
  records : List (LaneRecord δ)
  entries : List (Entry δ)

/-! ## Entries -/

abbrev EntryMap (δ : Type) := OrderedMap String (Entry δ)

/-- `new Map(entries.map((entry) => [entry.id, entry]))` -/
def entriesById (entries : List (Entry δ)) : EntryMap δ :=
  OrderedMap.ofValues (fun entry => entry.id) entries

def matchesProvisionedEntry [DecidableEq δ] (entry : Entry δ) (target : ProvisionedEntry δ) :
    Bool :=
  entry.toProvisionedEntry = target

def validateExactProvisionedEntry [DecidableEq δ] (entries : EntryMap δ)
    (target : ProvisionedEntry δ) : Except RecordLogCorruption Unit :=
  match entries.get? target.id with
  | none => .ok ()
  | some entry =>
    if matchesProvisionedEntry entry target then .ok ()
    else corrupt .provisioned_entry_mismatch
      s!"Provisioned entry {target.id} exists with content different from its intent"

def validateResultEntry (entries : EntryMap δ) (resultEntryId : String)
    (accepted : Entry δ → Bool) (description : String) : Except RecordLogCorruption Unit :=
  match entries.get? resultEntryId with
  | none => .ok ()
  | some entry =>
    if accepted entry then .ok ()
    else corrupt .provisioned_entry_mismatch
      s!"Provisioned {description} entry {resultEntryId} exists with different content"

/-- A deferred assistant message without a handle -/
def lacksHandle (entry : Entry δ) : Bool :=
  entry.body.assistant?.any fun message =>
    message.stopReason = .deferred && message.deferred.isNone

def validateDeferredHandles (entries : List (Entry δ)) : Except RecordLogCorruption Unit :=
  match entries with
  | [] => .ok ()
  | entry :: entries =>
    if lacksHandle entry then
      corrupt .invalid_deferred_handle s!"Deferred assistant entry {entry.id} does not carry a handle"
    else validateDeferredHandles entries

/-! ## Step attempts -/

def validateAttemptReason (record : StepAttemptRecord) : Except RecordLogCorruption Unit :=
  match record.step, record.compactionReason with
  | .compaction, some .manual | .compaction, some .threshold | .compaction, some .overflow => .ok ()
  | .compaction, _ =>
    corrupt .invalid_compaction_reason s!"Compaction attempt {record.id} has no valid compaction reason"
  | _, none => .ok ()
  | step, some _ =>
    corrupt .invalid_compaction_reason s!"{step.name} attempt {record.id} has a compaction reason"

/-- `continuesSeries`: the step has not produced its result before this attempt. -/
def continuesSeries (entries : EntryMap δ) (record previous : StepAttemptRecord) : Bool :=
  previous.step = record.step &&
    (entries.get? previous.resultEntryId).all fun previousResult => record.seq ≤ previousResult.seq

def validateAttemptSequence (record : StepAttemptRecord) (previous : Option StepAttemptRecord)
    (entries : EntryMap δ) : Except RecordLogCorruption Unit :=
  match previous.filter (continuesSeries entries record) with
  | none =>
    if record.attempt = 1 then .ok ()
    else corrupt .non_consecutive_attempt s!"{record.step.name} attempt {record.id} is {record.attempt}; expected 1"
  | some previous =>
    if record.attempt ≠ previous.attempt + 1 then
      corrupt .non_consecutive_attempt
        s!"{record.step.name} attempt {record.id} is {record.attempt}; expected {previous.attempt + 1}"
    else if record.step = .assistant then .ok ()
    else if record.resultEntryId ≠ previous.resultEntryId then
      corrupt .inconsistent_step s!"{record.step.name} attempts disagree on their result entry id"
    else if record.compactionReason ≠ previous.compactionReason then
      corrupt .inconsistent_step s!"{record.step.name} attempts disagree on their compaction reason"
    else .ok ()

def validateAttemptResult (entries : EntryMap δ) (record : StepAttemptRecord) : Except RecordLogCorruption Unit :=
  match record.step with
  | .assistant =>
    validateResultEntry entries record.resultEntryId (fun entry => entry.body.assistant?.isSome) "assistant result"
  | .compaction =>
    validateResultEntry entries record.resultEntryId (fun entry => entry.body.type = .compaction) "compaction result"
  | .branch_summary =>
    validateResultEntry entries record.resultEntryId
      (fun entry => entry.body.type = .branch_summary) "branch-summary result"

/-! ## Tools and operations -/

/-- The call a tool start names, in the assistant entry it names. -/
def referencedCall? (entries : EntryMap δ) (record : ToolStartedRecord δ) :
    Except RecordLogCorruption (Option (AgentToolCall δ)) :=
  match (entries.get? record.assistantEntryId).bind (·.body.assistant?) with
  | none =>
    corrupt .tool_call_mismatch s!"Tool start {record.id} does not reference an assistant entry"
  | some message => .ok message.toolCalls[record.toolIndex]?

/-- The set of invocations has the keys `${assistantEntryId}\u0000${toolIndex}`; the index has no
zero character, so these are pairs. -/
def validateToolStart (record : ToolStartedRecord δ) (entries : EntryMap δ)
    (invocations : List (String × ℕ)) : Except RecordLogCorruption Unit :=
  if (record.assistantEntryId, record.toolIndex) ∈ invocations then
    corrupt .duplicate_tool_invocation s!"Tool invocation {record.assistantEntryId}:{record.toolIndex} is duplicated"
  else do
    let toolCall ← referencedCall? entries record
    if toolCall.all fun call => call.id ≠ record.toolCallId || call.name ≠ record.toolName then
      corrupt .tool_call_mismatch s!"Tool start {record.id} does not match its assistant tool-call ordinal"
    else
      validateResultEntry entries record.resultEntryId (fun entry => entry.body.toolResult?.any fun message =>
          message.toolCallId = record.toolCallId && message.toolName = record.toolName)
        "tool result"

/-- `for (const target of targets) validateExactProvisionedEntry(entriesById, target)` -/
def validateTargets [DecidableEq δ] (entries : EntryMap δ) :
    List (ProvisionedEntry δ) → Except RecordLogCorruption Unit
  | [] => .ok ()
  | target :: targets => do
      validateExactProvisionedEntry entries target
      validateTargets entries targets

def validateOperationResult [DecidableEq δ] (entries : EntryMap δ)
    (record : OperationStartedRecord δ) : Except RecordLogCorruption Unit :=
  match record.intent with
  | .run initialMessages _ => validateTargets entries initialMessages
  | .compaction resultEntryId _ =>
    validateResultEntry entries resultEntryId (fun entry => entry.body.type = .compaction) "manual compaction"
  | .navigation summaryEntryId _ =>
    match summaryEntryId with
    -- an empty id is falsy
    | none | some "" => .ok ()
    | some summaryEntryId =>
      validateResultEntry entries summaryEntryId (fun entry => entry.body.type = .branch_summary) "navigation summary"

/-! ## The log -/

/-- The maps of `validateRecordLog`. -/
structure LogState (δ : Type) where
  starts : OrderedMap String (OperationStartedRecord δ)
  finishedAt : OrderedMap String ℕ
  abortedAt : OrderedMap String ℕ
  queueEnqueues : OrderedMap String (QueueEnqueuedRecord δ)
  latestAttempt : OrderedMap String StepAttemptRecord
  toolInvocations : List (String × ℕ)

def LogState.initial : LogState δ := ⟨.empty, .empty, .empty, .empty, .empty, []⟩

/-- What a record sets in the maps. -/
def LogState.push (state : LogState δ) : LaneRecord δ → LogState δ
  | .operation_started record => { state with starts := state.starts.set record.id record }
  | .operation_finished record =>
    { state with finishedAt := state.finishedAt.set record.runId record.seq }
  | .abort_requested record =>
    { state with abortedAt := state.abortedAt.set record.runId record.seq }
  | .step_attempt record =>
    { state with latestAttempt := state.latestAttempt.set record.runId record }
  | .tool_started record =>
    { state with
      toolInvocations := (record.assistantEntryId, record.toolIndex) :: state.toolInvocations }
  | .queue_enqueued record =>
    { state with queueEnqueues := state.queueEnqueues.set record.target.id record }
  | .queue_cancelled _ | .write_deferred _ | .usage _ => state

/-- The checks on the operation a record names. -/
def validateRunId (state : LogState δ) (record : LaneRecord δ) : Except RecordLogCorruption Unit :=
  match record.runId with
  | none => .ok ()
  | some runId =>
    if ¬state.starts.has runId then
      corrupt .unknown_operation s!"Record {record.id} references unknown operation {runId}"
    else if (state.finishedAt.get? runId).any fun finishSeq => finishSeq < record.seq then
      corrupt .record_after_finish s!"Record {record.id} follows the finish of operation {runId}"
    else .ok ()

/-- `record.seq > abortedAt.get(record.runId)` -/
def enqueuedAfterAbort (state : LogState δ) (record : QueueEnqueuedRecord δ) : Bool :=
  (record.queue.runId.bind state.abortedAt.get?).any fun abortSeq => abortSeq < record.seq

/-- A cancellation finds its enqueue, and the item has not become an entry. -/
def cancelsPending (entries : EntryMap δ) (state : LogState δ) (record : QueueCancelledRecord) :
    Bool :=
  (state.queueEnqueues.get? record.entryId).any (fun enqueue =>
    enqueue.seq < record.seq && enqueue.queue.runId = record.runId) &&
  !entries.has record.entryId

/-- The body of the loop, less the maps it sets. -/
def validateRecord [DecidableEq δ] (entries : EntryMap δ) (state : LogState δ)
    (record : LaneRecord δ) : Except RecordLogCorruption Unit := do
  validateRunId state record
  match record with
  | .operation_started record => validateOperationResult entries record
  | .operation_finished _ | .abort_requested _ | .usage _ => .ok ()
  | .step_attempt record =>
    validateAttemptReason record
    validateAttemptSequence record (state.latestAttempt.get? record.runId) entries
    validateAttemptResult entries record
  | .tool_started record => validateToolStart record entries state.toolInvocations
  | .queue_enqueued record =>
    if enqueuedAfterAbort state record then
      corrupt .queue_after_abort s!"{record.queue.name} item {record.target.id} was enqueued after abort"
    else validateExactProvisionedEntry entries record.target
  | .queue_cancelled record =>
    if cancelsPending entries state record then .ok ()
    else
      corrupt .invalid_queue_cancellation s!"Queue cancellation {record.id} has no pending matching enqueue"
  | .write_deferred record => validateExactProvisionedEntry entries record.target

/-- `for (const record of records)` -/
def validateRecords [DecidableEq δ] (entries : EntryMap δ) (state : LogState δ) :
    List (LaneRecord δ) → Except RecordLogCorruption Unit
  | [] => .ok ()
  | record :: records => do
      validateRecord entries state record
      validateRecords entries (state.push record) records

/-- `validateRecordLog` -/
def validateRecordLog [DecidableEq δ] (input : RecordLogSlice δ) : Except RecordLogCorruption Unit :=
  if input.openOperations.length > 1 then
    corrupt .multiple_open_operations s!"Lane {input.lane} has at least two open operations"
  else do
    let entries := entriesById input.entries
    validateDeferredHandles entries.values
    validateRecords entries LogState.initial (Stable.sort LaneRecord.seq input.records)

end Mcpi.Reducer
