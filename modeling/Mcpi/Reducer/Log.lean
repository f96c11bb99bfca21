import Mcpi.Reducer.Reduce

/-!
# What the validator accepts

A slice is accepted if every record is, with the maps of the records before it. Each check says
something about the entries it looks up, and each map holds under a key the last record that set
it.
-/

namespace Mcpi.Reducer

variable {δ : Type}

/-! ## Looking up entries -/

variable {id : String}

theorem entriesById_get? {entries : List (Entry δ)} (h : (entries.map (·.id)).Nodup) {entry : Entry δ} :
    (entriesById entries).get? id = some entry ↔ entry ∈ entries ∧ entry.id = id :=
  OrderedMap.get?_ofValues_eq_some h

theorem entriesById_has {entries : List (Entry δ)} :
    (entriesById entries).has id = true ↔ ∃ entry ∈ entries, entry.id = id :=
  OrderedMap.has_ofValues

theorem entriesById_get?_none {entries : List (Entry δ)}
    (h : ∀ entry ∈ entries, entry.id ≠ id) : (entriesById entries).get? id = none := by
  cases hget : (entriesById entries).get? id with
  | none => rfl
  | some entry =>
    have hhas : (entriesById entries).has id = true := OrderedMap.has_iff.mpr ⟨entry, hget⟩
    obtain ⟨entry', hmem, hid⟩ := entriesById_has.mp hhas
    exact absurd hid (h entry' hmem)

/-! ## Checks -/

theorem validateExactProvisionedEntry_ok [DecidableEq δ] {entries : EntryMap δ} {target : ProvisionedEntry δ} :
    validateExactProvisionedEntry entries target = .ok () ↔
      ∀ entry, entries.get? target.id = some entry → entry.toProvisionedEntry = target := by
  unfold validateExactProvisionedEntry
  cases entries.get? target.id with
  | none => simp
  | some entry =>
    by_cases hmatch : entry.toProvisionedEntry = target
    · simp [matchesProvisionedEntry, hmatch]
    · simp [matchesProvisionedEntry, hmatch, corrupt]

theorem validateResultEntry_ok {entries : EntryMap δ} {resultEntryId : String}
    {accepted : Entry δ → Bool} {description : String} :
    validateResultEntry entries resultEntryId accepted description = .ok () ↔
      ∀ entry, entries.get? resultEntryId = some entry → accepted entry = true := by
  unfold validateResultEntry
  cases entries.get? resultEntryId with
  | none => simp
  | some entry => by_cases haccepted : accepted entry = true <;> simp [haccepted, corrupt]

theorem validateDeferredHandles_ok {entries : List (Entry δ)} :
    validateDeferredHandles entries = .ok () ↔ ∀ entry ∈ entries, lacksHandle entry = false := by
  induction entries with
  | nil => simp [validateDeferredHandles]
  | cons entry entries ih =>
    by_cases hlacks : lacksHandle entry = true
    · simp [validateDeferredHandles, hlacks, corrupt]
    · simp [validateDeferredHandles, hlacks, ih]

theorem validateTargets_ok [DecidableEq δ] {entries : EntryMap δ} {targets : List (ProvisionedEntry δ)} :
    validateTargets entries targets = .ok () ↔
      ∀ target ∈ targets, validateExactProvisionedEntry entries target = .ok () := by
  induction targets with
  | nil => simp [validateTargets]
  | cons target targets ih =>
    rw [validateTargets, Except.bind_ok, List.forall_mem_cons, ← ih]
    exact ⟨fun ⟨_, h, h'⟩ => ⟨h, h'⟩, fun ⟨h, h'⟩ => ⟨(), h, h'⟩⟩

variable {state : LogState δ} {record : LaneRecord δ}

theorem validateRunId_ok :
    validateRunId state record = .ok () ↔ ∀ runId, record.runId = some runId → state.starts.has runId = true ∧
          ∀ finishSeq, state.finishedAt.get? runId = some finishSeq → record.seq ≤ finishSeq := by
  unfold validateRunId
  cases record.runId with
  | none => simp
  | some runId =>
    by_cases hstart : state.starts.has runId = true
    · cases hfinish : state.finishedAt.get? runId with
      | none => simp [hstart, hfinish]
      | some finishSeq =>
        by_cases hafter : finishSeq < record.seq
        · simp [hstart, hfinish, hafter, corrupt]
        · simp [hstart, hfinish, hafter, not_lt.mp hafter]
    · simp [hstart, corrupt]

/-- The call a tool start names exists, and nothing else has its result's id. -/
structure StartsCall (entries : EntryMap δ) (record : ToolStartedRecord δ) (entry : Entry δ)
    (message : AssistantMessage δ) (call : AgentToolCall δ) : Prop where
  found : entries.get? record.assistantEntryId = some entry
  assistant : entry.body.assistant? = some message
  ordinal : message.toolCalls[record.toolIndex]? = some call
  id : call.id = record.toolCallId
  name : call.name = record.toolName
  result : ∀ result, entries.get? record.resultEntryId = some result →
    ∃ message, result.body.toolResult? = some message ∧
      message.toolCallId = record.toolCallId ∧ message.toolName = record.toolName

theorem validateToolStart_ok {entries : EntryMap δ} {record : ToolStartedRecord δ} {invocations : List (String × ℕ)} :
    validateToolStart record entries invocations = .ok () ↔ (record.assistantEntryId, record.toolIndex) ∉ invocations ∧
        ∃ entry message call, StartsCall entries record entry message call := by
  unfold validateToolStart
  rw [Except.guard_ok (by nofun), Except.bind_ok]
  refine and_congr_right fun _ => ⟨?_, ?_⟩
  · rintro ⟨toolCall, hcall, hok⟩
    obtain ⟨hmatch, hexpected⟩ := (Except.guard_ok (by nofun)).mp hok
    rw [validateResultEntry_ok] at hexpected
    unfold referencedCall? at hcall
    cases hentry : entries.get? record.assistantEntryId with
    | none => simp [hentry, corrupt] at hcall
    | some entry =>
      cases hmessage : entry.body.assistant? with
      | none => simp [hentry, hmessage, corrupt] at hcall
      | some message =>
        rw [hentry, Option.bind_some, hmessage] at hcall
        cases hcall
        cases hindex : message.toolCalls[record.toolIndex]? with
        | none => simp [hindex] at hmatch
        | some call =>
          simp only [hindex, Option.all_some, Bool.or_eq_true, decide_eq_true_eq, not_or, not_not] at hmatch
          refine ⟨entry, message, call, hentry, hmessage, hindex, hmatch.1, hmatch.2, ?_⟩
          intro result hresult
          simpa [Option.any_eq_true] using hexpected result hresult
  · rintro ⟨entry, message, call, hstart⟩
    refine ⟨some call, ?_, (Except.guard_ok (by nofun)).mpr ⟨?_, ?_⟩⟩
    · unfold referencedCall?
      rw [hstart.found, Option.bind_some, hstart.assistant]
      exact congrArg Except.ok hstart.ordinal
    · simp [hstart.id, hstart.name]
    · rw [validateResultEntry_ok]
      intro result hresult
      simpa [Option.any_eq_true] using hstart.result result hresult

/-! ## Records in order -/

theorem validateRecords_cons [DecidableEq δ] {entries : EntryMap δ} {records : List (LaneRecord δ)} :
    validateRecords entries state (record :: records) = .ok () ↔ validateRecord entries state record = .ok () ∧
        validateRecords entries (state.push record) records = .ok () := by
  rw [validateRecords, Except.bind_ok]
  exact ⟨fun ⟨_, h, h'⟩ => ⟨h, h'⟩, fun ⟨h, h'⟩ => ⟨(), h, h'⟩⟩

theorem validateRecords_append [DecidableEq δ] {entries : EntryMap δ} {before after : List (LaneRecord δ)} :
    validateRecords entries state (before ++ after) = .ok () ↔ validateRecords entries state before = .ok () ∧
        validateRecords entries (before.foldl LogState.push state) after = .ok () := by
  induction before generalizing state with
  | nil => simp [validateRecords]
  | cons record before ih =>
    rw [List.cons_append, validateRecords_cons, validateRecords_cons, ih, and_assoc, List.foldl_cons]

/-- The maps after these records. -/
def stateAfter (records : List (LaneRecord δ)) : LogState δ :=
  records.foldl LogState.push LogState.initial

/-- Every record of an accepted log passed its checks. -/
theorem validateRecord_of_mem [DecidableEq δ] {entries : EntryMap δ} {records : List (LaneRecord δ)}
    (h : validateRecords entries LogState.initial records = .ok ()) (hmem : record ∈ records) :
    ∃ before after, records = before ++ record :: after ∧
      validateRecord entries (stateAfter before) record = .ok () := by
  obtain ⟨before, after, rfl⟩ := List.append_of_mem hmem
  rw [validateRecords_append, validateRecords_cons] at h
  exact ⟨before, after, rfl, h.2.1⟩

/-- What implies every record's check implies that of the log. -/
theorem validateRecords_mono [DecidableEq δ] {entries entries' : EntryMap δ} {records : List (LaneRecord δ)}
    (hrecord : ∀ record ∈ records, ∀ state, validateRecord entries state record = .ok () →
      validateRecord entries' state record = .ok ())
    (h : validateRecords entries state records = .ok ()) :
    validateRecords entries' state records = .ok () := by
  induction records generalizing state with
  | nil => rfl
  | cons record records ih =>
    rw [validateRecords_cons] at h ⊢
    refine ⟨hrecord record List.mem_cons_self state h.1, ?_⟩
    exact ih (fun r hr => hrecord r (List.mem_cons_of_mem _ hr)) h.2

/-- An accepted slice has one open operation at most, its deferred messages have handles, and its
records pass in order. -/
theorem validateRecordLog_ok [DecidableEq δ] {input : RecordLogSlice δ} :
    validateRecordLog input = .ok () ↔ input.openOperations.length ≤ 1 ∧
        (∀ entry ∈ (entriesById input.entries).values, lacksHandle entry = false) ∧
        validateRecords (entriesById input.entries) LogState.initial
          (Stable.sort LaneRecord.seq input.records) = .ok () := by
  unfold validateRecordLog
  rw [Except.guard_ok (by nofun), Except.bind_ok, not_lt, ← validateDeferredHandles_ok]
  exact and_congr_right fun _ => ⟨fun ⟨_, h, h'⟩ => ⟨h, h'⟩, fun ⟨h, h'⟩ => ⟨(), h, h'⟩⟩

/-! ## The maps -/

def operationStarts (records : List (LaneRecord δ)) : List (OperationStartedRecord δ) :=
  records.filterMap LaneRecord.start?

def operationFinishes (records : List (LaneRecord δ)) : List (OperationFinishedRecord δ) :=
  records.filterMap LaneRecord.finish?

def abortRequests (records : List (LaneRecord δ)) : List AbortRequestedRecord :=
  records.filterMap LaneRecord.abort?

section Members

variable {records : List (LaneRecord δ)}

@[simp] theorem mem_operationStarts {record : OperationStartedRecord δ} :
    record ∈ operationStarts records ↔ .operation_started record ∈ records := by
  simp [operationStarts]

@[simp] theorem mem_operationFinishes {record : OperationFinishedRecord δ} :
    record ∈ operationFinishes records ↔ .operation_finished record ∈ records := by
  simp [operationFinishes]

@[simp] theorem mem_abortRequests {record : AbortRequestedRecord} :
    record ∈ abortRequests records ↔ .abort_requested record ∈ records := by
  simp [abortRequests]

@[simp] theorem mem_stepAttempts {record : StepAttemptRecord} :
    record ∈ stepAttempts records ↔ .step_attempt record ∈ records := by
  simp [stepAttempts]

@[simp] theorem mem_toolStarts {record : ToolStartedRecord δ} :
    record ∈ toolStarts records ↔ .tool_started record ∈ records := by
  simp [toolStarts]

@[simp] theorem mem_queueEnqueues {record : QueueEnqueuedRecord δ} :
    record ∈ queueEnqueues records ↔ .queue_enqueued record ∈ records := by
  simp [queueEnqueues]

@[simp] theorem mem_cancelledQueueIds :
    id ∈ cancelledQueueIds records ↔
      ∃ record : QueueCancelledRecord, .queue_cancelled record ∈ records ∧ record.entryId = id := by
  simp [cancelledQueueIds]

end Members

/-! Under each key lies what the last record with this key has set. -/

theorem stateAfter_starts (records : List (LaneRecord δ)) (id : String) :
    (stateAfter records).starts.get? id = ((operationStarts records).filter fun record => record.id = id).getLast? :=
  (OrderedMap.get?_scan (by intro _ r; cases r <;> rfl) rfl records).trans Option.map_id'

theorem stateAfter_finishedAt (records : List (LaneRecord δ)) (runId : String) :
    (stateAfter records).finishedAt.get? runId =
      ((operationFinishes records).filter fun record => record.runId = runId).getLast?.map
        fun record => record.seq :=
  OrderedMap.get?_scan (by intro _ r; cases r <;> rfl) rfl records

theorem stateAfter_abortedAt (records : List (LaneRecord δ)) (runId : String) :
    (stateAfter records).abortedAt.get? runId =
      ((abortRequests records).filter fun record => record.runId = runId).getLast?.map fun record => record.seq :=
  OrderedMap.get?_scan (by intro _ r; cases r <;> rfl) rfl records

theorem stateAfter_queueEnqueues (records : List (LaneRecord δ)) (id : String) :
    (stateAfter records).queueEnqueues.get? id =
      ((queueEnqueues records).filter fun record => record.target.id = id).getLast? :=
  (OrderedMap.get?_scan (by intro _ r; cases r <;> rfl) rfl records).trans Option.map_id'

theorem stateAfter_latestAttempt (records : List (LaneRecord δ)) (runId : String) :
    (stateAfter records).latestAttempt.get? runId =
      ((stepAttempts records).filter fun record => record.runId = runId).getLast? :=
  (OrderedMap.get?_scan (by intro _ r; cases r <;> rfl) rfl records).trans Option.map_id'

theorem stateAfter_toolInvocations (records : List (LaneRecord δ)) (invocation : String × ℕ) :
    invocation ∈ (stateAfter records).toolInvocations ↔
      ∃ record ∈ toolStarts records, (record.assistantEntryId, record.toolIndex) = invocation := by
  induction records using List.reverseRecOn with
  | nil => simp [stateAfter, LogState.initial, toolStarts]
  | append_singleton records r ih =>
    have hstate : stateAfter (records ++ [r]) = (stateAfter records).push r := by
      rw [stateAfter, List.foldl_append]
      rfl
    have hstarts : toolStarts (records ++ [r]) = toolStarts records ++ r.toolStart?.toList := by
      rw [toolStarts, List.filterMap_append]
      cases r <;> rfl
    rw [hstate, hstarts]
    cases r with
    | tool_started record =>
      simp only [LaneRecord.toolStart?, Option.toList_some, List.mem_append, List.mem_singleton,
        or_and_right, exists_or, exists_eq_left, ← ih]
      show invocation ∈ (_ :: _ : List (String × ℕ)) ↔ _
      rw [List.mem_cons, or_comm, eq_comm]
    | _ => simpa [LaneRecord.toolStart?, LogState.push] using ih

/-- An operation has started once its start is among the records. -/
theorem stateAfter_started {records : List (LaneRecord δ)} :
    (stateAfter records).starts.has id = true ↔
      ∃ record : OperationStartedRecord δ, .operation_started record ∈ records ∧ record.id = id := by
  rw [OrderedMap.has, stateAfter_starts, List.getLast?_isSome]
  simp [List.filter_eq_nil_iff]

end Mcpi.Reducer
