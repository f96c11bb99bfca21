import Mcpi.Reducer.Prefixes
import Mcpi.Reducer.Queues

/-!
# Continuations of an open operation

A restored operation goes on by appending one of the records its state describes. The reducer
read the state off the records of the operation alone and the validator checks the new record
against maps of the whole log; a record the state describes is one the validator accepts.
-/

namespace Mcpi.Reducer

variable {δ : Type}

/-! ## Statement -/

/-- A step attempt as its type has it: only compactions have a reason. -/
def StepAttemptRecord.Typed (record : StepAttemptRecord) : Prop :=
  match record.step with
  | .compaction =>
    record.compactionReason ∈ [some .manual, some .threshold, some .overflow]
  | .assistant | .branch_summary => record.compactionReason = none

/-- The records that continue an open operation -/
inductive Continuation (state : LaneState δ) (operation : OperationState δ)
    (entries : List (Entry δ)) : LaneRecord δ → Prop
  | retry {step : StepState} {record : StepAttemptRecord}
      (hstep : operation.step = some step) (hrun : record.runId = operation.id)
      (hkind : record.step = step.kind) (hattempt : record.attempt = step.attempts + 1)
      (hresult : record.resultEntryId = step.resultEntryId)
      (hreason : record.compactionReason = step.compactionReason) :
      Continuation state operation entries (.step_attempt record)
  | attempt {record : StepAttemptRecord}
      (hstep : operation.step = none) (hrun : record.runId = operation.id)
      (hattempt : record.attempt = 1) (htyped : record.Typed)
      (hfresh : ¬ Materialized entries record.resultEntryId) :
      Continuation state operation entries (.step_attempt record)
  | toolStart {batch : ToolBatchState δ} {call : ToolBatchCall δ} {record : ToolStartedRecord δ}
      (hbatch : operation.toolBatch = some batch) (hcall : call ∈ batch.calls)
      (hstarted : call.started = none) (hresult : call.resultExists = false)
      (hrun : record.runId = operation.id)
      (hassistant : record.assistantEntryId = batch.assistantEntryId)
      (hindex : record.toolIndex = call.toolIndex) (hid : record.toolCallId = call.toolCall.id)
      (hname : record.toolName = call.toolCall.name)
      (hfresh : ¬ Materialized entries record.resultEntryId) :
      Continuation state operation entries (.tool_started record)
  | cancel {target : ProvisionedEntry δ} {record : QueueCancelledRecord}
      (htarget : target ∈ operation.pendingSteer ∨ target ∈ operation.pendingFollowUp)
      (hrun : record.runId = some operation.id) (hentry : record.entryId = target.id) :
      Continuation state operation entries (.queue_cancelled record)
  | cancelNextRun {target : ProvisionedEntry δ} {record : QueueCancelledRecord}
      (htarget : target ∈ state.pendingNextRun) (hrun : record.runId = none)
      (hentry : record.entryId = target.id) :
      Continuation state operation entries (.queue_cancelled record)
  | enqueue {record : QueueEnqueuedRecord δ} (haborting : operation.aborting = false)
      (hqueue : record.queue = .steer operation.id ∨ record.queue = .followUp operation.id)
      (hfresh : ¬ Materialized entries record.target.id) :
      Continuation state operation entries (.queue_enqueued record)
  | abort {record : AbortRequestedRecord} (hrun : record.runId = operation.id) :
      Continuation state operation entries (.abort_requested record)
  | finish {record : OperationFinishedRecord δ} (hrun : record.runId = operation.id) :
      Continuation state operation entries (.operation_finished record)

/-- The parts of a reduction input belong together: the open operation is open in the records, ids
and queue targets are not reused, and the tools of own entries are the open operation's. -/
structure LaneReductionInput.Coherent (input : LaneReductionInput δ) : Prop where
  opened : ∀ started ∈ input.openOperations, started ∈ openOperations input.records
  entryIds : (input.entries.map (·.id)).Nodup
  targets : ((queueEnqueues input.records).map (·.target.id)).Nodup
  tools : ∀ record ∈ toolStarts input.records, Materialized input.ownEntries record.assistantEntryId →
    ∀ started ∈ input.openOperations, record.runId = started.id

/-! ## Records of one operation -/

theorem stepAttempts_operationRecords (id : String) (records : List (LaneRecord δ)) :
    stepAttempts (operationRecords id records) = (stepAttempts records).filter fun record => record.runId = id := by
  rw [stepAttempts, operationRecords, List.filterMap_filter, stepAttempts, List.filter_filterMap]
  congr 1
  funext record
  cases record with
  | step_attempt attempt =>
    by_cases hrun : attempt.runId = id <;> simp [LaneRecord.runId, LaneRecord.attempt?, Option.filter, hrun]
  | _ => simp [LaneRecord.attempt?]

variable {records : List (LaneRecord δ)}

theorem mem_operationRecords {id : String} {record : LaneRecord δ}
    (hrun : record.runId = some id) : record ∈ operationRecords id records ↔ record ∈ records := by
  cases record <;> simp_all [operationRecords, List.mem_filter, LaneRecord.runId]

/-- An open operation has started and has no finish. -/
theorem open_runId {started : OperationStartedRecord δ}
    (hopen : started ∈ openOperations records) {record : LaneRecord δ}
    (hrun : ∀ runId, record.runId = some runId → runId = started.id) :
    validateRunId (stateAfter (Stable.sort LaneRecord.seq records)) record = .ok () := by
  obtain ⟨hstarted, hunfinished⟩ := mem_openOperations.mp hopen
  apply validateRunId_ok.mpr
  intro runId hrunId
  obtain rfl := hrun runId hrunId
  refine ⟨stateAfter_started.mpr ⟨started, Stable.mem_sort.mpr hstarted, rfl⟩, ?_⟩
  intro finishSeq hfinish
  rw [stateAfter_finishedAt, Option.map_eq_some_iff] at hfinish
  obtain ⟨finish, hfinish, -⟩ := hfinish
  obtain ⟨hmem, hid⟩ := List.mem_filter.mp (List.mem_of_getLast? hfinish)
  have hfinished := Stable.mem_sort.mp (mem_operationFinishes.mp hmem)
  exact absurd (by simpa using hid) (hunfinished finish hfinished)

/-! ## Steps -/

theorem validateAttemptReason_ok {record : StepAttemptRecord} :
    validateAttemptReason record = .ok () ↔ record.Typed := by
  unfold validateAttemptReason StepAttemptRecord.Typed
  rcases record.step with _ | _ | _ <;> rcases record.compactionReason with _ | _ | _ | _ | _ <;> simp [corrupt]

/-- The result of a step is not checked before it exists. -/
theorem validateAttemptResult_of_fresh {entries : EntryMap δ} {record : StepAttemptRecord}
    (hfresh : entries.get? record.resultEntryId = none) :
    validateAttemptResult entries record = .ok () := by
  unfold validateAttemptResult
  cases record.step <;> simp [validateResultEntry, hfresh]

theorem entriesById_mem {entries : List (Entry δ)} {id : String} {entry : Entry δ}
    (h : (entriesById entries).get? id = some entry) : entry ∈ entries ∧ entry.id = id := by
  rw [entriesById, OrderedMap.get?_ofValues] at h
  simpa using List.mem_of_getLast? h

theorem get?_none_of_fresh {entries : List (Entry δ)} {id : String}
    (h : ¬ Materialized entries id) : (entriesById entries).get? id = none :=
  entriesById_get?_none fun entry hentry hid => h ⟨entry, hentry, hid⟩

section Step

variable {input : LaneReductionInput δ} {id : String} {record : StepAttemptRecord}

/-- The validator and the reducer see the same newest attempt of an operation. -/
theorem newestAttempt_eq (input : LaneReductionInput δ) (id : String) :
    (stepAttempts (operationRecords id input.sorted)).getLast? = (stateAfter input.sorted).latestAttempt.get? id := by
  rw [stepAttempts_operationRecords, stateAfter_latestAttempt]

theorem retry_valid (hown : ∀ entry ∈ input.ownEntries, entry ∈ input.entries)
    (htyped : ∀ attempt : StepAttemptRecord, .step_attempt attempt ∈ input.records → attempt.Typed)
    {step : StepState} (hstep : deriveStep input.entryMap (operationRecords id input.sorted) = some step)
    (hrun : record.runId = id) (hkind : record.step = step.kind)
    (hattempt : record.attempt = step.attempts + 1)
    (hresult : record.resultEntryId = step.resultEntryId)
    (hreason : record.compactionReason = step.compactionReason) :
    validateAttemptReason record = .ok () ∧
      validateAttemptSequence record ((stateAfter input.sorted).latestAttempt.get? record.runId)
        (entriesById input.entries) = .ok () ∧
      validateAttemptResult (entriesById input.entries) record = .ok () := by
  subst hrun
  rw [deriveStep, newestAttempt_eq] at hstep
  cases hnewest : (stateAfter input.sorted).latestAttempt.get? record.runId with
  | none => simp [hnewest] at hstep
  | some newest =>
    rw [hnewest] at hstep
    obtain ⟨hhas, hstep⟩ := Option.ite_none_left_eq_some.mp hstep
    cases hstep
    have hfresh : (entriesById input.entries).get? newest.resultEntryId = none :=
      get?_none_of_fresh fun hmaterialized => hhas ((has_own hown).mpr hmaterialized)
    have hmem : LaneRecord.step_attempt newest ∈ input.records := by
      rw [stateAfter_latestAttempt] at hnewest
      have hlast := (List.mem_filter.mp (List.mem_of_getLast? hnewest)).1
      exact Stable.mem_sort.mp (mem_stepAttempts.mp hlast)
    -- only a compaction has a reason to repeat
    have hsame : record.compactionReason = newest.compactionReason := by
      have hnewestTyped := htyped newest hmem
      rw [hreason]
      split
      · rfl
      next hne =>
        unfold StepAttemptRecord.Typed at hnewestTyped
        cases hnewestStep : newest.step <;> simp_all
    refine ⟨?_, ?_, validateAttemptResult_of_fresh (hresult ▸ hfresh)⟩
    · apply validateAttemptReason_ok.mpr
      have hnewestTyped := htyped newest hmem
      unfold StepAttemptRecord.Typed at hnewestTyped ⊢
      rw [hkind, hsame]
      exact hnewestTyped
    · have hcontinues : continuesSeries (entriesById input.entries) record newest = true := by
        simp [continuesSeries, hkind, hfresh]
      simp [validateAttemptSequence, Option.filter, hcontinues, hattempt, hresult, hsame]

theorem attempt_valid (hown : ∀ entry ∈ input.ownEntries, entry ∈ input.entries)
    (hafter : ∀ entry ∈ input.entries, entry.seq < record.seq)
    (hstep : deriveStep input.entryMap (operationRecords id input.sorted) = none)
    (hrun : record.runId = id) (hattempt : record.attempt = 1) (htyped : record.Typed)
    (hfresh : ¬ Materialized input.entries record.resultEntryId) :
    validateAttemptReason record = .ok () ∧
      validateAttemptSequence record ((stateAfter input.sorted).latestAttempt.get? record.runId)
        (entriesById input.entries) = .ok () ∧
      validateAttemptResult (entriesById input.entries) record = .ok () := by
  subst hrun
  refine ⟨validateAttemptReason_ok.mpr htyped, ?_, validateAttemptResult_of_fresh (get?_none_of_fresh hfresh)⟩
  rw [deriveStep, newestAttempt_eq] at hstep
  cases hnewest : (stateAfter input.sorted).latestAttempt.get? record.runId with
  | none => simp [validateAttemptSequence, hattempt]
  | some newest =>
    rw [hnewest] at hstep
    dsimp only at hstep
    split at hstep
    next hhas =>
      -- the newest attempt has its result, which lies before the new one
      obtain ⟨entry, hget⟩ :=
        OrderedMap.has_iff.mp (entriesById_has.mpr ((has_own hown).mp hhas))
      have hbefore := hafter entry (entriesById_mem hget).1
      have hcontinues : continuesSeries (entriesById input.entries) record newest = false := by
        simp [continuesSeries, hget, hbefore]
      simp [validateAttemptSequence, Option.filter, hcontinues, hattempt]
    · cases hstep

end Step

/-! ## Tools -/

/-- The entry of a tool batch is an own entry with calls. -/
theorem toolBatchEntry?_mem {ownEntries : List (Entry δ)} {entry : Entry δ}
    {message : AssistantMessage δ} (h : toolBatchEntry? ownEntries = some (entry, message)) :
    entry ∈ ownEntries ∧ entry.body.assistant? = some message := by
  obtain ⟨entry', hmem, hsome⟩ := List.exists_of_findSome?_eq_some h
  obtain ⟨message', hmessage, heq⟩ := Option.map_eq_some_iff.mp hsome
  cases heq
  exact ⟨List.mem_reverse.mp hmem, (Option.filter_eq_some_iff.mp hmessage).1⟩

/-- What the batch says about a call without a start -/
structure Unstarted (records : List (LaneRecord δ)) (entry : Entry δ) (message : AssistantMessage δ)
    (call : ToolBatchCall δ) : Prop where
  ordinal : message.toolCalls[call.toolIndex]? = some call.toolCall
  unstarted : ∀ record ∈ toolStarts records, record.assistantEntryId = entry.id → record.toolIndex ≠ call.toolIndex

theorem unstarted_of_batch {ownEntries : List (Entry δ)}
    {entries : EntryMap δ} {deferredWriteIds : List String} {batch : ToolBatchState δ}
    {call : ToolBatchCall δ}
    (hbatch : deriveToolBatch records ownEntries entries deferredWriteIds = some batch)
    (hcall : call ∈ batch.calls) (hstarted : call.started = none) :
    ∃ entry message, entry ∈ ownEntries ∧ entry.body.assistant? = some message ∧
      batch.assistantEntryId = entry.id ∧ Unstarted records entry message call := by
  unfold deriveToolBatch at hbatch
  cases hentry : toolBatchEntry? ownEntries with
  | none => simp [hentry] at hbatch
  | some found =>
    obtain ⟨entry, message⟩ := found
    rw [hentry] at hbatch
    cases hbatch
    obtain ⟨hmem, hmessage⟩ := toolBatchEntry?_mem hentry
    obtain ⟨toolIndex, hindex, rfl⟩ := List.mem_mapIdx.mp hcall
    refine ⟨entry, message, hmem, hmessage, rfl, List.getElem?_eq_getElem hindex, ?_⟩
    intro record hrecord hassistant hsame
    have hnone : (batchStarts entry.id records).get? toolIndex = none := hstarted
    have hhas : (batchStarts entry.id records).has toolIndex = true :=
      OrderedMap.has_ofValues.mpr ⟨record, List.mem_filter.mpr ⟨hrecord, by simpa using hassistant⟩, hsame⟩
    rw [OrderedMap.has, hnone] at hhas
    cases hhas

/-! ## Queues -/

/-- A pending target was enqueued in its queue and is no entry. -/
theorem enqueue_of_pendingTargets {input : LaneReductionInput δ}
    (hown : ∀ entry ∈ input.ownEntries, entry ∈ input.entries) {queue : Queue}
    {target : ProvisionedEntry δ}
    (htarget : target ∈ pendingTargets input.entryMap input.sorted queue) :
    ∃ record : QueueEnqueuedRecord δ, .queue_enqueued record ∈ input.records ∧
      record.queue = queue ∧ record.target = target ∧ ¬ Materialized input.entries target.id := by
  obtain ⟨record, hrecord, rfl⟩ := List.mem_map.mp htarget
  obtain ⟨hpending, hqueue⟩ := List.mem_filter.mp hrecord
  obtain ⟨hmem, hfresh, -⟩ := (mem_pendingQueueRecords hown).mp hpending
  exact ⟨record, hmem, by simpa using hqueue, rfl, hfresh⟩

/-- An item that is pending can be cancelled under the run of its queue. -/
theorem cancel_valid {input : LaneReductionInput δ} (hown : ∀ entry ∈ input.ownEntries, entry ∈ input.entries)
    (htargets : ((queueEnqueues input.records).map (·.target.id)).Nodup) {queue : Queue}
    {target : ProvisionedEntry δ} {record : QueueCancelledRecord}
    (htarget : target ∈ pendingTargets input.entryMap input.sorted queue)
    (hrun : record.runId = queue.runId) (hentry : record.entryId = target.id)
    (hafter : ∀ r ∈ input.records, r.seq < record.seq) :
    cancelsPending (entriesById input.entries) (stateAfter input.sorted) record = true := by
  obtain ⟨enqueue, hmem, rfl, rfl, hfresh⟩ := enqueue_of_pendingTargets hown htarget
  have hperm : (queueEnqueues input.sorted).Perm (queueEnqueues input.records) :=
    (Stable.perm_sort input.records).filterMap _
  have hnodup : ((queueEnqueues input.sorted).map (·.target.id)).Nodup :=
    (hperm.map _).nodup_iff.mpr htargets
  have hget : (stateAfter input.sorted).queueEnqueues.get? record.entryId = some enqueue := by
    rw [stateAfter_queueEnqueues, hentry, ← OrderedMap.get?_ofValues, OrderedMap.get?_ofValues_eq_some hnodup]
    exact ⟨mem_queueEnqueues.mpr (Stable.mem_sort.mpr hmem), rfl⟩
  have hbefore : enqueue.seq < record.seq := hafter _ hmem
  rw [hentry] at hget
  simp [cancelsPending, hget, hbefore, hrun, OrderedMap.has, hentry, get?_none_of_fresh hfresh]

/-! ## The next record -/

theorem continuation_valid [DecidableEq δ] {input : LaneReductionInput δ}
    (hvalid : validateRecordLog input.toRecordLogSlice = .ok ())
    (hown : ∀ entry ∈ input.ownEntries, entry ∈ input.entries) (hcoherent : input.Coherent)
    {started : OperationStartedRecord δ} (hstarted : started ∈ input.openOperations)
    {record : LaneRecord δ}
    (hcontinuation : Continuation (deriveLaneState input).laneState
      (deriveOperation input.entryMap input.sorted (Stable.sort Entry.seq input.ownEntries) started)
      input.entries record)
    (hrecords : ∀ r ∈ input.records, r.seq < record.seq)
    (hentries : ∀ entry ∈ input.entries, entry.seq < record.seq) :
    validateRecord (entriesById input.entries) (stateAfter input.sorted) record = .ok () := by
  have hopen := hcoherent.opened started hstarted
  have hfinish : ∀ r : LaneRecord δ, (∀ runId, r.runId = some runId → runId = started.id) →
      validateRunId (stateAfter input.sorted) r = .ok () := fun r hrun => open_runId hopen hrun
  obtain ⟨-, -, hlog⟩ := validateRecordLog_ok.mp hvalid
  have htyped : ∀ attempt : StepAttemptRecord, .step_attempt attempt ∈ input.records →
      attempt.Typed := by
    intro attempt hmem
    obtain ⟨_, _, -, hrecord⟩ := validateRecord_of_mem hlog (Stable.mem_sort.mpr hmem)
    obtain ⟨_, -, hrecord⟩ := Except.bind_ok.mp hrecord
    obtain ⟨_, hreason, -⟩ := Except.bind_ok.mp hrecord
    exact validateAttemptReason_ok.mp hreason
  cases hcontinuation with
  | retry hstep hrun hkind hattempt hresult hreason =>
    apply Except.bind_ok.mpr
    refine ⟨(), hfinish _ fun runId h => (Option.some.inj h).symm.trans hrun, ?_⟩
    obtain ⟨h₁, h₂, h₃⟩ := retry_valid hown htyped hstep hrun hkind hattempt hresult hreason
    exact Except.bind_ok.mpr ⟨_, h₁, Except.bind_ok.mpr ⟨_, h₂, h₃⟩⟩
  | attempt hstep hrun hattempt htyped' hfresh =>
    apply Except.bind_ok.mpr
    refine ⟨(), hfinish _ fun runId h => (Option.some.inj h).symm.trans hrun, ?_⟩
    obtain ⟨h₁, h₂, h₃⟩ := attempt_valid hown hentries hstep hrun hattempt htyped' hfresh
    exact Except.bind_ok.mpr ⟨_, h₁, Except.bind_ok.mpr ⟨_, h₂, h₃⟩⟩
  | @toolStart batch call start hbatch hcall hnone _ hrun hassistant hindex hid hname hfresh =>
    apply Except.bind_ok.mpr
    refine ⟨(), hfinish _ fun runId h => (Option.some.inj h).symm.trans hrun, ?_⟩
    obtain ⟨entry, message, hentry, hmessage, hbatchId, hcall⟩ :=
      unstarted_of_batch hbatch hcall hnone
    rw [hbatchId] at hassistant
    have hentry := Stable.mem_sort.mp hentry
    apply validateToolStart_ok.mpr
    refine ⟨?_, entry, message, call.toolCall, ?_, hmessage, ?_, hid.symm, hname.symm, ?_⟩
    · -- a start of this call would be one of the operation's records
      rw [stateAfter_toolInvocations]
      rintro ⟨other, hother, hsame⟩
      obtain ⟨hotherAssistant, hotherIndex⟩ := Prod.mk.inj hsame
      have hmem := mem_toolStarts.mp hother
      have hrunId : (LaneRecord.tool_started other).runId = some started.id :=
        congrArg some <| hcoherent.tools other (mem_toolStarts.mpr (Stable.mem_sort.mp hmem))
          ⟨entry, hentry, (hotherAssistant.trans hassistant).symm⟩ started hstarted
      have hown' : other ∈ toolStarts (operationRecords started.id input.sorted) :=
        mem_toolStarts.mpr ((mem_operationRecords hrunId).mpr hmem)
      exact hcall.unstarted other hown' (hotherAssistant.trans hassistant) (hotherIndex.trans hindex)
    · rw [hassistant]
      exact (entriesById_get? hcoherent.entryIds).mpr ⟨hown entry hentry, rfl⟩
    · rw [hindex]
      exact hcall.ordinal
    · intro result hresult
      rw [get?_none_of_fresh hfresh] at hresult
      cases hresult
  | @cancel target cancellation htarget hrun hentry =>
    apply Except.bind_ok.mpr
    refine ⟨(), hfinish _ fun runId h => (Option.some.inj (hrun.symm.trans h)).symm, ?_⟩
    have hqueue : ∃ queue : Queue, queue.runId = some started.id ∧
        target ∈ pendingTargets input.entryMap input.sorted queue := by
      dsimp only [deriveOperation] at htarget
      rcases htarget with htarget | htarget <;> split at htarget
      · cases htarget
      · exact ⟨.steer started.id, rfl, htarget⟩
      · cases htarget
      · exact ⟨.followUp started.id, rfl, htarget⟩
    obtain ⟨queue, hqueue, htarget⟩ := hqueue
    exact if_pos (cancel_valid hown hcoherent.targets htarget (hrun.trans hqueue.symm) hentry hrecords)
  | @cancelNextRun target cancellation htarget hrun hentry =>
    apply Except.bind_ok.mpr
    refine ⟨(), hfinish _ fun runId h => absurd (hrun.symm.trans h) (by rintro ⟨⟩), ?_⟩
    have htarget : target ∈ pendingTargets input.entryMap input.sorted .nextRun :=
      (List.mem_filter.mp htarget).1
    exact if_pos (cancel_valid hown hcoherent.targets htarget hrun hentry hrecords)
  | @enqueue enqueue haborting hqueue hfresh =>
    have hrun : enqueue.queue.runId = some started.id := by
      rcases hqueue with hqueue | hqueue <;> rw [hqueue] <;> rfl
    apply Except.bind_ok.mpr
    refine ⟨(), hfinish _ fun runId h => (Option.some.inj (hrun.symm.trans h)).symm, ?_⟩
    have habort : (stateAfter input.sorted).abortedAt.get? started.id = none := by
      rw [stateAfter_abortedAt, Option.map_eq_none_iff, List.getLast?_eq_none_iff, List.filter_eq_nil_iff]
      intro request hrequest hid
      have hrunId : (LaneRecord.abort_requested request : LaneRecord δ).runId = some started.id :=
        congrArg some (by simpa using hid)
      have hmem := (mem_operationRecords hrunId).mpr (mem_abortRequests.mp hrequest)
      have hany : isAborting (operationRecords started.id input.sorted) = true :=
        List.any_eq_true.mpr ⟨_, hmem, rfl⟩
      exact absurd (haborting.symm.trans hany) (by rintro ⟨⟩)
    have hnot : ¬ enqueuedAfterAbort (stateAfter input.sorted) enqueue = true := by
      simp [enqueuedAfterAbort, hrun, habort]
    apply (Except.guard_ok (by rintro _ ⟨⟩)).mpr
    refine ⟨hnot, validateExactProvisionedEntry_ok.mpr fun entry hentry => ?_⟩
    rw [get?_none_of_fresh hfresh] at hentry
    cases hentry
  | abort hrun | finish hrun =>
    apply Except.bind_ok.mpr
    exact ⟨(), hfinish _ fun runId h => (Option.some.inj h).symm.trans hrun, rfl⟩

/-- A continuation that a lane state describes is accepted behind the records it was read off. -/
theorem continuation_accepted [DecidableEq δ] {input : LaneReductionInput δ}
    {result : LaneReductionResult δ} {operation : OperationState δ} {record : LaneRecord δ}
    {opened : List (OperationStartedRecord δ)} (hok : reduceLaneState input = .ok result)
    (hoperation : result.laneState.operation = some operation)
    (hown : ∀ entry ∈ input.ownEntries, entry ∈ input.entries) (hcoherent : input.Coherent)
    (hcontinuation : Continuation result.laneState operation input.entries record)
    (hrecords : ∀ r ∈ input.records, r.seq < record.seq)
    (hentries : ∀ entry ∈ input.entries, entry.seq < record.seq) (hopened : opened.length ≤ 1) :
    validateRecordLog { input.toRecordLogSlice with
      openOperations := opened, records := input.records ++ [record] } = .ok () := by
  obtain ⟨hvalid, rfl⟩ := reduceLaneState_ok.mp hok
  obtain ⟨started, hstarted, rfl⟩ := Option.map_eq_some_iff.mp hoperation
  obtain ⟨-, hhandles, hlog⟩ := validateRecordLog_ok.mp hvalid
  refine validateRecordLog_ok.mpr ⟨hopened, hhandles, ?_⟩
  show validateRecords _ _ (Stable.sort LaneRecord.seq (input.records ++ [record])) = _
  rw [Stable.sort_concat fun r hr => le_of_lt (hrecords r hr), validateRecords_append]
  refine ⟨hlog, validateRecords_cons.mpr ⟨?_, rfl⟩⟩
  exact continuation_valid hvalid hown hcoherent (List.mem_of_mem_head? hstarted) hcontinuation hrecords hentries

/-! ## Slices -/

/-- A run that waits for the tool its assistant entry calls -/
def restoredRun : LaneReductionInput Unit :=
  { openRun (startedRun 1 [])
      [.step_attempt
        { id := "attempt", seq := 2, lane := "main", timestamp := 0, runId := "run"
          step := .assistant, attempt := 1, resultEntryId := "assistant", compactionReason := none }]
      [] with
    entries := [LaneHistory.assistantEntry 3]
    ownEntries := [LaneHistory.assistantEntry 3] }

theorem continuation_accepted_tool :
    reduceLaneState restoredRun = .ok (deriveLaneState restoredRun) ∧
      validateRecordLog { restoredRun.toRecordLogSlice with
        openOperations := restoredRun.openOperations
        records := restoredRun.records ++ [LaneHistory.toolStarted "run" "tool" 4] } = .ok () := by
  have hok : reduceLaneState restoredRun = .ok (deriveLaneState restoredRun) := rfl
  refine ⟨hok, continuation_accepted hok rfl (fun _ hentry => hentry) ?_ ?_ ?_ ?_ (by decide)⟩
  · exact ⟨by decide, by decide, by decide, by simp [restoredRun, openRun, toolStarts, LaneRecord.toolStart?]⟩
  · apply Continuation.toolStart rfl List.mem_cons_self rfl rfl rfl rfl rfl rfl rfl
    rintro ⟨entry, hentry, hid⟩
    rw [List.mem_singleton.mp hentry] at hid
    exact absurd hid (by decide)
  · decide
  · decide

/-- What is said of accepted slices whose parts need not belong together -/
def ContinuesFrom (input : LaneReductionInput Unit) : Prop :=
  ∀ operation record, (deriveLaneState input).laneState.operation = some operation →
    Continuation (deriveLaneState input).laneState operation input.entries record →
    (∀ r ∈ input.records, r.seq < record.seq ∧ r.id ≠ record.id) →
    (∀ entry ∈ input.entries, entry.seq < record.seq) →
    validateRecordLog { input.toRecordLogSlice with records := input.records ++ [record] } = .ok ()

/-- An open operation that the records do not know -/
def unknownRun : LaneReductionInput Unit := { openRun (startedRun 1 []) [] [] with records := [] }

/-- Two entries with one id, of which the run owns the first -/
def entryTwice : LaneReductionInput Unit :=
  { openRun (startedRun 1 []) [] [] with
    entries := [LaneHistory.assistantEntry 2, { LaneHistory.assistantEntry 3 with body := .custom () }]
    ownEntries := [LaneHistory.assistantEntry 2] }

/-- One target in two queues -/
def queuedTwice : LaneReductionInput Unit :=
  openRun (startedRun 1 []) [enqueued 2 (.steer "run") "item",
      .queue_enqueued
        { id := "again", seq := 3, lane := "main", timestamp := 0, queue := .nextRun
          target := queueTarget "item" }] []

/-- An own entry whose tool another run has started -/
def otherTool : LaneReductionInput Unit :=
  { openRun (startedRun 4 [])
      [LaneHistory.runStarted "other" 1, LaneHistory.toolStarted "other" "tool" 2,
        LaneHistory.runFinished "other" "finish" 3] [] with
    entries := [LaneHistory.assistantEntry 5]
    ownEntries := [LaneHistory.assistantEntry 5] }

/-- An accepted slice with a continuation that is rejected -/
def Stuck (input : LaneReductionInput Unit) : Prop :=
  reduceLaneState input = .ok (deriveLaneState input) ∧ (∀ entry ∈ input.ownEntries, entry ∈ input.entries) ∧
    (input.records.map (·.id)).Nodup ∧ ¬ ContinuesFrom input

/-- Where the parts of an accepted slice do not belong together, a continuation can be rejected. -/
theorem continuation_rejected : Stuck unknownRun ∧ Stuck entryTwice ∧ Stuck queuedTwice ∧ Stuck otherTool := by
  have hfresh : ∀ {input : LaneReductionInput Unit}, input.entries.all (fun entry => entry.id ≠ "result") →
      ¬ Materialized input.entries "result" := by
    rintro input hall ⟨entry, hentry, hid⟩
    simpa [hid] using List.all_eq_true.mp hall entry hentry
  refine ⟨⟨rfl, by decide, by decide, ?_⟩, ⟨rfl, by decide, by decide, ?_⟩,
    ⟨rfl, by decide, by decide, ?_⟩, rfl, by decide, by decide, ?_⟩
  · intro hcontinues
    have hok := hcontinues _ (.abort_requested
      { id := "abort", seq := 10, lane := "main", timestamp := 0, runId := "run" }) rfl
      (.abort rfl) (by decide) (by decide)
    exact absurd hok (by nofun)
  · intro hcontinues
    have hok := hcontinues _ (LaneHistory.toolStarted "run" "next" 10) rfl
      (.toolStart rfl List.mem_cons_self rfl rfl rfl rfl rfl rfl rfl (hfresh rfl))
      (by decide) (by decide)
    exact absurd hok (by nofun)
  · intro hcontinues
    have hok := hcontinues _ (cancelled 10 (some "run") "item") rfl
      (.cancel (.inl List.mem_cons_self) rfl rfl) (by decide) (by decide)
    exact absurd hok (by nofun)
  · intro hcontinues
    have hok := hcontinues _ (LaneHistory.toolStarted "run" "next" 10) rfl
      (.toolStart rfl List.mem_cons_self rfl rfl rfl rfl rfl rfl rfl (hfresh rfl))
      (by decide) (by decide)
    exact absurd hok (by nofun)

end Mcpi.Reducer
