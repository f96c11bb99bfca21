import Mathlib.Data.List.Dedup
import Mcpi.Lib.Assignment
import Mcpi.Reducer.Continuation

/-!
# The results of a tool batch

The reducer takes a call for resolved if the result its start has provisioned exists, or else if
the operation has any result for the call's id behind the message. A message can use one id for
several calls, and then one result resolves them all.
-/

namespace Mcpi.Reducer

variable {δ : Type}

/-- The entry is a result for calls with this id. -/
def Entry.answers (entry : Entry δ) (toolCallId : String) : Bool :=
  entry.body.toolResult?.any fun message => message.toolCallId = toolCallId

/-- The ids of the results that the operation has for calls with this id -/
def ownResults (entries : EntryMap δ) (ownEntries : List (Entry δ)) (toolCallId : String) : List String :=
  (ownEntries.map (·.id)).dedup.filter fun id =>
    (entries.get? id).any fun entry => entry.answers toolCallId

/-- Every resolved call has a result of the operation to itself; that of a started call is the
one its start has provisioned. -/
def ResolvedApart (entries : EntryMap δ) (ownEntries : List (Entry δ)) (batch : ToolBatchState δ) :
    Prop :=
  ∃ result : ToolBatchCall δ → String, (∀ call ∈ batch.calls, call.resultExists = true →
      result call ∈ ownResults entries ownEntries call.toolCall.id ∧
        ∀ record, call.started = some record → result call = record.resultEntryId) ∧
    ∀ call ∈ batch.calls, ∀ other ∈ batch.calls, call.resultExists = true →
      other.resultExists = true → result call = result other → call = other

section Batch

variable (records : List (LaneRecord δ)) (ownEntries : List (Entry δ)) (entries : EntryMap δ)
  (deferredWriteIds : List String) (assistantEntry : Entry δ) (message : AssistantMessage δ)

/-- The calls of the message with this id that have not started -/
def unstarted (toolCallId : String) : ℕ :=
  message.toolCalls.zipIdx.countP fun (toolCall, toolIndex) =>
    toolCall.id = toolCallId && !(batchStarts assistantEntry.id records).has toolIndex

/-- The results with this id that no start of the message has provisioned -/
def unprovisioned (toolCallId : String) : List String :=
  (ownResults entries ownEntries toolCallId).filter fun id =>
    message.toolCalls.zipIdx.all fun (_, toolIndex) =>
      ((batchStarts assistantEntry.id records).get? toolIndex).all fun record =>
        record.resultEntryId ≠ id

/-- There is a result for every call that the reducer takes for resolved. -/
structure ResultsSuffice : Prop where
  /-- What a start has provisioned is a result of the operation for its call, if it exists. -/
  provisioned : ∀ (toolIndex : ℕ) toolCall record, message.toolCalls[toolIndex]? = some toolCall →
    (batchStarts assistantEntry.id records).get? toolIndex = some record →
    entries.has record.resultEntryId = true →
    record.resultEntryId ∈ ownResults entries ownEntries toolCall.id
  /-- No two starts have provisioned one result. -/
  apart : ∀ (toolIndex toolIndex' : ℕ) record record', toolIndex < message.toolCalls.length →
    toolIndex' < message.toolCalls.length →
    (batchStarts assistantEntry.id records).get? toolIndex = some record →
    (batchStarts assistantEntry.id records).get? toolIndex' = some record' →
    entries.has record.resultEntryId = true → record.resultEntryId = record'.resultEntryId →
    toolIndex = toolIndex'
  /-- A started call that has no result yet shares its id with no result. -/
  pending : ∀ (toolIndex : ℕ) toolCall record, message.toolCalls[toolIndex]? = some toolCall →
    (batchStarts assistantEntry.id records).get? toolIndex = some record →
    entries.has record.resultEntryId = false →
    blockedResult? ownEntries deferredWriteIds assistantEntry.seq toolCall = none
  /-- The other calls with an id have as many results between them, or none. -/
  enough : ∀ toolCall ∈ message.toolCalls,
    (blockedResult? ownEntries deferredWriteIds assistantEntry.seq toolCall).isSome = true →
    unstarted records assistantEntry message toolCall.id ≤
      (unprovisioned records ownEntries entries assistantEntry message toolCall.id).length

/-- The call of a batch at an index of the message. -/
def batchCall (toolIndex : ℕ) (toolCall : AgentToolCall δ) : ToolBatchCall δ :=
  let started := (batchStarts assistantEntry.id records).get? toolIndex
  let startedResult := started.bind fun record => entries.get? record.resultEntryId
  let result :=
    startedResult <|> blockedResult? ownEntries deferredWriteIds assistantEntry.seq toolCall
  { toolIndex, toolCall, started, resultExists := result.isSome,
    terminate := result.any fun entry => entry.body.terminates }

end Batch

section Resolution

variable {records : List (LaneRecord δ)} {ownEntries : List (Entry δ)} {entries : EntryMap δ}
  {deferredWriteIds : List String} {assistantEntry : Entry δ} {message : AssistantMessage δ}

variable {batch : ToolBatchState δ}

theorem deriveToolBatch_some (hentry : toolBatchEntry? ownEntries = some (assistantEntry, message))
    (hbatch : deriveToolBatch records ownEntries entries deferredWriteIds = some batch) :
    batch.calls = message.toolCalls.mapIdx (batchCall records ownEntries entries deferredWriteIds assistantEntry) := by
  unfold deriveToolBatch at hbatch
  rw [hentry] at hbatch
  cases hbatch
  rfl

variable {toolCallId id : String}

theorem mem_ownResults :
    id ∈ ownResults entries ownEntries toolCallId ↔ (∃ entry ∈ ownEntries, entry.id = id) ∧
      ∃ entry, entries.get? id = some entry ∧ entry.answers toolCallId = true := by
  rw [ownResults, List.mem_filter, List.mem_dedup, List.mem_map, Option.any_eq_true]

theorem has_of_mem_ownResults (h : id ∈ ownResults entries ownEntries toolCallId) : entries.has id = true := by
  obtain ⟨-, entry, hget, -⟩ := mem_ownResults.mp h
  exact OrderedMap.has_iff.mpr ⟨entry, hget⟩

theorem ownResults_apart {toolCallId toolCallId' id : String} (h : id ∈ ownResults entries ownEntries toolCallId)
    (h' : id ∈ ownResults entries ownEntries toolCallId') : toolCallId = toolCallId' := by
  obtain ⟨-, entry, hget, hanswers⟩ := mem_ownResults.mp h
  obtain ⟨-, entry', hget', hanswers'⟩ := mem_ownResults.mp h'
  cases hget.symm.trans hget'
  rw [Entry.answers, Option.any_eq_true] at hanswers hanswers'
  obtain ⟨reply, hreply, hid⟩ := hanswers
  obtain ⟨reply', hreply', hid'⟩ := hanswers'
  cases hreply.symm.trans hreply'
  exact (of_decide_eq_true hid).symm.trans (of_decide_eq_true hid')

theorem mem_unprovisioned :
    id ∈ unprovisioned records ownEntries entries assistantEntry message toolCallId ↔
      id ∈ ownResults entries ownEntries toolCallId ∧ ∀ (toolIndex : ℕ) record, toolIndex < message.toolCalls.length →
          (batchStarts assistantEntry.id records).get? toolIndex = some record →
          record.resultEntryId ≠ id := by
  rw [unprovisioned, List.mem_filter, List.all_eq_true]
  refine and_congr_right fun _ => ?_
  constructor
  · intro hall toolIndex record hlt hstart
    have hindex := hall (message.toolCalls[toolIndex], toolIndex)
      (List.mk_mem_zipIdx_iff_getElem?.mpr (List.getElem?_eq_getElem hlt))
    simpa [hstart] using hindex
  · rintro hne ⟨toolCall, toolIndex⟩ hmem
    have hget := List.mk_mem_zipIdx_iff_getElem?.mp hmem
    obtain ⟨hlt, -⟩ := List.getElem?_eq_some_iff.mp hget
    show ((batchStarts assistantEntry.id records).get? toolIndex).all _ = true
    cases hstart : (batchStarts assistantEntry.id records).get? toolIndex with
    | none => rfl
    | some record => exact decide_eq_true (hne toolIndex record hlt hstart)

/-! ## Resolved calls -/

variable {toolCall : AgentToolCall δ}

theorem batchCall_started {toolIndex : ℕ} {record : ToolStartedRecord δ}
    (hstart : (batchStarts assistantEntry.id records).get? toolIndex = some record) :
    (batchCall records ownEntries entries deferredWriteIds assistantEntry toolIndex
      toolCall).resultExists = (entries.has record.resultEntryId ||
        (blockedResult? ownEntries deferredWriteIds assistantEntry.seq toolCall).isSome) := by
  rw [batchCall, hstart, Option.bind_some, OrderedMap.has]
  cases entries.get? record.resultEntryId <;> rfl

theorem batchCall_unstarted {toolIndex : ℕ} (hstart : (batchStarts assistantEntry.id records).get? toolIndex = none) :
    (batchCall records ownEntries entries deferredWriteIds assistantEntry toolIndex toolCall).resultExists =
        (blockedResult? ownEntries deferredWriteIds assistantEntry.seq toolCall).isSome := by
  rw [batchCall, hstart]
  rfl

/-! ## The calls that have not started -/

theorem mem_calls {call : ToolBatchCall δ} :
    call ∈ message.toolCalls.mapIdx (batchCall records ownEntries entries deferredWriteIds assistantEntry) ↔
      ∃ (toolIndex : ℕ) (toolCall : AgentToolCall δ), message.toolCalls[toolIndex]? = some toolCall ∧
          batchCall records ownEntries entries deferredWriteIds assistantEntry toolIndex toolCall =
            call := by
  rw [List.mem_mapIdx]
  constructor
  · rintro ⟨toolIndex, hlt, rfl⟩
    exact ⟨toolIndex, _, List.getElem?_eq_getElem hlt, rfl⟩
  · rintro ⟨toolIndex, toolCall, hget, rfl⟩
    obtain ⟨hlt, rfl⟩ := List.getElem?_eq_some_iff.mp hget
    exact ⟨toolIndex, hlt, rfl⟩

variable (records ownEntries entries deferredWriteIds assistantEntry message) in
/-- The resolved calls that have not started -/
def resolvedUnstarted : List (ToolBatchCall δ) :=
  (message.toolCalls.mapIdx (batchCall records ownEntries entries deferredWriteIds assistantEntry)).filter fun call =>
      call.started.isNone && call.resultExists

theorem resolvedUnstarted_nodup :
    (resolvedUnstarted records ownEntries entries deferredWriteIds assistantEntry message).Nodup := by
  apply List.Nodup.filter
  apply List.Nodup.of_map ToolBatchCall.toolIndex
  rw [List.mapIdx_eq_zipIdx_map, List.map_map]
  show (message.toolCalls.zipIdx.map Prod.snd).Nodup
  rw [List.zipIdx_map_snd]
  exact List.nodup_range'

theorem resolvedUnstarted_length (toolCallId : String) :
    ((resolvedUnstarted records ownEntries entries deferredWriteIds assistantEntry message).filter
      fun call => call.toolCall.id = toolCallId).length =
      message.toolCalls.zipIdx.countP fun (toolCall, toolIndex) =>
        (toolCall.id = toolCallId && !(batchStarts assistantEntry.id records).has toolIndex) &&
          (blockedResult? ownEntries deferredWriteIds assistantEntry.seq toolCall).isSome := by
  rw [resolvedUnstarted, List.filter_filter, List.mapIdx_eq_zipIdx_map, ← List.countP_eq_length_filter, List.countP_map]
  apply List.countP_congr
  rintro ⟨toolCall, toolIndex⟩ -
  show (decide (toolCall.id = toolCallId) &&
      (((batchStarts assistantEntry.id records).get? toolIndex).isNone && (batchCall records
        ownEntries entries deferredWriteIds assistantEntry toolIndex toolCall).resultExists)) = true ↔ _
  cases hstart : (batchStarts assistantEntry.id records).get? toolIndex with
  | none => simp [OrderedMap.has, hstart, batchCall_unstarted hstart]
  | some record => simp [OrderedMap.has, hstart]

theorem resolvedUnstarted_le (toolCallId : String) :
    ((resolvedUnstarted records ownEntries entries deferredWriteIds assistantEntry message).filter
      fun call => call.toolCall.id = toolCallId).length ≤
      unstarted records assistantEntry message toolCallId := by
  rw [resolvedUnstarted_length, unstarted]
  apply List.countP_mono_left
  rintro ⟨toolCall, toolIndex⟩ - hboth
  exact (Bool.and_eq_true_iff.mp hboth).1

/-- A result for one of the calls with an id resolves them all. -/
theorem resolvedUnstarted_eq
    (hblocked : (blockedResult? ownEntries deferredWriteIds assistantEntry.seq toolCall).isSome = true) :
    ((resolvedUnstarted records ownEntries entries deferredWriteIds assistantEntry message).filter
      fun call => call.toolCall.id = toolCall.id).length =
      unstarted records assistantEntry message toolCall.id := by
  rw [resolvedUnstarted_length, unstarted]
  apply List.countP_congr
  rintro ⟨other, toolIndex⟩ -
  rw [Bool.and_eq_true_iff]
  refine and_iff_left_of_imp fun hunstarted => ?_
  have hid : other.id = toolCall.id := of_decide_eq_true (Bool.and_eq_true_iff.mp hunstarted).1
  unfold blockedResult? at hblocked ⊢
  rwa [hid]

/-! ## A result to each call -/

theorem ResolvedApart.suffice (hcalls : batch.calls = message.toolCalls.mapIdx
      (batchCall records ownEntries entries deferredWriteIds assistantEntry))
    (h : ResolvedApart entries ownEntries batch) :
    ResultsSuffice records ownEntries entries deferredWriteIds assistantEntry message := by
  obtain ⟨result, hown, hapart⟩ := h
  rw [hcalls] at hown hapart
  -- a started call that is resolved has the result its start has provisioned
  have hstarted : ∀ (toolIndex : ℕ) toolCall record, message.toolCalls[toolIndex]? = some toolCall →
      (batchStarts assistantEntry.id records).get? toolIndex = some record →
      (batchCall records ownEntries entries deferredWriteIds assistantEntry toolIndex toolCall).resultExists = true →
      record.resultEntryId ∈ ownResults entries ownEntries toolCall.id ∧
        result (batchCall records ownEntries entries deferredWriteIds assistantEntry toolIndex
          toolCall) = record.resultEntryId := by
    intro toolIndex toolCall record hcall hstart hresolved
    obtain ⟨hmem, hid⟩ := hown _ (mem_calls.mpr ⟨toolIndex, toolCall, hcall, rfl⟩) hresolved
    refine ⟨?_, hid record hstart⟩
    rw [← hid record hstart]
    exact hmem
  have hhas : ∀ (toolIndex : ℕ) toolCall record, (batchStarts assistantEntry.id records).get? toolIndex = some record →
      entries.has record.resultEntryId = true →
      (batchCall records ownEntries entries deferredWriteIds assistantEntry toolIndex
        toolCall).resultExists = true := by
    intro toolIndex toolCall record hstart hexists
    rw [batchCall_started hstart, hexists, Bool.true_or]
  refine ⟨?_, ?_, ?_, ?_⟩
  · intro toolIndex toolCall record hcall hstart hexists
    exact (hstarted toolIndex toolCall record hcall hstart (hhas toolIndex toolCall record hstart hexists)).1
  · intro toolIndex toolIndex' record record' hlt hlt' hstart hstart' hexists heq
    have hcall := List.getElem?_eq_getElem hlt
    have hcall' := List.getElem?_eq_getElem hlt'
    have hresolved := hhas toolIndex message.toolCalls[toolIndex] record hstart hexists
    have hresolved' := hhas toolIndex' message.toolCalls[toolIndex'] record' hstart' (heq ▸ hexists)
    have hsame := hapart _ (mem_calls.mpr ⟨toolIndex, _, hcall, rfl⟩) _
      (mem_calls.mpr ⟨toolIndex', _, hcall', rfl⟩) hresolved hresolved' (by
        rw [(hstarted toolIndex _ record hcall hstart hresolved).2,
          (hstarted toolIndex' _ record' hcall' hstart' hresolved').2, heq])
    exact congrArg ToolBatchCall.toolIndex hsame
  · intro toolIndex toolCall record hcall hstart hexists
    cases hblocked : blockedResult? ownEntries deferredWriteIds assistantEntry.seq toolCall with
    | none => rfl
    | some entry =>
      -- the result of another call resolves this one, whose own is missing
      have hmem := (hstarted toolIndex toolCall record hcall hstart (by
        rw [batchCall_started hstart, hblocked, Option.isSome_some, Bool.or_true])).1
      rw [has_of_mem_ownResults hmem] at hexists
      cases hexists
  · intro toolCall _ hblocked
    have hserves : Assignment.Serves (resolvedUnstarted records ownEntries entries deferredWriteIds
        assistantEntry message) (fun call => call.toolCall.id)
        (unprovisioned records ownEntries entries assistantEntry message) result := by
      refine ⟨?_, ?_⟩
      · intro call hmem
        obtain ⟨hmem, hboth⟩ := List.mem_filter.mp hmem
        obtain ⟨hnone, hresolved⟩ := Bool.and_eq_true_iff.mp hboth
        refine mem_unprovisioned.mpr ⟨(hown call hmem hresolved).1, ?_⟩
        intro toolIndex record hlt hstart heq
        have hexists := has_of_mem_ownResults (hown call hmem hresolved).1
        rw [← heq] at hexists
        have hcall := List.getElem?_eq_getElem hlt
        have hresolved' := hhas toolIndex message.toolCalls[toolIndex] record hstart hexists
        have hsame := hapart call hmem _ (mem_calls.mpr ⟨toolIndex, _, hcall, rfl⟩) hresolved
          hresolved' (by rw [(hstarted toolIndex _ record hcall hstart hresolved').2, heq])
        rw [hsame] at hnone
        have hsome : (some record).isNone = true := hstart ▸ hnone
        cases hsome
      · intro call hmem other hother heq
        obtain ⟨hmem, hboth⟩ := List.mem_filter.mp hmem
        obtain ⟨hother, hboth'⟩ := List.mem_filter.mp hother
        exact hapart call hmem other hother (Bool.and_eq_true_iff.mp hboth).2 (Bool.and_eq_true_iff.mp hboth').2 heq
    calc unstarted records assistantEntry message toolCall.id = _ := (resolvedUnstarted_eq hblocked).symm
      _ ≤ _ := hserves.length_le resolvedUnstarted_nodup toolCall.id

theorem ResultsSuffice.resolvedApart (hcalls : batch.calls = message.toolCalls.mapIdx
      (batchCall records ownEntries entries deferredWriteIds assistantEntry))
    (h : ResultsSuffice records ownEntries entries deferredWriteIds assistantEntry message) :
    ResolvedApart entries ownEntries batch := by
  classical
  let jobs := resolvedUnstarted records ownEntries entries deferredWriteIds assistantEntry message
  let supply := unprovisioned records ownEntries entries assistantEntry message
  let assign := Assignment.inTurn jobs (fun call => call.toolCall.id) supply ""
  have hserves : Assignment.Serves jobs (fun call => call.toolCall.id) supply assign := by
    apply Assignment.inTurn_serves
    · intro toolCallId
      exact ((List.nodup_dedup _).filter _).filter _
    · intro toolCallId toolCallId' id hmem hmem'
      exact ownResults_apart (mem_unprovisioned.mp hmem).1 (mem_unprovisioned.mp hmem').1
    · intro toolCallId
      -- a job with this id has a result, and then there are enough of them
      cases hjobs : jobs.filter fun call => call.toolCall.id = toolCallId with
      | nil => exact Nat.zero_le _
      | cons call calls =>
        have hmem : call ∈ jobs.filter fun call => call.toolCall.id = toolCallId := by
          rw [hjobs]
          exact List.mem_cons_self
        obtain ⟨hmem, hid⟩ := List.mem_filter.mp hmem
        obtain ⟨hmem, hboth⟩ := List.mem_filter.mp hmem
        obtain ⟨hnone, hresolved⟩ := Bool.and_eq_true_iff.mp hboth
        obtain ⟨toolIndex, toolCall, hget, rfl⟩ := mem_calls.mp hmem
        rw [batchCall_unstarted (Option.isNone_iff_eq_none.mp hnone)] at hresolved
        have hid : toolCall.id = toolCallId := of_decide_eq_true hid
        have henough := h.enough toolCall (List.mem_of_getElem? hget) hresolved
        rw [hid] at henough
        rw [← hjobs]
        exact (resolvedUnstarted_le toolCallId).trans henough
  -- what a started call is resolved by is what its start has provisioned
  have hstarted : ∀ call ∈ batch.calls, call.resultExists = true → ∀ record, call.started = some record →
      record.resultEntryId ∈ ownResults entries ownEntries call.toolCall.id ∧
        entries.has record.resultEntryId = true := by
    intro call hcall hresolved record hrecord
    rw [hcalls] at hcall
    obtain ⟨toolIndex, toolCall, hget, rfl⟩ := mem_calls.mp hcall
    rw [batchCall_started hrecord] at hresolved
    cases hexists : entries.has record.resultEntryId with
    | true => exact ⟨h.provisioned toolIndex toolCall record hget hrecord hexists, rfl⟩
    | false =>
      rw [hexists, h.pending toolIndex toolCall record hget hrecord hexists] at hresolved
      cases hresolved
  have hunstarted : ∀ call ∈ batch.calls, call.resultExists = true → call.started = none → call ∈ jobs := by
    intro call hcall hresolved hnone
    rw [hcalls] at hcall
    refine List.mem_filter.mpr ⟨hcall, ?_⟩
    rw [hnone, hresolved]
    rfl
  have hne : ∀ call ∈ batch.calls, ∀ other ∈ batch.calls, other.resultExists = true →
      ∀ record, call.started = some record → other.started = none → assign other ≠ record.resultEntryId := by
    intro call hcall other hother hresolved record hrecord hnone heq
    rw [hcalls] at hcall
    obtain ⟨toolIndex, toolCall, hget, rfl⟩ := mem_calls.mp hcall
    obtain ⟨hlt, -⟩ := List.getElem?_eq_some_iff.mp hget
    have hmem := hserves.mem other (hunstarted other hother hresolved hnone)
    exact (mem_unprovisioned.mp hmem).2 toolIndex record hlt hrecord heq.symm
  let result : ToolBatchCall δ → String := fun call =>
    (call.started.map (·.resultEntryId)).getD (assign call)
  have hsome : ∀ call record, call.started = some record → result call = record.resultEntryId := by
    intro call record hrecord
    show (call.started.map (·.resultEntryId)).getD (assign call) = _
    rw [hrecord]
    rfl
  have hnone : ∀ call, call.started = none → result call = assign call := by
    intro call hcall
    show (call.started.map (·.resultEntryId)).getD (assign call) = _
    rw [hcall]
    rfl
  refine ⟨result, ?_, ?_⟩
  · intro call hcall hresolved
    refine ⟨?_, fun record => hsome call record⟩
    cases hrecord : call.started with
    | some record =>
      rw [hsome call record hrecord]
      exact (hstarted call hcall hresolved record hrecord).1
    | none =>
      rw [hnone call hrecord]
      exact (mem_unprovisioned.mp (hserves.mem call (hunstarted call hcall hresolved hrecord))).1
  · intro call hcall other hother hresolved hresolved' heq
    cases hrecord : call.started with
    | some record =>
      rw [hsome call record hrecord] at heq
      cases hrecord' : other.started with
      | some record' =>
        rw [hsome other record' hrecord'] at heq
        have hexists := (hstarted call hcall hresolved record hrecord).2
        rw [hcalls] at hcall hother
        obtain ⟨toolIndex, toolCall, hget, rfl⟩ := mem_calls.mp hcall
        obtain ⟨toolIndex', toolCall', hget', rfl⟩ := mem_calls.mp hother
        obtain ⟨hlt, -⟩ := List.getElem?_eq_some_iff.mp hget
        obtain ⟨hlt', -⟩ := List.getElem?_eq_some_iff.mp hget'
        obtain rfl := h.apart toolIndex toolIndex' record record' hlt hlt' hrecord hrecord' hexists heq
        cases hget.symm.trans hget'
        rfl
      | none =>
        rw [hnone other hrecord'] at heq
        exact absurd heq.symm (hne call hcall other hother hresolved' record hrecord hrecord')
    | none =>
      rw [hnone call hrecord] at heq
      cases hrecord' : other.started with
      | some record' =>
        rw [hsome other record' hrecord'] at heq
        exact absurd heq (hne other hother call hcall hresolved record' hrecord' hrecord)
      | none =>
        rw [hnone other hrecord'] at heq
        exact hserves.injective call (hunstarted call hcall hresolved hrecord) other
          (hunstarted other hother hresolved' hrecord') heq

end Resolution

/-! ## Recovered batches -/

/-- What the tool batch of an input is derived from has a result for each call. -/
def LaneReductionInput.ResultsSuffice (input : LaneReductionInput δ) : Prop :=
  ∀ started ∈ input.openOperations, ∀ assistantEntry message,
    toolBatchEntry? (Stable.sort Entry.seq input.ownEntries) = some (assistantEntry, message) →
      Reducer.ResultsSuffice (operationRecords started.id input.sorted)
        (Stable.sort Entry.seq input.ownEntries) input.entryMap
        ((deferredWrites (operationRecords started.id input.sorted)).map (·.id)) assistantEntry
        message

/-- The resolved calls of a recovered batch have results of their own if and only if there are
enough results. -/
theorem toolBatch_resolvedApart_iff [DecidableEq δ] {input : LaneReductionInput δ}
    {result : LaneReductionResult δ} {operation : OperationState δ} {batch : ToolBatchState δ}
    (hok : reduceLaneState input = .ok result) (hoperation : result.laneState.operation = some operation)
    (hbatch : operation.toolBatch = some batch) :
    ResolvedApart input.entryMap (Stable.sort Entry.seq input.ownEntries) batch ↔
      input.ResultsSuffice := by
  obtain ⟨hvalid, rfl⟩ := reduceLaneState_ok.mp hok
  obtain ⟨started, hstarted, rfl⟩ := Option.map_eq_some_iff.mp hoperation
  have hone : input.openOperations = [started] := by
    have hlength := (validateRecordLog_ok.mp hvalid).1
    match hopen : input.openOperations, hlength with
    | [], _ => simp [hopen] at hstarted
    | [only], _ => simpa [hopen] using hstarted
  have hderived : deriveToolBatch (operationRecords started.id input.sorted)
      (Stable.sort Entry.seq input.ownEntries) input.entryMap
      ((deferredWrites (operationRecords started.id input.sorted)).map (·.id)) = some batch := hbatch
  cases hentry : toolBatchEntry? (Stable.sort Entry.seq input.ownEntries) with
  | none =>
    unfold deriveToolBatch at hderived
    rw [hentry] at hderived
    cases hderived
  | some found =>
    obtain ⟨assistantEntry, message⟩ := found
    have hcalls := deriveToolBatch_some hentry hderived
    rw [LaneReductionInput.ResultsSuffice, hone]
    constructor
    · intro hapart started' hmem assistantEntry' message' hentry'
      obtain rfl := List.mem_singleton.mp hmem
      cases hentry.symm.trans hentry'
      exact hapart.suffice hcalls
    · intro hsuffice
      exact (hsuffice started List.mem_cons_self assistantEntry message hentry).resolvedApart hcalls

/-! ## Slices -/

/-- An assistant message that uses one id for two calls -/
def repeatedCalls : Entry Unit where
  id := "assistant"
  body := .message (.assistant
    { content := [.toolCall ⟨"call", "read", ()⟩, .toolCall ⟨"call", "read", ()⟩], provider := "p"
      model := "m", stopReason := .toolUse, deferred := none, rest := () }) false
  seq := 2
  parentId := none
  timestamp := 0

def callResult (id : String) (seq : ℕ) : Entry Unit where
  id := id
  body := .message (.toolResult { toolCallId := "call", toolName := "read", rest := () }) false
  seq := seq
  parentId := some "assistant"
  timestamp := 0

/-- A run stopped behind that message, with these starts and results -/
def repeatedRun (starts : List (LaneRecord Unit)) (results : List (Entry Unit)) : LaneReductionInput Unit :=
  { openRun (startedRun 1 []) starts [] with
    entries := repeatedCalls :: results
    ownEntries := repeatedCalls :: results }

/-- The start of the second call -/
def secondStarted : ToolStartedRecord Unit :=
  { id := "tool", seq := 4, lane := "main", timestamp := 0, runId := "run"
    assistantEntryId := "assistant", toolIndex := 1, toolCallId := "call", toolName := "read"
    resultEntryId := "result", rest := () }

theorem toolBatch_resolvedApart_finished :
    ∃ operation batch, (deriveLaneState (repeatedRun [.tool_started secondStarted]
        [callResult "blocked" 3, callResult "result" 5])).laneState.operation = some operation ∧
      operation.toolBatch = some batch ∧
      (ResolvedApart (repeatedRun [.tool_started secondStarted]
          [callResult "blocked" 3, callResult "result" 5]).entryMap
        [repeatedCalls, callResult "blocked" 3, callResult "result" 5] batch ↔
        (repeatedRun [.tool_started secondStarted] [callResult "blocked" 3, callResult "result" 5]).ResultsSuffice) :=
  ⟨_, _, rfl, rfl, toolBatch_resolvedApart_iff rfl rfl rfl⟩

/-- The two calls, resolved -/
def resolvedCall (toolIndex : ℕ) (started : Option (ToolStartedRecord Unit)) : ToolBatchCall Unit :=
  ⟨toolIndex, ⟨"call", "read", ()⟩, started, true, false⟩

theorem not_resolvedApart_of_one (started : Option (ToolStartedRecord Unit))
    {batch : ToolBatchState Unit} {entries : EntryMap Unit} {ownEntries : List (Entry Unit)}
    (hcalls : batch.calls = [resolvedCall 0 none, resolvedCall 1 started])
    (hone : ownResults entries ownEntries "call" = ["blocked"]) :
    ¬ ResolvedApart entries ownEntries batch := by
  rintro ⟨result, hown, hapart⟩
  have hfirst : resolvedCall 0 none ∈ batch.calls := by simp [hcalls]
  have hsecond : resolvedCall 1 started ∈ batch.calls := by simp [hcalls]
  have hmem := (hown _ hfirst rfl).1
  have hmem' := (hown _ hsecond rfl).1
  rw [show (resolvedCall 0 none).toolCall.id = "call" from rfl, hone, List.mem_singleton] at hmem
  rw [show (resolvedCall 1 started).toolCall.id = "call" from rfl, hone, List.mem_singleton] at hmem'
  have hsame := hapart _ hfirst _ hsecond rfl rfl (hmem.trans hmem'.symm)
  have hindex : (0 : ℕ) = 1 := congrArg ToolBatchCall.toolIndex hsame
  cases hindex

/-- With these starts the one result leaves nothing unresolved, and no results of their own resolve
both calls. -/
def ResolvesTwo (starts : List (LaneRecord Unit)) : Prop :=
  reduceLaneState (repeatedRun starts [callResult "blocked" 3]) =
      .ok (deriveLaneState (repeatedRun starts [callResult "blocked" 3])) ∧
    ∃ operation batch, (deriveLaneState (repeatedRun starts [callResult "blocked" 3])).laneState.operation =
        some operation ∧
      operation.toolBatch = some batch ∧ batch.unresolved = false ∧
      ¬ ResolvedApart (repeatedRun starts [callResult "blocked" 3]).entryMap
        [repeatedCalls, callResult "blocked" 3] batch

/-- The result of a blocked call resolves a second call with its id, though that has neither
started nor been blocked, or has started and has no result. -/
theorem result_resolves_two : ResolvesTwo [] ∧ ResolvesTwo [.tool_started secondStarted] := by
  constructor
  · refine ⟨rfl, _, _, rfl, rfl, rfl, not_resolvedApart_of_one none rfl ?_⟩
    decide +kernel
  · refine ⟨rfl, _, _, rfl, rfl, rfl, not_resolvedApart_of_one (some secondStarted) rfl ?_⟩
    decide +kernel

end Mcpi.Reducer
