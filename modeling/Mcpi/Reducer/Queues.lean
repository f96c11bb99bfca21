import Mcpi.Reducer.Log

/-!
# Queue items in recovery

The reducer takes the queues of a lane apart by filters: an enqueued item is pending unless it
was cancelled, has become an entry, or was captured as an initial message of the open run. The
validator sees to it that nothing cancelled becomes an entry, so that every item is in one
place.
-/

namespace Mcpi.Reducer

variable {δ : Type}

/-! ## Statement -/

/-- Where a queued item can be -/
inductive QueuePlace where
  | pending
  | cancelled
  | materialized
  | captured
  deriving DecidableEq

/-- An entry with this id exists. -/
def Materialized (entries : List (Entry δ)) (id : String) : Prop :=
  ∃ entry ∈ entries, entry.id = id

/-- The pending list of a queue -/
def LaneState.pending (state : LaneState δ) : Queue → List (ProvisionedEntry δ)
  | .nextRun => state.pendingNextRun
  | .steer runId =>
    match state.operation.filter fun operation => operation.id = runId with
    | none => []
    | some operation => operation.pendingSteer
  | .followUp runId =>
    match state.operation.filter fun operation => operation.id = runId with
    | none => []
    | some operation => operation.pendingFollowUp

/-- The open run will take this queue's items: it is not aborting. -/
def LaneState.Delivers (state : LaneState δ) : Queue → Prop
  | .nextRun => True
  | .steer runId | .followUp runId =>
    ∃ operation, state.operation = some operation ∧ operation.id = runId ∧
      operation.kind = .run ∧ operation.aborting = false

/-- The place of an item; `captured` lists the targets of the last place. -/
def InPlace (input : LaneReductionInput δ) (state : LaneState δ) (captured : List String)
    (record : QueueEnqueuedRecord δ) : QueuePlace → Prop
  | .pending => record.target.id ∈ (state.pending record.queue).map (·.id)
  | .cancelled => record.target.id ∈ cancelledQueueIds input.records
  | .materialized => Materialized input.entries record.target.id
  | .captured => record.queue = .nextRun ∧ record.target.id ∈ captured

/-- A pending list holds targets of its queue in the order they were enqueued. -/
def InEnqueueOrder (records : List (LaneRecord δ)) (queue : Queue) (targets : List (ProvisionedEntry δ)) : Prop :=
  ∃ enqueues : List (QueueEnqueuedRecord δ), targets = enqueues.map (·.target) ∧
      (∀ record ∈ enqueues, .queue_enqueued record ∈ records ∧ record.queue = queue) ∧
      enqueues.Pairwise fun record later => record.seq ≤ later.seq

/-- A list holds those of the targets that are not entries yet, each of them once. -/
def ListsMissing (entries : List (Entry δ)) (targets listed : List (ProvisionedEntry δ)) : Prop :=
  (listed.map (·.id)).Nodup ∧ ∀ target, target ∈ listed ↔ target ∈ targets ∧ ¬ Materialized entries target.id

/-- Recovery loses no queued item. -/
structure Kept (input : LaneReductionInput δ) (state : LaneState δ) (captured : List String) : Prop where
  place : ∀ record, .queue_enqueued record ∈ input.records → state.Delivers record.queue →
    ∃! place, InPlace input state captured record place
  order : ∀ queue, InEnqueueOrder input.records queue (state.pending queue)
  writes : ∀ operation, state.operation = some operation →
    ListsMissing input.entries (deferredWrites (operationRecords operation.id input.records))
      operation.pendingWrites
  initial : ∀ operation, state.operation = some operation →
    ListsMissing input.entries operation.intent.initialMessages operation.missingInitialMessages

/-- Recovery loses no queued item and has none twice. -/
structure Conserved (input : LaneReductionInput δ) (state : LaneState δ) (captured : List String) : Prop
    extends Kept input state captured where
  once : ∀ queue, ((state.pending queue).map (·.id)).Nodup

/-- The initial messages of the open run that are not entries yet -/
def LaneState.capturedMissing (state : LaneState δ) : List String :=
  match state.operation with
  | none => []
  | some operation => operation.missingInitialMessages.map (·.id)

/-- The targets of the open run's initial messages -/
def LaneReductionInput.captured (input : LaneReductionInput δ) : List String :=
  capturedInitialMessageIds input.openOperations.head?

/-- No target is queued twice. -/
def LaneReductionInput.EnqueuedOnce (input : LaneReductionInput δ) : Prop :=
  ((queueEnqueues input.records).map (·.target.id)).Nodup

/-- No target is deferred or captured twice, and nothing captured is cancelled. -/
structure LaneReductionInput.DistinctTargets (input : LaneReductionInput δ) : Prop where
  deferred : ∀ started ∈ input.openOperations,
    ((deferredWrites (operationRecords started.id input.records)).map (·.id)).Nodup
  initial : ∀ started ∈ input.openOperations, (started.intent.initialMessages.map (·.id)).Nodup
  captured : ∀ id ∈ input.captured, id ∉ cancelledQueueIds input.records

/-! ## Entries and records of the reducer -/

variable {id : String}

/-- The own entries add nothing to the entries they are among. -/
theorem has_own {entries own : List (Entry δ)} (hown : ∀ entry ∈ own, entry ∈ entries) :
    (entriesById (entries ++ Stable.sort Entry.seq own)).has id = true ↔ Materialized entries id := by
  rw [entriesById_has]
  constructor
  · rintro ⟨entry, hentry, hid⟩
    rcases List.mem_append.mp hentry with hentry | hentry
    · exact ⟨entry, hentry, hid⟩
    · exact ⟨entry, hown entry (Stable.mem_sort.mp hentry), hid⟩
  · rintro ⟨entry, hentry, hid⟩
    exact ⟨entry, List.mem_append_left _ hentry, hid⟩

theorem reduceLaneState_ok [DecidableEq δ] {input : LaneReductionInput δ} {result : LaneReductionResult δ} :
    reduceLaneState input = .ok result ↔
      validateRecordLog input.toRecordLogSlice = .ok () ∧ result = deriveLaneState input := by
  unfold reduceLaneState
  rw [Except.bind_ok]
  constructor
  · rintro ⟨_, hvalid, heq⟩
    exact ⟨hvalid, (Except.ok.inj heq).symm⟩
  · rintro ⟨hvalid, rfl⟩
    exact ⟨(), hvalid, rfl⟩

theorem mem_cancelledQueueIds_sort (records : List (LaneRecord δ)) (id : String) :
    id ∈ cancelledQueueIds (Stable.sort LaneRecord.seq records) ↔ id ∈ cancelledQueueIds records := by
  simp

theorem not_materialized_of_cancelled [DecidableEq δ] {input : RecordLogSlice δ}
    (hok : validateRecordLog input = .ok ())
    (hcancelled : id ∈ cancelledQueueIds input.records) : ¬ Materialized input.entries id := by
  obtain ⟨-, -, hrecords⟩ := validateRecordLog_ok.mp hok
  obtain ⟨record, hmem, rfl⟩ := mem_cancelledQueueIds.mp hcancelled
  obtain ⟨before, _, -, hrecord⟩ := validateRecord_of_mem hrecords (Stable.mem_sort.mpr hmem)
  obtain ⟨_, -, hrecord⟩ := Except.bind_ok.mp hrecord
  intro hmaterialized
  have hhas := entriesById_has.mpr hmaterialized
  have hpending : cancelsPending (entriesById input.entries) (stateAfter before) record = false := by
    simp [cancelsPending, hhas]
  simp [hpending, corrupt] at hrecord

/-! ## Pending records -/

section Pending

variable {input : LaneReductionInput δ}

/-- The entries the reducer looks up -/
def LaneReductionInput.entryMap (input : LaneReductionInput δ) : EntryMap δ :=
  entriesById (input.entries ++ Stable.sort Entry.seq input.ownEntries)

/-- The records in order -/
def LaneReductionInput.sorted (input : LaneReductionInput δ) : List (LaneRecord δ) :=
  Stable.sort LaneRecord.seq input.records

theorem mem_pendingQueueRecords (hown : ∀ entry ∈ input.ownEntries, entry ∈ input.entries)
    {record : QueueEnqueuedRecord δ} :
    record ∈ pendingQueueRecords input.entryMap input.sorted ↔
      .queue_enqueued record ∈ input.records ∧ ¬ Materialized input.entries record.target.id ∧
        record.target.id ∉ cancelledQueueIds input.records := by
  have hhas : input.entryMap.has record.target.id = true ↔ Materialized input.entries record.target.id := has_own hown
  have hcancelled := mem_cancelledQueueIds_sort input.records record.target.id
  simp only [pendingQueueRecords, LaneReductionInput.sorted, List.mem_filter, mem_queueEnqueues,
    Stable.mem_sort, Bool.and_eq_true, Bool.not_eq_true', ← Bool.not_eq_true, hhas,
    List.contains_iff_mem, hcancelled]

theorem mem_pendingTargets {entries : EntryMap δ} {records : List (LaneRecord δ)} {queue : Queue} :
    id ∈ (pendingTargets entries records queue).map (·.id) ↔
      ∃ record ∈ pendingQueueRecords entries records, record.queue = queue ∧ record.target.id = id := by
  simp [pendingTargets, and_assoc]

/-- A pending list is part of the pending records of its queue. -/
theorem pending_sublist (input : LaneReductionInput δ) (queue : Queue) :
    ((deriveLaneState input).laneState.pending queue).Sublist (pendingTargets input.entryMap input.sorted queue) := by
  cases queue with
  | nextRun => exact List.filter_sublist
  | steer runId | followUp runId =>
    simp only [LaneState.pending, deriveLaneState]
    cases input.openOperations.head? with
    | none => exact List.nil_sublist _
    | some started =>
      by_cases hid : started.id = runId
      · subst hid
        rw [Option.map_some, Option.filter_some, if_pos (by simp [deriveOperation])]
        dsimp only [deriveOperation]
        split
        · exact List.nil_sublist _
        · exact List.Sublist.refl _
      · rw [Option.map_some, Option.filter_some, if_neg (by simp [deriveOperation, hid])]
        exact List.nil_sublist _

/-- The pending list of a queue that delivers lacks only what the open run has captured. -/
theorem pending_eq {queue : Queue} (hdelivers : (deriveLaneState input).laneState.Delivers queue) :
    (deriveLaneState input).laneState.pending queue =
      (pendingTargets input.entryMap input.sorted queue).filter fun target =>
        !(queue = .nextRun && input.captured.contains target.id) := by
  cases queue with
  | nextRun =>
    show derivePendingNextRun _ _ _ = _
    simp [derivePendingNextRun, LaneReductionInput.captured, LaneReductionInput.entryMap, LaneReductionInput.sorted]
  | steer runId | followUp runId =>
    obtain ⟨operation, hoperation, rfl, -, haborting⟩ := hdelivers
    rw [LaneState.pending, hoperation, Option.filter_some, if_pos (by simp), List.filter_eq_self.mpr (by simp)]
    obtain ⟨started, -, rfl⟩ := Option.map_eq_some_iff.mp hoperation
    show (if _ then [] else _) = _
    rw [if_neg (by simpa [deriveOperation] using haborting)]
    rfl

/-- What is enqueued and delivered is pending unless it is elsewhere. -/
theorem pending_iff (hown : ∀ entry ∈ input.ownEntries, entry ∈ input.entries)
    {record : QueueEnqueuedRecord δ} (hrecord : .queue_enqueued record ∈ input.records)
    (hdelivers : (deriveLaneState input).laneState.Delivers record.queue) :
    record.target.id ∈ ((deriveLaneState input).laneState.pending record.queue).map (·.id) ↔
      ¬ Materialized input.entries record.target.id ∧ record.target.id ∉ cancelledQueueIds input.records ∧
        ¬ (record.queue = .nextRun ∧ record.target.id ∈ input.captured) := by
  rw [pending_eq hdelivers]
  constructor
  · intro hmem
    obtain ⟨target, htarget, hid⟩ := List.mem_map.mp hmem
    obtain ⟨htarget, hnot⟩ := List.mem_filter.mp htarget
    obtain ⟨record', hpending, -, hid'⟩ :=
      mem_pendingTargets.mp (List.mem_map.mpr ⟨target, htarget, hid⟩)
    obtain ⟨-, hmaterialized, hcancelled⟩ := (mem_pendingQueueRecords hown).mp hpending
    rw [hid'] at hmaterialized hcancelled
    rw [hid] at hnot
    exact ⟨hmaterialized, hcancelled, by simpa [imp_iff_not_or] using hnot⟩
  · rintro ⟨hmaterialized, hcancelled, hnot⟩
    have hpending : record ∈ pendingQueueRecords input.entryMap input.sorted :=
      (mem_pendingQueueRecords hown).mpr ⟨hrecord, hmaterialized, hcancelled⟩
    refine List.mem_map.mpr ⟨record.target, List.mem_filter.mpr ⟨?_, ?_⟩, rfl⟩
    · exact List.mem_map_of_mem (List.mem_filter.mpr ⟨hpending, by simp⟩)
    · simpa [imp_iff_not_or] using hnot

theorem pending_once (hdistinct : input.EnqueuedOnce)
    (queue : Queue) : (((deriveLaneState input).laneState.pending queue).map (·.id)).Nodup := by
  have hperm : (queueEnqueues input.sorted).Perm (queueEnqueues input.records) :=
    (Stable.perm_sort input.records).filterMap _
  have hsorted : ((queueEnqueues input.sorted).map (·.target.id)).Nodup :=
    (hperm.map _).nodup_iff.mpr hdistinct
  have hsub : ((pendingTargets input.entryMap input.sorted queue).map (·.id)).Sublist
      ((queueEnqueues input.sorted).map (·.target.id)) := by
    rw [pendingTargets, List.map_map]
    exact (List.filter_sublist.trans List.filter_sublist).map _
  exact List.Nodup.sublist (((pending_sublist input queue).map _).trans hsub) hsorted

theorem pending_order (input : LaneReductionInput δ) (queue : Queue) :
    InEnqueueOrder input.records queue ((deriveLaneState input).laneState.pending queue) := by
  obtain ⟨enqueues, hsub, heq⟩ := List.sublist_map_iff.mp (pending_sublist input queue)
  have hall : enqueues.Sublist (queueEnqueues input.sorted) :=
    hsub.trans (List.filter_sublist.trans List.filter_sublist)
  refine ⟨enqueues, heq, fun record hrecord => ⟨?_, ?_⟩, ?_⟩
  · have hmem := mem_queueEnqueues.mp (hall.subset hrecord)
    exact Stable.mem_sort.mp hmem
  · simpa using (List.mem_filter.mp (hsub.subset hrecord)).2
  · apply List.Pairwise.sublist hall
    apply List.Pairwise.filterMap _ _ (Stable.sort_sorted LaneRecord.seq input.records)
    intro r r' hle record hrecord record' hrecord'
    rw [enqueue?_eq_some] at hrecord hrecord'
    subst hrecord hrecord'
    exact hle

end Pending

/-! ## Writes and initial messages -/

theorem missing_lists {input : LaneReductionInput δ}
    (hown : ∀ entry ∈ input.ownEntries, entry ∈ input.entries) {targets : List (ProvisionedEntry δ)}
    (hdistinct : (targets.map (·.id)).Nodup) :
    ListsMissing input.entries targets (missing input.entryMap targets) := by
  refine ⟨List.Nodup.sublist (List.filter_sublist.map _) hdistinct, fun target => ?_⟩
  have hhas : input.entryMap.has target.id = true ↔ Materialized input.entries target.id :=
    has_own hown
  simp [missing, List.mem_filter, ← hhas]

/-- What is missing of the deferred writes does not depend on their order. -/
theorem pendingWrites_lists {input : LaneReductionInput δ} (hown : ∀ entry ∈ input.ownEntries, entry ∈ input.entries)
    (hdistinct : ((deferredWrites (operationRecords id input.records)).map (·.id)).Nodup) :
    ListsMissing input.entries (deferredWrites (operationRecords id input.records))
      (missing input.entryMap (deferredWrites (operationRecords id input.sorted))) := by
  have hperm : (deferredWrites (operationRecords id input.sorted)).Perm
      (deferredWrites (operationRecords id input.records)) :=
    (((Stable.perm_sort input.records).filter _).filterMap _).map _
  obtain ⟨hnodup, hmem⟩ := missing_lists hown ((hperm.map _).nodup_iff.mpr hdistinct)
  exact ⟨hnodup, fun target => (hmem target).trans (and_congr_left fun _ => hperm.mem_iff)⟩

/-! ## Conservation -/

/-- Every queued item is in one place, if what the open run has captured counts as captured until
it is an entry, and in its queue once, if it is queued once. -/
theorem queues_conserved [DecidableEq δ] {input : LaneReductionInput δ}
    {result : LaneReductionResult δ} (hok : reduceLaneState input = .ok result)
    (hown : ∀ entry ∈ input.ownEntries, entry ∈ input.entries) (hdistinct : input.DistinctTargets) :
    Kept input result.laneState result.laneState.capturedMissing ∧
      (input.EnqueuedOnce → Conserved input result.laneState result.laneState.capturedMissing) := by
  obtain ⟨hvalid, rfl⟩ := reduceLaneState_ok.mp hok
  have hcaptured : ∀ id, id ∈ (deriveLaneState input).laneState.capturedMissing ↔
      id ∈ input.captured ∧ ¬ Materialized input.entries id := by
    intro id
    simp only [LaneState.capturedMissing, deriveLaneState, LaneReductionInput.captured]
    cases input.openOperations.head? with
    | none => simp [capturedInitialMessageIds]
    | some started =>
      have hmissing : ∀ target, target ∈ missing input.entryMap started.intent.initialMessages ↔
          target ∈ started.intent.initialMessages ∧ ¬ Materialized input.entries target.id := by
        intro target
        have hhas : input.entryMap.has target.id = true ↔ Materialized input.entries target.id := has_own hown
        simp [missing, List.mem_filter, ← hhas]
      show id ∈ (missing input.entryMap started.intent.initialMessages).map (·.id) ↔
        id ∈ started.intent.initialMessages.map (·.id) ∧ _
      grind
  suffices hkept : Kept input (deriveLaneState input).laneState (deriveLaneState input).laneState.capturedMissing from
    ⟨hkept, fun honce => ⟨hkept, pending_once honce⟩⟩
  refine ⟨?_, pending_order input, ?_, ?_⟩
  · intro record hrecord hdelivers
    have hpending := pending_iff hown hrecord hdelivers
    have hlive : record.target.id ∈ cancelledQueueIds input.records →
        ¬ Materialized input.entries record.target.id := not_materialized_of_cancelled hvalid
    have hheld := hdistinct.captured record.target.id
    have hmissing := hcaptured record.target.id
    by_cases hmaterialized : Materialized input.entries record.target.id
    · refine ⟨.materialized, hmaterialized, fun place hplace => ?_⟩
      cases place <;> grind [InPlace]
    by_cases hcancelled : record.target.id ∈ cancelledQueueIds input.records
    · refine ⟨.cancelled, hcancelled, fun place hplace => ?_⟩
      cases place <;> grind [InPlace]
    by_cases hheld : record.queue = .nextRun ∧ record.target.id ∈ input.captured
    · refine ⟨.captured, ⟨hheld.1, hmissing.mpr ⟨hheld.2, hmaterialized⟩⟩, fun place hplace => ?_⟩
      cases place <;> grind [InPlace]
    · refine ⟨.pending, hpending.mpr ⟨hmaterialized, hcancelled, hheld⟩, fun place hplace => ?_⟩
      cases place <;> grind [InPlace]
  · intro operation hoperation
    obtain ⟨started, hstarted, rfl⟩ := Option.map_eq_some_iff.mp hoperation
    exact pendingWrites_lists hown (hdistinct.deferred started (List.mem_of_mem_head? hstarted))
  · intro operation hoperation
    obtain ⟨started, hstarted, rfl⟩ := Option.map_eq_some_iff.mp hoperation
    exact missing_lists hown (hdistinct.initial started (List.mem_of_mem_head? hstarted))

/-! ## Slices -/

def queueTarget (id : String) : ProvisionedEntry Unit := ⟨id, .custom ()⟩

def enqueued (seq : ℕ) (queue : Queue) (id : String) : LaneRecord Unit :=
  .queue_enqueued
    { id := "enqueue", seq, lane := "main", timestamp := 0, queue, target := queueTarget id }

def cancelled (seq : ℕ) (runId : Option String) (entryId : String) : LaneRecord Unit :=
  .queue_cancelled { id := "cancel", seq, lane := "main", timestamp := 0, runId, entryId }

def writeDeferred (seq : ℕ) (id : String) : LaneRecord Unit :=
  .write_deferred
    { id := "write", seq, lane := "main", timestamp := 0, runId := "run", target := queueTarget id }

/-- A run with these initial messages -/
def startedRun (seq : ℕ) (initial : List String) : OperationStartedRecord Unit :=
  { id := "run", seq, lane := "main", timestamp := 0, sourceLeafId := none
    intent := .run (initial.map queueTarget) () }

/-- A slice with an open run and these entries -/
def openRun (started : OperationStartedRecord Unit) (records : List (LaneRecord Unit))
    (materialized : List String) : LaneReductionInput Unit where
  lane := "main"
  openOperations := [started]
  records := .operation_started started :: records
  entries := materialized.map fun id =>
    { queueTarget id with seq := 9, parentId := none, timestamp := 0 }
  leafId := none
  ownEntries := []
  configurationEntries := []
  defaults := ⟨⟨"", ""⟩, "", []⟩

/-- Items of every queue: pending, cancelled, materialized and captured -/
def mixedQueues : LaneReductionInput Unit :=
  openRun (startedRun 3 ["captured"])
    [enqueued 1 .nextRun "captured", enqueued 2 .nextRun "next", enqueued 4 (.steer "run") "steer",
      enqueued 5 (.followUp "run") "dropped", cancelled 6 (some "run") "dropped",
      enqueued 7 (.steer "run") "done", writeDeferred 8 "write"] ["done"]

theorem queues_conserved_mixed :
    reduceLaneState mixedQueues = .ok (deriveLaneState mixedQueues) ∧
      Conserved mixedQueues (deriveLaneState mixedQueues).laneState
        (deriveLaneState mixedQueues).laneState.capturedMissing := by
  have hok : reduceLaneState mixedQueues = .ok (deriveLaneState mixedQueues) := rfl
  refine ⟨hok, (queues_conserved hok (fun entry hentry => absurd hentry List.not_mem_nil) ?_).2 ?_⟩
  · exact ⟨by decide, by decide, by decide⟩
  · show List.Nodup _
    decide

/-- A captured item that has become an entry, and one that is cancelled -/
def capturedDone : LaneReductionInput Unit :=
  openRun (startedRun 2 ["next"]) [enqueued 1 .nextRun "next"] ["next"]

def capturedCancelled : LaneReductionInput Unit :=
  openRun (startedRun 3 ["next"]) [enqueued 1 .nextRun "next", cancelled 2 none "next"] []

/-- Targets that occur twice, in a queue, among the writes and among the initial messages -/
def enqueuedTwice : LaneReductionInput Unit :=
  openRun (startedRun 1 []) [enqueued 2 .nextRun "next", enqueued 3 .nextRun "next"] []

def deferredTwice : LaneReductionInput Unit :=
  openRun (startedRun 1 []) [writeDeferred 2 "write", writeDeferred 3 "write"] []

def initialTwice : LaneReductionInput Unit := openRun (startedRun 1 ["prompt", "prompt"]) [] []

/-- An accepted slice that keeps an item in two places, or lists it twice -/
def Unconserved (input : LaneReductionInput Unit) : Prop :=
  reduceLaneState input = .ok (deriveLaneState input) ∧ input.ownEntries = [] ∧
    ¬ Conserved input (deriveLaneState input).laneState input.captured

/-- In an accepted slice an item can be captured and an entry, or captured and cancelled, and what
is queued, deferred or captured twice is listed twice. -/
theorem queues_not_conserved :
    Unconserved capturedDone ∧ Unconserved capturedCancelled ∧ Unconserved enqueuedTwice ∧
      Unconserved deferredTwice ∧ Unconserved initialTwice := by
  have hplace : ∀ (place place' : QueuePlace) {input : LaneReductionInput Unit}
      {record : QueueEnqueuedRecord Unit}, .queue_enqueued record ∈ input.records →
      record.queue = .nextRun → InPlace input (deriveLaneState input).laneState input.captured record place →
      InPlace input (deriveLaneState input).laneState input.captured record place' →
      place ≠ place' → ¬ Conserved input (deriveLaneState input).laneState input.captured := by
    intro place place' input record hrecord hqueue hfirst hsecond hne hconserved
    have hdelivers : (deriveLaneState input).laneState.Delivers record.queue := by
      rw [hqueue]
      trivial
    exact hne ((hconserved.place record hrecord hdelivers).unique hfirst hsecond)
  refine ⟨⟨rfl, rfl, ?_⟩, ⟨rfl, rfl, ?_⟩, ⟨rfl, rfl, ?_⟩, ⟨rfl, rfl, ?_⟩, rfl, rfl, ?_⟩
  · apply hplace .materialized .captured (List.mem_cons_of_mem _ List.mem_cons_self) rfl
    · exact ⟨_, List.mem_cons_self, rfl⟩
    · exact ⟨rfl, by decide⟩
    · nofun
  · apply hplace .cancelled .captured (List.mem_cons_of_mem _ List.mem_cons_self) rfl
    · show "next" ∈ cancelledQueueIds capturedCancelled.records
      decide
    · exact ⟨rfl, by decide⟩
    · nofun
  · intro hconserved
    exact absurd (hconserved.once .nextRun) (by decide)
  · intro hconserved
    exact absurd (hconserved.writes _ rfl).1 (by decide)
  · intro hconserved
    exact absurd (hconserved.initial _ rfl).1 (by decide)

end Mcpi.Reducer
