import Mcpi.Reducer.Queues

/-!
# What the validator lets a cancellation cancel

A cancellation has to find an enqueue before it, under its own run, of an item that is no entry.
The validator keeps no record of the cancellations it has accepted, nor of the items a run has
captured, so the item need not be pending any more.
-/

namespace Mcpi.Reducer

variable {δ : Type}

/-- The operations the slice tells of: those its records start, and the open ones. -/
def RecordLogSlice.operations (input : RecordLogSlice δ) : List (OperationStartedRecord δ) :=
  operationStarts input.records ++ input.openOperations

/-- The cancelled item was in a queue when it was cancelled. -/
structure CancelsPending (input : RecordLogSlice δ) (record : QueueCancelledRecord) : Prop where
  enqueued : ∃ enqueue, .queue_enqueued enqueue ∈ input.records ∧ enqueue.seq < record.seq ∧
    enqueue.target.id = record.entryId ∧ enqueue.queue.runId = record.runId
  not_materialized : ¬ Materialized input.entries record.entryId
  not_captured : ∀ started ∈ input.operations, started.seq < record.seq →
    record.entryId ∉ started.intent.initialMessages.map (·.id)
  not_cancelled : ∀ earlier, .queue_cancelled earlier ∈ input.records → earlier.seq < record.seq →
    earlier.entryId ≠ record.entryId

/-- No item is cancelled twice. -/
def CancelsOnce (input : RecordLogSlice δ) : Prop :=
  ∀ record, .queue_cancelled record ∈ input.records →
    ∀ other, .queue_cancelled other ∈ input.records → other.entryId = record.entryId → other.seq = record.seq

/-- No initial message of a run is cancelled after the run has started. -/
def SparesCaptured (input : RecordLogSlice δ) : Prop :=
  ∀ record, .queue_cancelled record ∈ input.records → ∀ started ∈ input.operations,
    record.entryId ∈ started.intent.initialMessages.map (·.id) → record.seq ≤ started.seq

theorem enqueue_of_cancelled [DecidableEq δ] {input : RecordLogSlice δ}
    (hok : validateRecordLog input = .ok ()) {record : QueueCancelledRecord}
    (hmem : .queue_cancelled record ∈ input.records) :
    ∃ enqueue, .queue_enqueued enqueue ∈ input.records ∧ enqueue.seq < record.seq ∧
      enqueue.target.id = record.entryId ∧ enqueue.queue.runId = record.runId := by
  obtain ⟨-, -, hrecords⟩ := validateRecordLog_ok.mp hok
  obtain ⟨before, after, hsplit, hrecord⟩ :=
    validateRecord_of_mem hrecords (Stable.mem_sort.mpr hmem)
  obtain ⟨_, -, hrecord⟩ := Except.bind_ok.mp hrecord
  have hpending : cancelsPending (entriesById input.entries) (stateAfter before) record = true := by
    by_contra hnot
    simp [hnot, corrupt] at hrecord
  rw [cancelsPending, Bool.and_eq_true, stateAfter_queueEnqueues, Option.any_eq_true] at hpending
  obtain ⟨⟨enqueue, hlast, hmatch⟩, -⟩ := hpending
  rw [Bool.and_eq_true, decide_eq_true_eq, decide_eq_true_eq] at hmatch
  obtain ⟨henqueue, hid⟩ := List.mem_filter.mp (List.mem_of_getLast? hlast)
  have hsorted : .queue_enqueued enqueue ∈ Stable.sort LaneRecord.seq input.records := by
    rw [hsplit]
    exact List.mem_append_left _ (mem_queueEnqueues.mp henqueue)
  exact ⟨enqueue, Stable.mem_sort.mp hsorted, hmatch.1, of_decide_eq_true hid, hmatch.2⟩

/-- An accepted cancellation fails to cancel a pending item only where the item had been cancelled
or captured before. -/
theorem cancelsPending_iff [DecidableEq δ] {input : RecordLogSlice δ} (hok : validateRecordLog input = .ok ()) :
    (∀ record, .queue_cancelled record ∈ input.records → CancelsPending input record) ↔
      CancelsOnce input ∧ SparesCaptured input := by
  constructor
  · intro hpending
    constructor
    · intro record hrecord other hother heq
      -- of two cancellations of an item the later one finds the earlier one
      rcases lt_trichotomy other.seq record.seq with hlt | hseq | hgt
      · exact absurd heq ((hpending record hrecord).not_cancelled other hother hlt)
      · exact hseq
      · exact absurd heq.symm ((hpending other hother).not_cancelled record hrecord hgt)
    · intro record hrecord started hstarted hinitial
      by_contra hnot
      exact (hpending record hrecord).not_captured started hstarted (not_le.mp hnot) hinitial
  · rintro ⟨honce, hcaptured⟩ record hrecord
    refine ⟨enqueue_of_cancelled hok hrecord, ?_, ?_, ?_⟩
    · exact not_materialized_of_cancelled hok (mem_cancelledQueueIds.mpr ⟨record, hrecord, rfl⟩)
    · intro started hstarted hlt hinitial
      exact absurd (hcaptured record hrecord started hstarted hinitial) (not_le.mpr hlt)
    · intro earlier hearlier hlt heq
      exact absurd (honce record hrecord earlier hearlier heq) hlt.ne

/-- An item enqueued and cancelled once -/
def cancelledOnce : LaneReductionInput Unit :=
  openRun (startedRun 1 []) [enqueued 2 (.steer "run") "item", cancelled 3 (some "run") "item"] []

theorem cancelsPending_cancelledOnce :
    (∀ record, .queue_cancelled record ∈ cancelledOnce.records → CancelsPending cancelledOnce.toRecordLogSlice record) ↔
      CancelsOnce cancelledOnce.toRecordLogSlice ∧ SparesCaptured cancelledOnce.toRecordLogSlice :=
  cancelsPending_iff rfl

/-- An item cancelled again -/
def cancelledTwice : LaneReductionInput Unit :=
  openRun (startedRun 1 []) [enqueued 2 (.steer "run") "item", cancelled 3 (some "run") "item",
    cancelled 4 (some "run") "item"] []

/-- An item cancelled after a run has captured it -/
def cancelledAfterCapture : LaneReductionInput Unit :=
  openRun (startedRun 2 ["next"]) [enqueued 1 .nextRun "next", cancelled 3 none "next"] []

def cancellation (seq : ℕ) (runId : Option String) (entryId : String) : QueueCancelledRecord :=
  { id := "cancel", seq, lane := "main", timestamp := 0, runId, entryId }

/-- A second cancellation is accepted, and one of an item that a run has captured. -/
theorem cancellation_of_settled :
    (validateRecordLog cancelledTwice.toRecordLogSlice = .ok () ∧
      ¬ ∀ record, .queue_cancelled record ∈ cancelledTwice.records →
        CancelsPending cancelledTwice.toRecordLogSlice record) ∧
    validateRecordLog cancelledAfterCapture.toRecordLogSlice = .ok () ∧
      ¬ ∀ record, .queue_cancelled record ∈ cancelledAfterCapture.records →
        CancelsPending cancelledAfterCapture.toRecordLogSlice record := by
  refine ⟨⟨rfl, ?_⟩, rfl, ?_⟩
  · intro hpending
    have hsecond := hpending (cancellation 4 (some "run") "item") (by decide)
    apply hsecond.not_cancelled (cancellation 3 (some "run") "item") (by decide) (by decide)
    rfl
  · intro hpending
    have hlate := hpending (cancellation 3 none "next") (by decide)
    apply hlate.not_captured (startedRun 2 ["next"]) (by decide) (by decide)
    decide

end Mcpi.Reducer
