import Mcpi.Lib.Reordering
import Mcpi.Reducer.Queues

/-!
# Recovery and the order of retrieval

The lists of a reduction input come out of several queries. Records and own entries are sorted
by sequence number before anything reads them, and all other entries are looked up by id, so the
order of the lists decides nothing once ids and sequence numbers are unique.
-/

namespace Mcpi.Reducer

variable {δ : Type}

/-- Ids and sequence numbers are unique. An entry may come out of more than one query. -/
structure LaneReductionInput.UniqueKeys (input : LaneReductionInput δ) : Prop where
  recordSeqs : (input.records.map LaneRecord.seq).Nodup
  entryIds : (input.entries.map (·.id)).Nodup
  ownIds : (input.ownEntries.map (·.id)).Nodup
  configurationIds : (input.configurationEntries.map (·.id)).Nodup
  entrySeqs : ∀ entry ∈ input.configurationEntries ++ input.ownEntries,
    ∀ other ∈ input.configurationEntries ++ input.ownEntries, entry.seq = other.seq → entry = other

/-- The same input, its lists retrieved in another order. -/
structure Reordered (input input' : LaneReductionInput δ) : Prop where
  lane : input.lane = input'.lane
  openOperations : input.openOperations = input'.openOperations
  leafId : input.leafId = input'.leafId
  defaults : input.defaults = input'.defaults
  records : input.records.Perm input'.records
  entries : input.entries.Perm input'.entries
  ownEntries : input.ownEntries.Perm input'.ownEntries
  configurationEntries : input.configurationEntries.Perm input'.configurationEntries

/-! ## What looks entries up

Nothing reads the map of entries but by looking up an id. -/

section Lookups

variable {entries entries' : EntryMap δ} (h : entries.get? = entries'.get?)

include h

theorem validateExactProvisionedEntry_congr [DecidableEq δ] :
    validateExactProvisionedEntry entries = validateExactProvisionedEntry entries' := by
  funext target
  unfold validateExactProvisionedEntry
  rw [h]

theorem validateResultEntry_congr : validateResultEntry entries = validateResultEntry entries' := by
  funext resultEntryId accepted description
  unfold validateResultEntry
  rw [h]

theorem validateTargets_congr [DecidableEq δ] (targets : List (ProvisionedEntry δ)) :
    validateTargets entries targets = validateTargets entries' targets := by
  induction targets with
  | nil => rfl
  | cons target targets ih =>
    rw [validateTargets, validateTargets, ih, validateExactProvisionedEntry_congr h]

theorem validateOperationResult_congr [DecidableEq δ] :
    validateOperationResult entries = validateOperationResult entries' := by
  funext record
  unfold validateOperationResult
  rw [validateResultEntry_congr h]
  cases record.intent with
  | run initialMessages rest => exact validateTargets_congr h initialMessages
  | compaction resultEntryId rest => rfl
  | navigation summaryEntryId rest => rfl

theorem validateAttemptSequence_congr (record : StepAttemptRecord) (previous : Option StepAttemptRecord) :
    validateAttemptSequence record previous entries = validateAttemptSequence record previous entries' := by
  have hcontinues : continuesSeries entries = continuesSeries entries' := by
    funext record previous
    unfold continuesSeries
    rw [h]
  unfold validateAttemptSequence
  rw [hcontinues]

theorem validateAttemptResult_congr : validateAttemptResult entries = validateAttemptResult entries' := by
  funext record
  unfold validateAttemptResult
  rw [validateResultEntry_congr h]

theorem validateToolStart_congr (record : ToolStartedRecord δ) (invocations : List (String × ℕ)) :
    validateToolStart record entries invocations = validateToolStart record entries' invocations := by
  have hreferenced : referencedCall? entries = referencedCall? entries' := by
    funext record
    unfold referencedCall?
    rw [h]
  unfold validateToolStart
  rw [hreferenced, validateResultEntry_congr h]

theorem validateRecord_congr [DecidableEq δ] (state : LogState δ) (record : LaneRecord δ) :
    validateRecord entries state record = validateRecord entries' state record := by
  have hhas := OrderedMap.has_congr h
  unfold validateRecord cancelsPending
  simp only [validateOperationResult_congr h, validateAttemptSequence_congr h,
    validateAttemptResult_congr h, validateToolStart_congr h, validateExactProvisionedEntry_congr h,
    hhas]

theorem validateRecords_congr [DecidableEq δ] (state : LogState δ) (records : List (LaneRecord δ)) :
    validateRecords entries state records = validateRecords entries' state records := by
  induction records generalizing state with
  | nil => rfl
  | cons record records ih =>
    rw [validateRecords, validateRecords, validateRecord_congr h, ih]

theorem deriveToolBatch_congr (records : List (LaneRecord δ)) (ownEntries : List (Entry δ))
    (deferredWriteIds : List String) :
    deriveToolBatch records ownEntries entries deferredWriteIds =
      deriveToolBatch records ownEntries entries' deferredWriteIds := by
  unfold deriveToolBatch
  rw [h]

theorem deriveOverflowRecoveryUsed_congr (started : OperationStartedRecord δ) (records : List (LaneRecord δ)) :
    deriveOverflowRecoveryUsed entries started records = deriveOverflowRecoveryUsed entries' started records := by
  unfold deriveOverflowRecoveryUsed newestConsumedInputSequence
  rw [h]

theorem deriveTargets_congr (intent : OperationIntent δ) :
    deriveTargets entries intent = deriveTargets entries' intent := by
  unfold deriveTargets
  rw [OrderedMap.has_congr h]

theorem pendingTargets_congr (records : List (LaneRecord δ)) (queue : Queue) :
    pendingTargets entries records queue = pendingTargets entries' records queue := by
  unfold pendingTargets pendingQueueRecords
  rw [OrderedMap.has_congr h]

theorem deriveOperation_congr (records : List (LaneRecord δ)) (ownEntries : List (Entry δ)) :
    deriveOperation entries records ownEntries = deriveOperation entries' records ownEntries := by
  funext started
  unfold deriveOperation deriveStep missing
  simp only [deriveToolBatch_congr h, pendingTargets_congr h, deriveOverflowRecoveryUsed_congr h,
    deriveTargets_congr h, OrderedMap.has_congr h]

end Lookups

/-! ## Reasons -/

/-- Which entry lacks a handle is in the message only. -/
theorem validateDeferredHandles_reason (entries : List (Entry δ)) :
    (validateDeferredHandles entries).mapError (·.reason) =
      if entries.any lacksHandle then .error .invalid_deferred_handle else .ok () := by
  induction entries with
  | nil => rfl
  | cons entry entries ih =>
    rw [validateDeferredHandles, List.any_cons]
    by_cases hlacks : lacksHandle entry = true
    · simp [hlacks, corrupt, Except.mapError]
    · simp [hlacks, ih]

theorem reason_bind {α β : Type} {x x' : Except RecordLogCorruption α} {f f' : α → Except RecordLogCorruption β}
    (hx : x.mapError (·.reason) = x'.mapError (·.reason))
    (hf : ∀ a, (f a).mapError (·.reason) = (f' a).mapError (·.reason)) :
    (x >>= f).mapError (·.reason) = (x' >>= f').mapError (·.reason) := by
  cases x with
  | error e =>
    cases x' with
    | error e' => exact congrArg Except.error (Except.error.inj hx)
    | ok a' => cases hx
  | ok a =>
    cases x' with
    | error e' => cases hx
    | ok a' =>
      cases hx
      exact hf a

/-! ## Reordered inputs -/

namespace Reordered

variable {input input' : LaneReductionInput δ}

theorem sorted_records (h : Reordered input input') (hunique : input.UniqueKeys) :
    Stable.sort LaneRecord.seq input.records = Stable.sort LaneRecord.seq input'.records := by
  apply Stable.sort_eq_of_perm ?_ h.records
  intro record hrecord other hother heq
  exact List.inj_on_of_nodup_map hunique.recordSeqs hrecord hother heq

theorem sorted_ownEntries (h : Reordered input input') (hunique : input.UniqueKeys) :
    Stable.sort Entry.seq input.ownEntries = Stable.sort Entry.seq input'.ownEntries := by
  apply Stable.sort_eq_of_perm ?_ h.ownEntries
  intro entry hentry other hother heq
  exact hunique.entrySeqs entry (List.mem_append_right _ hentry) other (List.mem_append_right _ hother) heq

/-- A slice is valid, or corrupt for a reason, in any order. -/
theorem validateRecordLog_eq [DecidableEq δ] (h : Reordered input input') (hunique : input.UniqueKeys) :
    (validateRecordLog input.toRecordLogSlice).mapError (·.reason) =
      (validateRecordLog input'.toRecordLogSlice).mapError (·.reason) := by
  have hget : (entriesById input.entries).get? = (entriesById input'.entries).get? :=
    OrderedMap.get?_ofValues_perm hunique.entryIds h.entries
  unfold validateRecordLog
  rw [h.openOperations, h.lane, h.sorted_records hunique]
  split
  · rfl
  · apply reason_bind
    · -- the entry that lacks a handle may be another one, but then one lacks it in any order
      rw [validateDeferredHandles_reason, validateDeferredHandles_reason, (OrderedMap.values_perm hget).any_eq]
    · intro _
      rw [validateRecords_congr hget]

/-- The values that the configuration is folded from have distinct sequence numbers. -/
theorem configuration_eq (h : Reordered input input') (hunique : input.UniqueKeys) :
    deriveEffectiveConfiguration input = deriveEffectiveConfiguration input' := by
  have hget : (entriesById (input.configurationEntries ++ input.ownEntries)).get? =
      (entriesById (input'.configurationEntries ++ input'.ownEntries)).get? :=
    OrderedMap.get?_ofValues_append_perm hunique.configurationIds h.configurationEntries hunique.ownIds h.ownEntries
  have hmem : ∀ entry ∈ (entriesById (input.configurationEntries ++ input.ownEntries)).values,
      entry ∈ input.configurationEntries ++ input.ownEntries := by
    intro entry hentry
    obtain ⟨id, hid⟩ := OrderedMap.mem_values_iff.mp hentry
    rw [entriesById, OrderedMap.get?_ofValues] at hid
    exact List.mem_of_mem_filter (List.mem_of_getLast? hid)
  have hsorted : Stable.sort Entry.seq (entriesById (input.configurationEntries ++ input.ownEntries)).values =
      Stable.sort Entry.seq (entriesById (input'.configurationEntries ++ input'.ownEntries)).values := by
    apply Stable.sort_eq_of_perm ?_ (OrderedMap.values_perm hget)
    intro entry hentry other hother heq
    exact hunique.entrySeqs entry (hmem entry hentry) other (hmem other hother) heq
  simp only [deriveEffectiveConfiguration, hsorted, h.defaults]

/-- What a valid slice is reduced to does not depend on the order. -/
theorem deriveLaneState_eq (h : Reordered input input') (hunique : input.UniqueKeys) :
    deriveLaneState input = deriveLaneState input' := by
  have hown := h.sorted_ownEntries hunique
  have hids : ((Stable.sort Entry.seq input'.ownEntries).map (·.id)).Nodup := by
    rw [← hown]
    exact ((Stable.perm_sort input.ownEntries).map _).nodup_iff.mpr hunique.ownIds
  have hget : (entriesById (input.entries ++ Stable.sort Entry.seq input'.ownEntries)).get? =
      (entriesById (input'.entries ++ Stable.sort Entry.seq input'.ownEntries)).get? :=
    OrderedMap.get?_ofValues_append_perm hunique.entryIds h.entries hids (List.Perm.refl _)
  unfold deriveLaneState
  simp only [h.sorted_records hunique, hown, h.lane, h.leafId, h.openOperations,
    h.configuration_eq hunique, deriveOperation_congr hget, derivePendingNextRun,
    pendingTargets_congr hget]

end Reordered

/-- Recovery returns the same state, or fails for the same reason, in whatever order the queries
have returned records and entries. -/
theorem reduceLaneState_reordered [DecidableEq δ] {input input' : LaneReductionInput δ}
    (hunique : input.UniqueKeys) (h : Reordered input input') :
    (reduceLaneState input).mapError (·.reason) = (reduceLaneState input').mapError (·.reason) := by
  apply reason_bind (h.validateRecordLog_eq hunique)
  intro _
  rw [h.deriveLaneState_eq hunique]

/-- The queries of `mixedQueues`, newest first -/
def newestFirst : LaneReductionInput Unit :=
  { mixedQueues with records := mixedQueues.records.reverse }

theorem reduceLaneState_newestFirst :
    (reduceLaneState mixedQueues).mapError (·.reason) = (reduceLaneState newestFirst).mapError (·.reason) := by
  apply reduceLaneState_reordered
  · exact ⟨by decide, by decide, by decide, by decide, by decide⟩
  · exact ⟨rfl, rfl, rfl, rfl, (List.reverse_perm _).symm, List.Perm.refl _, List.Perm.refl _, List.Perm.refl _⟩

end Mcpi.Reducer
