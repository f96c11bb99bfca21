import Mathlib.Algebra.Order.BigOperators.Group.List
import Mathlib.Algebra.Order.Group.Nat
import Mcpi.Reducer.Log

/-!
# Prefixes of a lane history

What a crash leaves of a lane is the part of its history up to some sequence number. The
validator looks entries up by id, so most of its checks hold of less entries too; two do not. A
tool start wants its assistant entry, and two operations may be open in a prefix although
both are finished in the end.
-/

namespace Mcpi.Reducer

variable {δ : Type}

/-- The durable items of a lane. -/
structure LaneHistory (δ : Type) where
  lane : String
  records : List (LaneRecord δ)
  entries : List (Entry δ)

/-- The operations that are started and not finished. -/
def openOperations (records : List (LaneRecord δ)) : List (OperationStartedRecord δ) :=
  (operationStarts records).filter fun record =>
    (operationFinishes records).all fun finish => finish.runId ≠ record.id

namespace LaneHistory

/-- The recovery slice of a lane -/
def slice (history : LaneHistory δ) : RecordLogSlice δ where
  lane := history.lane
  openOperations := openOperations history.records
  records := history.records
  entries := history.entries

/-- What there was of a history up to a sequence number -/
def upTo (history : LaneHistory δ) (bound : ℕ) : LaneHistory δ where
  lane := history.lane
  records := history.records.filter fun record => record.seq ≤ bound
  entries := history.entries.filter fun entry => entry.seq ≤ bound

/-- Ids and sequence numbers are shared by records and entries. -/
structure Distinct (history : LaneHistory δ) : Prop where
  ids : (history.records.map (·.id) ++ history.entries.map (·.id)).Nodup
  seqs : (history.records.map (·.seq) ++ history.entries.map (·.seq)).Nodup

/-- A tool starts behind the assistant entry that calls it. -/
def ToolsFollow (history : LaneHistory δ) : Prop :=
  ∀ record ∈ toolStarts history.records, ∀ entry ∈ history.entries,
    entry.id = record.assistantEntryId → entry.seq < record.seq

/-- An operation starts behind the finishes of those that started before it. -/
def Sequential (history : LaneHistory δ) : Prop :=
  ∀ started ∈ operationStarts history.records, ∀ later ∈ operationStarts history.records, started.seq < later.seq →
      ∃ finish ∈ operationFinishes history.records, finish.runId = started.id ∧ finish.seq < later.seq

end LaneHistory

theorem mem_openOperations {records : List (LaneRecord δ)} {record : OperationStartedRecord δ} :
    record ∈ openOperations records ↔ .operation_started record ∈ records ∧ ∀ finish : OperationFinishedRecord δ,
          .operation_finished finish ∈ records → finish.runId ≠ record.id := by
  simp [openOperations, List.mem_filter]

/-! ## Checks on less entries -/

/-- The entries up to a sequence number, by id -/
def Restricts (bound : ℕ) (entries entries' : EntryMap δ) : Prop :=
  ∀ id, entries'.get? id = (entries.get? id).filter fun entry => entry.seq ≤ bound

namespace Restricts

variable {bound : ℕ} {entries entries' : EntryMap δ}

theorem get? (h : Restricts bound entries entries') {id : String} {entry : Entry δ}
    (hentry : entries'.get? id = some entry) : entries.get? id = some entry := by
  rw [h id] at hentry
  exact (Option.filter_eq_some_iff.mp hentry).1

theorem exact [DecidableEq δ] (h : Restricts bound entries entries') {target : ProvisionedEntry δ}
    (hok : validateExactProvisionedEntry entries target = .ok ()) :
    validateExactProvisionedEntry entries' target = .ok () := by
  rw [validateExactProvisionedEntry_ok] at hok ⊢
  intro entry hentry
  exact hok entry (h.get? hentry)

theorem resultEntry (h : Restricts bound entries entries') {resultEntryId : String}
    {accepted : Entry δ → Bool} {description : String}
    (hok : validateResultEntry entries resultEntryId accepted description = .ok ()) :
    validateResultEntry entries' resultEntryId accepted description = .ok () := by
  rw [validateResultEntry_ok] at hok ⊢
  intro entry hentry
  exact hok entry (h.get? hentry)

theorem operationResult [DecidableEq δ] (h : Restricts bound entries entries')
    {record : OperationStartedRecord δ} (hok : validateOperationResult entries record = .ok ()) :
    validateOperationResult entries' record = .ok () := by
  unfold validateOperationResult at hok ⊢
  split
  next heq =>
    rw [heq] at hok
    rw [validateTargets_ok] at hok ⊢
    intro target htarget
    exact h.exact (hok target htarget)
  next heq =>
    rw [heq] at hok
    exact h.resultEntry hok
  next heq =>
    rw [heq] at hok
    split
    · rfl
    · rfl
    · exact h.resultEntry (by simpa using hok)

/-- A result that the bound hides comes after the attempt anyway. -/
theorem continuesSeries_eq (h : Restricts bound entries entries')
    {record : StepAttemptRecord} (hseq : record.seq ≤ bound) (previous : StepAttemptRecord) :
    continuesSeries entries' record previous = continuesSeries entries record previous := by
  unfold continuesSeries
  rw [h previous.resultEntryId]
  cases entries.get? previous.resultEntryId with
  | none => rfl
  | some result =>
    by_cases hresult : result.seq ≤ bound
    · simp [Option.filter, hresult]
    · have hafter : record.seq ≤ result.seq := by omega
      simp [Option.filter, hresult, hafter]

theorem attemptSequence (h : Restricts bound entries entries') {record : StepAttemptRecord}
    (hseq : record.seq ≤ bound) (previous : Option StepAttemptRecord) :
    validateAttemptSequence record previous entries' = validateAttemptSequence record previous entries := by
  have hseries : continuesSeries entries' record = continuesSeries entries record :=
    funext (h.continuesSeries_eq hseq)
  unfold validateAttemptSequence
  rw [hseries]

theorem attemptResult (h : Restricts bound entries entries') {record : StepAttemptRecord}
    (hok : validateAttemptResult entries record = .ok ()) :
    validateAttemptResult entries' record = .ok () := by
  unfold validateAttemptResult at hok ⊢
  split <;> simp_all only <;> exact h.resultEntry hok

theorem toolStart (h : Restricts bound entries entries') {record : ToolStartedRecord δ}
    {invocations : List (String × ℕ)}
    (hassistant : ∀ entry, entries.get? record.assistantEntryId = some entry → entry.seq ≤ bound)
    (hok : validateToolStart record entries invocations = .ok ()) :
    validateToolStart record entries' invocations = .ok () := by
  rw [validateToolStart_ok] at hok ⊢
  obtain ⟨hfresh, entry, message, call, hstart⟩ := hok
  refine ⟨hfresh, entry, message, call, ?_, hstart.assistant, hstart.ordinal, hstart.id, hstart.name, ?_⟩
  · rw [h record.assistantEntryId, hstart.found]
    simp [Option.filter, hassistant entry hstart.found]
  · intro result hresult
    exact hstart.result result (h.get? hresult)

/-- What is accepted with all entries is accepted with those up to a bound, if the record lies
within the bound and so does the assistant entry of a tool start. -/
theorem record [DecidableEq δ] (h : Restricts bound entries entries') {state : LogState δ}
    {record : LaneRecord δ} (hseq : record.seq ≤ bound)
    (htool : ∀ start, record = .tool_started start →
      ∀ entry, entries.get? start.assistantEntryId = some entry → entry.seq ≤ bound)
    (hok : validateRecord entries state record = .ok ()) :
    validateRecord entries' state record = .ok () := by
  obtain ⟨_, hrun, hok⟩ := Except.bind_ok.mp hok
  refine Except.bind_ok.mpr ⟨_, hrun, ?_⟩
  cases record with
  | operation_started started => exact h.operationResult hok
  | operation_finished _ | abort_requested _ | usage _ => rfl
  | step_attempt attempt =>
    obtain ⟨_, hreason, hok⟩ := Except.bind_ok.mp hok
    obtain ⟨_, hsequence, hok⟩ := Except.bind_ok.mp hok
    refine Except.bind_ok.mpr ⟨_, hreason, Except.bind_ok.mpr ⟨(), ?_, h.attemptResult hok⟩⟩
    exact (h.attemptSequence hseq _).trans hsequence
  | tool_started start => exact h.toolStart (htool start rfl) hok
  | queue_enqueued enqueue =>
    obtain ⟨hnot, hok⟩ := (Except.guard_ok (by rintro _ ⟨⟩)).mp hok
    exact (Except.guard_ok (by rintro _ ⟨⟩)).mpr ⟨hnot, h.exact hok⟩
  | queue_cancelled cancellation =>
    have hno : entries'.has cancellation.entryId = true → entries.has cancellation.entryId = true := by
      rw [OrderedMap.has_iff, OrderedMap.has_iff]
      rintro ⟨entry, hentry⟩
      exact ⟨entry, h.get? hentry⟩
    by_cases hpending : cancelsPending entries state cancellation = true
    · have hpending' : cancelsPending entries' state cancellation = true := by
        simp only [cancelsPending, Bool.and_eq_true, Bool.not_eq_true'] at hpending ⊢
        refine ⟨hpending.1, ?_⟩
        rw [← Bool.not_eq_true]
        exact fun hhas => by simp [hno hhas] at hpending
      exact if_pos hpending'
    · exact absurd ((if_neg hpending).symm.trans hok) (by rintro ⟨⟩)
  | write_deferred write => exact h.exact hok

end Restricts

/-! ## Distinct items -/

namespace LaneHistory.Distinct

variable {history : LaneHistory δ}

theorem entryIds (h : history.Distinct) : (history.entries.map (·.id)).Nodup :=
  (List.nodup_append.mp h.ids).2.1

theorem eq_of_id (h : history.Distinct) {r r' : LaneRecord δ} (hr : r ∈ history.records)
    (hr' : r' ∈ history.records) (hid : r.id = r'.id) : r = r' :=
  List.inj_on_of_nodup_map (List.nodup_append.mp h.ids).1 hr hr' hid

theorem eq_of_seq (h : history.Distinct) {r r' : LaneRecord δ} (hr : r ∈ history.records)
    (hr' : r' ∈ history.records) (hseq : r.seq = r'.seq) : r = r' :=
  List.inj_on_of_nodup_map (List.nodup_append.mp h.seqs).1 hr hr' hseq

theorem seq_ne (h : history.Distinct) {r : LaneRecord δ} {entry : Entry δ}
    (hr : r ∈ history.records) (hentry : entry ∈ history.entries) : r.seq ≠ entry.seq :=
  (List.nodup_append.mp h.seqs).2.2 _ (List.mem_map_of_mem hr) _ (List.mem_map_of_mem hentry)

theorem starts_nodup (h : history.Distinct) : (operationStarts history.records).Nodup := by
  have hrecords : history.records.Nodup := List.Nodup.of_map _ (List.nodup_append.mp h.ids).1
  apply hrecords.filterMap
  intro r r' record hr hr'
  rw [Option.mem_def, start?_eq_some] at hr hr'
  rw [hr, hr']

/-- The entries of a prefix are the entries up to its bound. -/
theorem restricts (h : history.Distinct) (bound : ℕ) :
    Restricts bound (entriesById history.entries) (entriesById (history.upTo bound).entries) := by
  have hprefix : ((history.upTo bound).entries.map (·.id)).Nodup :=
    h.entryIds.sublist (List.filter_sublist.map _)
  intro id
  apply Option.ext
  intro entry
  rw [Option.filter_eq_some_iff, entriesById_get? hprefix, entriesById_get? h.entryIds]
  simp only [LaneHistory.upTo, List.mem_filter, decide_eq_true_eq]
  tauto

/-- An accepted log finishes an operation after it has started. -/
theorem start_lt_finish [DecidableEq δ] (h : history.Distinct) {entries : EntryMap δ}
    (hok : validateRecords entries LogState.initial (Stable.sort LaneRecord.seq history.records) = .ok ())
    {started : OperationStartedRecord δ} {finish : OperationFinishedRecord δ}
    (hstarted : .operation_started started ∈ history.records)
    (hfinish : .operation_finished finish ∈ history.records)
    (hrun : finish.runId = started.id) : started.seq < finish.seq := by
  obtain ⟨before, after, hsplit, hrecord⟩ :=
    validateRecord_of_mem hok (Stable.mem_sort.mpr hfinish)
  obtain ⟨_, hknown, -⟩ := Except.bind_ok.mp hrecord
  obtain ⟨hhas, -⟩ := validateRunId_ok.mp hknown finish.runId rfl
  -- the finish names an operation that started before it, and there is one start with this id
  obtain ⟨started', hbefore, hid⟩ := stateAfter_started.mp hhas
  have hmem : LaneRecord.operation_started started' ∈ history.records := by
    apply Stable.mem_sort.mp
    rw [hsplit]
    exact List.mem_append_left _ hbefore
  have heq : LaneRecord.operation_started started' = .operation_started started :=
    h.eq_of_id hmem hstarted (hid.trans hrun)
  have hsorted := Stable.sort_sorted LaneRecord.seq history.records
  rw [hsplit, List.pairwise_append] at hsorted
  have hle : (LaneRecord.operation_started started).seq ≤ (LaneRecord.operation_finished finish).seq :=
    hsorted.2.2 _ (heq ▸ hbefore) _ List.mem_cons_self
  refine lt_of_le_of_ne hle fun hseq => ?_
  exact absurd (h.eq_of_seq hstarted hfinish hseq) (by nofun)

end LaneHistory.Distinct

/-! ## Prefixes -/

namespace LaneHistory

variable {history : LaneHistory δ}

/-- Of operations that follow each other at most one is open in a prefix. -/
theorem Sequential.openOperations_upTo (hsequential : history.Sequential) (hdistinct : history.Distinct) (bound : ℕ) :
    (openOperations (history.upTo bound).records).length ≤ 1 := by
  have hopen : ∀ record ∈ openOperations (history.upTo bound).records,
      .operation_started record ∈ history.records ∧ record.seq ≤ bound ∧
        ∀ finish : OperationFinishedRecord δ, .operation_finished finish ∈ history.records →
          finish.seq ≤ bound → finish.runId ≠ record.id := by
    intro record hrecord
    simp only [mem_openOperations, upTo, List.mem_filter, decide_eq_true_eq, and_imp] at hrecord
    exact ⟨hrecord.1.1, hrecord.1.2, hrecord.2⟩
  -- the later of two starts has the finish of the earlier before it
  have hlt : ∀ a ∈ openOperations (history.upTo bound).records,
      ∀ b ∈ openOperations (history.upTo bound).records, ¬ a.seq < b.seq := by
    intro a ha b hb hab
    obtain ⟨ha, -, hunfinished⟩ := hopen a ha
    obtain ⟨hb, hbound, -⟩ := hopen b hb
    obtain ⟨finish, hfinish, hrun, hbefore⟩ :=
      hsequential a (mem_operationStarts.mpr ha) b (mem_operationStarts.mpr hb) hab
    have hwithin : finish.seq ≤ bound := by omega
    exact hunfinished finish (mem_operationFinishes.mp hfinish) hwithin hrun
  have hnodup : (openOperations (history.upTo bound).records).Nodup := by
    apply List.Nodup.filter
    exact List.Nodup.sublist (List.filter_sublist.filterMap _) hdistinct.starts_nodup
  generalize openOperations (history.upTo bound).records = opened at hopen hlt hnodup
  match opened with
  | [] | [_] => simp
  | a :: b :: _ =>
    have hab : a.seq = b.seq :=
      Nat.le_antisymm (not_lt.mp (hlt b (by simp) a (by simp))) (not_lt.mp (hlt a (by simp) b (by simp)))
    have heq : LaneRecord.operation_started a = .operation_started b :=
      hdistinct.eq_of_seq (hopen a (by simp)).1 (hopen b (by simp)).1 hab
    cases heq
    simp at hnodup

/-- What is accepted in the end is accepted at every point. -/
theorem upTo_accepted [DecidableEq δ] (hdistinct : history.Distinct)
    (hok : validateRecordLog history.slice = .ok ()) (htools : history.ToolsFollow)
    (hsequential : history.Sequential) (bound : ℕ) :
    validateRecordLog (history.upTo bound).slice = .ok () := by
  obtain ⟨-, hhandles, hrecords⟩ := validateRecordLog_ok.mp hok
  have hrestricts := hdistinct.restricts bound
  refine validateRecordLog_ok.mpr ⟨hsequential.openOperations_upTo hdistinct bound, ?_, ?_⟩
  · intro entry hentry
    obtain ⟨id, hid⟩ := OrderedMap.mem_values_iff.mp hentry
    exact hhandles entry (OrderedMap.mem_values_iff.mpr ⟨id, hrestricts.get? hid⟩)
  · obtain ⟨rest, hsplit, -⟩ := Stable.sort_upTo LaneRecord.seq bound history.records
    change validateRecords (entriesById history.entries) _ (Stable.sort _ history.records) = _ at hrecords
    rw [hsplit, validateRecords_append] at hrecords
    refine validateRecords_mono ?_ hrecords.1
    intro r hr state hstate
    obtain ⟨hmem, hseq⟩ := List.mem_filter.mp (Stable.mem_sort.mp hr)
    have hseq : r.seq ≤ bound := by simpa using hseq
    refine hrestricts.record hseq ?_ hstate
    rintro start rfl entry hentry
    obtain ⟨hentry, hid⟩ := (entriesById_get? hdistinct.entryIds).mp hentry
    have hbefore := htools start (mem_toolStarts.mpr hmem) entry hentry hid
    exact le_of_lt (lt_of_lt_of_le hbefore hseq)

theorem exists_upTo_eq (history : LaneHistory δ) : ∃ bound, history.upTo bound = history := by
  let seqs := history.records.map (·.seq) ++ history.entries.map (·.seq)
  have hle : ∀ seq ∈ seqs, seq ≤ seqs.sum := fun seq hseq => List.le_sum_of_mem hseq
  refine ⟨seqs.sum, ?_⟩
  have hrecords : history.records.filter (fun r => r.seq ≤ seqs.sum) = history.records := by
    rw [List.filter_eq_self]
    intro r hr
    simpa using hle _ (List.mem_append_left _ (List.mem_map_of_mem hr))
  have hentries : history.entries.filter (fun e => e.seq ≤ seqs.sum) = history.entries := by
    rw [List.filter_eq_self]
    intro e he
    simpa using hle _ (List.mem_append_right _ (List.mem_map_of_mem he))
  show LaneHistory.mk _ _ _ = history
  rw [hrecords, hentries]

/-- Where the prefix that ends in a tool start is accepted, its assistant entry lies before it. -/
theorem toolsFollow_of_upTo [DecidableEq δ] (hdistinct : history.Distinct)
    (hok : ∀ bound, validateRecordLog (history.upTo bound).slice = .ok ()) :
    history.ToolsFollow := by
  intro start hstart entry hentry hid
  have hmem := mem_toolStarts.mp hstart
  obtain ⟨-, -, hrecords⟩ := validateRecordLog_ok.mp (hok start.seq)
  have hprefix : LaneRecord.tool_started start ∈ (history.upTo start.seq).records :=
    List.mem_filter.mpr ⟨hmem, by simp [LaneRecord.seq, LaneRecord.base]⟩
  obtain ⟨_, _, -, hrecord⟩ := validateRecord_of_mem hrecords (Stable.mem_sort.mpr hprefix)
  obtain ⟨_, -, hrecord⟩ := Except.bind_ok.mp hrecord
  obtain ⟨-, entry', _, _, hcall⟩ := validateToolStart_ok.mp hrecord
  have hfound := hcall.found
  change (entriesById (history.upTo start.seq).entries).get? _ = _ at hfound
  rw [hdistinct.restricts start.seq, Option.filter_eq_some_iff, entriesById_get? hdistinct.entryIds] at hfound
  obtain ⟨⟨hentry', hid'⟩, hle⟩ := hfound
  have heq : entry' = entry :=
    List.inj_on_of_nodup_map hdistinct.entryIds hentry' hentry (hid'.trans hid.symm)
  subst heq
  have hne := hdistinct.seq_ne hmem hentry
  exact lt_of_le_of_ne (by simpa using hle) (Ne.symm hne)

/-- Where the prefix that ends in a start is accepted, what started before is finished. -/
theorem sequential_of_upTo [DecidableEq δ] (hdistinct : history.Distinct)
    (hok : ∀ bound, validateRecordLog (history.upTo bound).slice = .ok ()) :
    history.Sequential := by
  obtain ⟨full, hfull⟩ := history.exists_upTo_eq
  obtain ⟨-, -, hrecords⟩ := validateRecordLog_ok.mp (hfull ▸ hok full)
  intro started hstarted later hlater hlt
  by_contra hunfinished
  push Not at hunfinished
  rw [mem_operationStarts] at hstarted hlater
  have hopen : ∀ record : OperationStartedRecord δ, .operation_started record ∈ history.records →
      record.seq ≤ later.seq →
      (∀ finish : OperationFinishedRecord δ, .operation_finished finish ∈ history.records →
        finish.runId = record.id → later.seq < finish.seq) →
      record ∈ openOperations (history.upTo later.seq).records := by
    intro record hrecord hle hafter
    simp only [mem_openOperations, upTo, List.mem_filter, decide_eq_true_eq, and_imp]
    refine ⟨⟨hrecord, hle⟩, fun finish hfinish hwithin hrun => ?_⟩
    exact absurd hwithin (not_le.mpr (hafter finish hfinish hrun))
  have hfirst : started ∈ openOperations (history.upTo later.seq).records := by
    refine hopen started hstarted (le_of_lt hlt) fun finish hfinish hrun => ?_
    have hle := hunfinished finish (mem_operationFinishes.mpr hfinish) hrun
    refine lt_of_le_of_ne hle fun hseq => ?_
    exact absurd (hdistinct.eq_of_seq hlater hfinish hseq) (by intro hsame; cases hsame)
  have hsecond : later ∈ openOperations (history.upTo later.seq).records :=
    hopen later hlater le_rfl fun finish hfinish hrun =>
      hdistinct.start_lt_finish hrecords hlater hfinish hrun
  obtain ⟨hone, -, -⟩ := validateRecordLog_ok.mp (hok later.seq)
  change (openOperations (history.upTo later.seq).records).length ≤ 1 at hone
  have heq : started = later := by
    generalize openOperations (history.upTo later.seq).records = opened at hone hfirst hsecond
    match opened, hone with
    | [_], _ =>
      rw [List.mem_singleton] at hfirst hsecond
      exact hfirst.trans hsecond.symm
  subst heq
  exact lt_irrefl _ hlt

/-- Every prefix of a history is accepted exactly if the history is, its tools start behind the
assistant entries that call them, and its operations follow each other. -/
theorem prefixes_accepted [DecidableEq δ] (hdistinct : history.Distinct) :
    (∀ bound, validateRecordLog (history.upTo bound).slice = .ok ()) ↔
      validateRecordLog history.slice = .ok () ∧ history.ToolsFollow ∧ history.Sequential := by
  constructor
  · intro hok
    obtain ⟨full, hfull⟩ := history.exists_upTo_eq
    exact ⟨hfull ▸ hok full, toolsFollow_of_upTo hdistinct hok, sequential_of_upTo hdistinct hok⟩
  · rintro ⟨hok, htools, hsequential⟩ bound
    exact upTo_accepted hdistinct hok htools hsequential bound

/-! ## Histories -/

/-- A run without a prompt -/
def runStarted (id : String) (seq : ℕ) : LaneRecord Unit :=
  .operation_started
    { id, seq, lane := "main", timestamp := 0, sourceLeafId := none, intent := .run [] () }

def runFinished (runId : String) (id : String) (seq : ℕ) : LaneRecord Unit :=
  .operation_finished { id, seq, lane := "main", timestamp := 0, runId, rest := () }

/-- The start of the call `call-1` of the entry `assistant` -/
def toolStarted (runId : String) (id : String) (seq : ℕ) : LaneRecord Unit :=
  .tool_started
    { id, seq, lane := "main", timestamp := 0, runId, assistantEntryId := "assistant"
      toolIndex := 0, toolCallId := "call-1", toolName := "read", resultEntryId := "result"
      rest := () }

/-- An assistant message with one tool call -/
def assistantEntry (seq : ℕ) : Entry Unit where
  id := "assistant"
  body := .message (.assistant
    { content := [.toolCall ⟨"call-1", "read", ()⟩], provider := "p", model := "m"
      stopReason := .toolUse, deferred := none, rest := () }) false
  seq := seq
  parentId := none
  timestamp := 0

/-- A run with one tool -/
def toolRun (assistantSeq toolSeq : ℕ) : LaneHistory Unit where
  lane := "main"
  records := [runStarted "run" 1, toolStarted "run" "tool" toolSeq, runFinished "run" "finish" 4]
  entries := [assistantEntry assistantSeq]

/-- Two runs, the second started before the first is finished -/
def overlappingRuns : LaneHistory Unit where
  lane := "main"
  records := [runStarted "first" 1, runStarted "second" 2, runFinished "first" "finish-1" 3,
    runFinished "second" "finish-2" 4]
  entries := []

theorem prefixes_accepted_toolRun :
    (toolRun 2 3).Distinct ∧ ∀ bound, validateRecordLog ((toolRun 2 3).upTo bound).slice = .ok () := by
  have hdistinct : (toolRun 2 3).Distinct := ⟨by decide, by decide⟩
  refine ⟨hdistinct, (prefixes_accepted hdistinct).mpr ⟨rfl, ?_, ?_⟩⟩
  · show ∀ record ∈ toolStarts (toolRun 2 3).records, ∀ entry ∈ (toolRun 2 3).entries, _
    decide
  · show ∀ started ∈ operationStarts (toolRun 2 3).records, ∀ later ∈ operationStarts (toolRun 2 3).records, _
    decide

/-- Overlapping runs are accepted when both are finished, and a tool start before its assistant
entry once the entry is there; neither is accepted after its second item. -/
theorem prefix_rejected :
    (overlappingRuns.Distinct ∧ validateRecordLog overlappingRuns.slice = .ok () ∧
      validateRecordLog (overlappingRuns.upTo 2).slice ≠ .ok ()) ∧
    (toolRun 3 2).Distinct ∧ validateRecordLog (toolRun 3 2).slice = .ok () ∧
      validateRecordLog ((toolRun 3 2).upTo 2).slice ≠ .ok () :=
  ⟨⟨⟨by decide, by decide⟩, rfl, nofun⟩, ⟨by decide, by decide⟩, rfl, nofun⟩

end LaneHistory

end Mcpi.Reducer
