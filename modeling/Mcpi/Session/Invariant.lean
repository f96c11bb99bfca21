import Mcpi.Session.Mutation
import Mcpi.Session.Query

/-!
# The representation invariant of `SessionState`

The containers of a session are redundant: the log alone determines the entries, the
records, the statistics and the open operations, and the pointers (parents, lane leaves,
label targets) all lead to entries that exist. `Invariant` says so; it holds of a fresh
state, an accepted mutation keeps it, a rejected one changes nothing, so it holds of
every state a run of mutations reaches.
-/

namespace Mcpi.Session

variable {ν : Type}

/-! ## What the log says -/

/-- The entry a log item appends. -/
def LogItem.entry? : LogItem ν → Option (Entry ν)
  | .entry _ e => some e
  | _ => none

/-- The record a log item appends. -/
def LogItem.record? : LogItem ν → Option (LaneRecord ν)
  | .record _ r => some r
  | _ => none

/-- The statistics after one more log item: message entries and usage records count. -/
def SessionStats.addItem [Add ν] (stats : SessionStats ν) (item : LogItem ν) : SessionStats ν :=
  match item with
  | .entry _ e => if e.type = .message then stats.addMessage else stats
  | .record _ r => match r.usage? with
      | some usage => stats.addUsage usage
      | none => stats
  | _ => stats

/-- The fold of the message entries and usage records of a log. -/
def SessionStats.ofLog [Add ν] [Zero ν] (log : List (LogItem ν)) : SessionStats ν :=
  log.foldl addItem .zero

/-- `record` starts an operation on `lane`. -/
def LaneRecord.Starts (record : LaneRecord ν) (lane : String) : Prop :=
  record.lane = lane ∧ record.type = .operation_started

/-- `record` finishes the operation `id` on `lane`. -/
def LaneRecord.Finishes (record : LaneRecord ν) (lane id : String) : Prop :=
  record.lane = lane ∧ record.type = .operation_finished ∧ record.runId = some id

instance (record : LaneRecord ν) (lane : String) : Decidable (record.Starts lane) :=
  inferInstanceAs (Decidable (_ ∧ _))

instance (record : LaneRecord ν) (lane id : String) : Decidable (record.Finishes lane id) :=
  inferInstanceAs (Decidable (_ ∧ _ ∧ _))

/-- The operations started on a lane that no later record finishes, oldest first. -/
def openOperations (lane : String) : List (LaneRecord ν) → List (LaneRecord ν)
  | [] => []
  | record :: later =>
    if record.Starts lane ∧ ∀ r ∈ later, ¬ r.Finishes lane record.id then
      record :: openOperations lane later
    else openOperations lane later

theorem openOperations_sublist (lane : String) (records : List (LaneRecord ν)) :
    (openOperations lane records).Sublist records := by
  induction records with
  | nil => exact List.Sublist.slnil
  | cons record later ih =>
    rw [openOperations]
    split
    · exact ih.cons_cons record
    · exact ih.cons record

/-- One more record closes what it finishes and opens what it starts. -/
theorem openOperations_concat (lane : String) (records : List (LaneRecord ν)) (r : LaneRecord ν) :
    openOperations lane (records ++ [r]) = (openOperations lane records).filter (fun o => ¬ r.Finishes lane o.id) ++
        (if r.Starts lane then [r] else []) := by
  induction records with
  | nil => by_cases h : r.Starts lane <;> simp [openOperations, h]
  | cons record later ih =>
    simp only [List.cons_append, openOperations, ih, List.forall_mem_append, List.forall_mem_singleton]
    generalize (if r.Starts lane then [r] else []) = started
    by_cases hs : record.Starts lane
    · by_cases hl : ∀ r ∈ later, ¬ r.Finishes lane record.id
      · by_cases hr : r.Finishes lane record.id
        · rw [if_neg (fun h => h.2.2 hr), if_pos ⟨hs, hl⟩, List.filter_cons_of_neg (by simpa using hr)]
        · rw [if_pos ⟨hs, hl, hr⟩, if_pos ⟨hs, hl⟩, List.filter_cons_of_pos (by simpa using hr)]
          rfl
      · rw [if_neg (fun h => hl h.2.1), if_neg (fun h => hl h.2)]
    · rw [if_neg (fun h => hs h.1), if_neg (fun h => hs h.1)]

namespace SessionState

/-! ## The invariant -/

/-- The entries and the map that indexes them. -/
structure EntriesInvariant (sequence : Nat) (entries : List (Entry ν))
    (entriesById : OrderedMap String (Entry ν)) : Prop where
  byId : entriesById.toList = entries.map fun e => (e.id, e)
  seq_le : ∀ e ∈ entries, e.seq ≤ sequence
  sorted : entries.Pairwise fun a b => a.seq < b.seq
  parents : ∀ e ∈ entries, ∀ p ∈ e.parentId, ∃ parent ∈ entries, parent.id = p ∧ parent.seq < e.seq

/-- The operations open on a lane, by id. -/
def openOn (openOperationsByLane : OrderedMap String (OrderedMap String (LaneRecord ν)))
    (lane : String) : OrderedMap String (LaneRecord ν) :=
  (openOperationsByLane.get? lane).getD .empty

/-- The records and the map of open operations. -/
structure RecordsInvariant (sequence : Nat) (records : List (LaneRecord ν))
    (openOperationsByLane : OrderedMap String (OrderedMap String (LaneRecord ν))) : Prop where
  seq_le : ∀ r ∈ records, r.seq ≤ sequence
  sorted : records.Pairwise fun a b => a.seq < b.seq
  openOps : ∀ lane, (openOn openOperationsByLane lane).toList = (openOperations lane records).map fun r => (r.id, r)

/-- The ids of entries and records together. -/
def ids (s : SessionState ν) : List String :=
  s.entries.map Entry.id ++ s.records.map LaneRecord.id

/-- What holds between the containers of a session. -/
structure Invariant [Add ν] [Zero ν] (s : SessionState ν) : Prop where
  log_seqs : s.log.map LogItem.seq = List.range' 1 s.sequence
  entries_logged : s.entries = s.log.filterMap LogItem.entry?
  records_logged : s.records = s.log.filterMap LogItem.record?
  entriesInv : EntriesInvariant s.sequence s.entries s.entriesById
  recordsInv : RecordsInvariant s.sequence s.records s.openOperationsByLane
  ids_nodup : s.ids.Nodup
  used_iff : ∀ id, id ∈ s.usedIds ↔ id ∈ s.ids
  record_lanes : ∀ r ∈ s.records, s.lanes.has r.lane
  lane_leaves : ∀ lane leaf, s.lanes.get? lane = some (some leaf) → s.entriesById.has leaf
  label_targets : ∀ id label, s.labels.get? id = some label → s.entriesById.has id
  stats_eq : s.stats = SessionStats.ofLog s.log

/-! ## Entries -/

namespace EntriesInvariant

variable {sequence : Nat} {entries : List (Entry ν)} {entriesById : OrderedMap String (Entry ν)}
  (h : EntriesInvariant sequence entries entriesById)
include h

theorem get?_iff {id : String} {e : Entry ν} : entriesById.get? id = some e ↔ e ∈ entries ∧ e.id = id := by
  rw [OrderedMap.get?_eq_some_iff, h.byId, List.mem_map]
  constructor
  · rintro ⟨e', he', heq⟩
    cases heq
    exact ⟨he', rfl⟩
  · rintro ⟨he, rfl⟩
    exact ⟨e, he, rfl⟩

theorem has_iff {id : String} : entriesById.has id = true ↔ id ∈ entries.map Entry.id := by
  rw [OrderedMap.has_iff, List.mem_map]
  exact exists_congr fun e => h.get?_iff

theorem ids_nodup : (entries.map Entry.id).Nodup := by
  have := entriesById.nodup_keys
  rwa [h.byId, List.map_map] at this

theorem mono {sequence' : Nat} (hle : sequence ≤ sequence') :
    EntriesInvariant sequence' entries entriesById where
  byId := h.byId
  seq_le := fun e he => Nat.le_trans (h.seq_le e he) hle
  sorted := h.sorted
  parents := h.parents

/-- A fresh entry under an existing parent goes to the end. -/
theorem push {e : Entry ν} (hfresh : e.id ∉ entries.map Entry.id) (hseq : sequence < e.seq)
    (hparent : ∀ p ∈ e.parentId, entriesById.has p) :
    EntriesInvariant e.seq (entries ++ [e]) (entriesById.set e.id e) where
  byId := by
    have hnone : entriesById.get? e.id = none := by
      rw [Option.eq_none_iff_forall_ne_some]
      intro e' he'
      exact hfresh (h.has_iff.mp (OrderedMap.has_iff.mpr ⟨e', he'⟩))
    rw [OrderedMap.toList_set_of_fresh e hnone, h.byId, List.map_append]
    rfl
  seq_le := by
    intro e' he'
    rcases List.mem_append.mp he' with he' | he'
    · exact Nat.le_trans (h.seq_le e' he') (Nat.le_of_lt hseq)
    · rw [List.mem_singleton.mp he']
  sorted := by
    rw [List.pairwise_append]
    refine ⟨h.sorted, List.pairwise_singleton _ _, fun a ha b hb => ?_⟩
    rw [List.mem_singleton.mp hb]
    exact Nat.lt_of_le_of_lt (h.seq_le a ha) hseq
  parents := by
    intro e' he' p hp
    rcases List.mem_append.mp he' with he' | he'
    · obtain ⟨parent, hmem, hid, hlt⟩ := h.parents e' he' p hp
      exact ⟨parent, List.mem_append_left _ hmem, hid, hlt⟩
    · obtain rfl := List.mem_singleton.mp he'
      obtain ⟨parent, hmem, hid⟩ := List.mem_map.mp (h.has_iff.mp (hparent p hp))
      exact ⟨parent, List.mem_append_left _ hmem, hid, Nat.lt_of_le_of_lt (h.seq_le _ hmem) hseq⟩

end EntriesInvariant

/-! ## Records and open operations -/

theorem openOn_openOperation (ops : OrderedMap String (OrderedMap String (LaneRecord ν)))
    (r : LaneRecord ν) (lane : String) :
    openOn (openOperation ops r) lane =
      if r.lane = lane then (openOn ops lane).set r.id r else openOn ops lane := by
  unfold openOn openOperation
  rw [OrderedMap.get?_set]
  by_cases hl : r.lane = lane
  · subst hl
    rw [if_pos rfl, if_pos rfl, Option.getD_some]
  · rw [if_neg hl, if_neg hl]

theorem openOn_closeOperation (ops : OrderedMap String (OrderedMap String (LaneRecord ν)))
    (lane' : String) (runId : Option String) (lane : String) :
    (openOn (closeOperation ops lane' runId) lane).toList =
      (openOn ops lane).toList.filter fun p => ¬ (lane' = lane ∧ runId = some p.1) := by
  have hkeep : ∀ l : List (String × LaneRecord ν), (∀ p ∈ l, ¬ (lane' = lane ∧ runId = some p.1)) →
      l.filter (fun p => ¬ (lane' = lane ∧ runId = some p.1)) = l := by
    intro l hl
    rw [List.filter_eq_self]
    exact fun p hp => decide_eq_true (hl p hp)
  unfold openOn closeOperation
  cases hops : ops.get? lane' with
  | none =>
    refine (hkeep _ ?_).symm
    rintro p hp ⟨rfl, -⟩
    rw [hops] at hp
    simp [OrderedMap.empty] at hp
  | some openOps =>
    cases runId with
    | none => exact (hkeep _ (by simp)).symm
    | some runId =>
      by_cases hl : lane' = lane
      · subst hl
        simp only [OrderedMap.get?_set_self, Option.getD_some, hops, OrderedMap.delete]
        refine List.filter_congr fun p _ => ?_
        simp [eq_comm]
      · rw [hkeep _ (fun p _ h => hl h.1), OrderedMap.get?_set_ne _ _ hl]

namespace RecordsInvariant

variable {sequence : Nat} {records : List (LaneRecord ν)} {ops : OrderedMap String (OrderedMap String (LaneRecord ν))}
  (h : RecordsInvariant sequence records ops)
include h

theorem mono {sequence' : Nat} (hle : sequence ≤ sequence') :
    RecordsInvariant sequence' records ops where
  seq_le := fun r hr => Nat.le_trans (h.seq_le r hr) hle
  sorted := h.sorted
  openOps := h.openOps

theorem openOn_get?_none {id lane : String} (hfresh : id ∉ records.map LaneRecord.id) :
    (openOn ops lane).get? id = none := by
  rw [OrderedMap.get?_eq_none_iff, OrderedMap.keys, h.openOps lane, List.map_map]
  intro hmem
  exact hfresh (((openOperations_sublist lane records).map LaneRecord.id).subset hmem)

/-- A fresh record goes to the end, and opens or closes an operation of its lane. -/
theorem push {r : LaneRecord ν} (hfresh : r.id ∉ records.map LaneRecord.id) (hseq : sequence < r.seq) :
    RecordsInvariant r.seq (records ++ [r]) (if r.type = .operation_started then openOperation ops r
        else if r.type = .operation_finished then closeOperation ops r.lane r.runId
        else ops) where
  seq_le := by
    intro r' hr'
    rcases List.mem_append.mp hr' with hr' | hr'
    · exact Nat.le_trans (h.seq_le r' hr') (Nat.le_of_lt hseq)
    · rw [List.mem_singleton.mp hr']
  sorted := by
    rw [List.pairwise_append]
    refine ⟨h.sorted, List.pairwise_singleton _ _, fun a ha b hb => ?_⟩
    rw [List.mem_singleton.mp hb]
    exact Nat.lt_of_le_of_lt (h.seq_le a ha) hseq
  openOps := by
    intro lane
    rw [openOperations_concat, List.map_append]
    have hkeep : r.type ≠ .operation_finished → (openOperations lane records).filter (fun o => ¬ r.Finishes lane o.id) =
          openOperations lane records := fun hne =>
      List.filter_eq_self.mpr fun o _ => decide_eq_true fun hf => hne hf.2.1
    by_cases hs : r.type = .operation_started
    · rw [if_pos hs, openOn_openOperation, hkeep (by simp [hs])]
      by_cases hl : r.lane = lane
      · rw [if_pos hl, if_pos ⟨hl, hs⟩, OrderedMap.toList_set_of_fresh r (h.openOn_get?_none hfresh), h.openOps lane]
        rfl
      · rw [if_neg hl, if_neg (fun hc => hl hc.1), h.openOps lane]
        simp
    · have hns : ¬ r.Starts lane := fun hc => hs hc.2
      rw [if_neg hs, if_neg hns, List.map_nil, List.append_nil]
      by_cases hf : r.type = .operation_finished
      · rw [if_pos hf, openOn_closeOperation, h.openOps lane, List.filter_map]
        congr 1
        refine List.filter_congr fun o _ => ?_
        simp [LaneRecord.Finishes, hf]
      · rw [if_neg hf, hkeep hf, h.openOps lane]

end RecordsInvariant

/-! ## One mutation -/

section Step

variable [Add ν] {s : SessionState ν} {m : SessionMutation ν}

@[simp] theorem sequence_applied : (s.applied m).sequence = m.seq := by
  cases m <;> rfl

theorem log_applied : (s.applied m).log = s.log ++ [m.logItem] := by
  cases m <;> rfl

theorem entries_applied : (s.applied m).entries = s.entries ++ m.logItem.entry?.toList := by
  cases m <;> simp [applied, SessionMutation.logItem, LogItem.entry?]

theorem records_applied : (s.applied m).records = s.records ++ m.logItem.record?.toList := by
  cases m <;> simp [applied, SessionMutation.logItem, LogItem.record?]

theorem stats_applied : (s.applied m).stats = s.stats.addItem m.logItem := by
  cases m with
  | entry lane e => rfl
  | record r => rfl
  | lane seq l leafId => rfl
  | name seq n => rfl
  | label seq targetId text => rfl

variable [Zero ν]

/-- Ids stay distinct, and stay the used ones, when a fresh one is appended. -/
theorem ids_push {s' : SessionState ν} {id : String} (hinv : s.Invariant)
    (hids : s'.ids.Perm (id :: s.ids)) (hused : s'.usedIds = insert id s.usedIds)
    (hfresh : id ∉ s.usedIds) :
    s'.ids.Nodup ∧ ∀ i, i ∈ s'.usedIds ↔ i ∈ s'.ids := by
  constructor
  · rw [hids.nodup_iff, List.nodup_cons]
    exact ⟨fun h => hfresh ((hinv.used_iff id).mpr h), hinv.ids_nodup⟩
  · intro i
    rw [hids.mem_iff, List.mem_cons, hused, Finset.mem_insert, hinv.used_iff]

/-- **An accepted mutation keeps the invariant.** -/
theorem Invariant.applied (hinv : s.Invariant) (hacc : s.Accepts m) : (s.applied m).Invariant := by
  obtain ⟨hseq, hacc⟩ := hacc
  -- what concerns the log is the same for every kind of mutation
  have hlog : (s.applied m).log.map LogItem.seq = List.range' 1 (s.applied m).sequence := by
    rw [log_applied, sequence_applied, List.map_append, hinv.log_seqs, hseq, List.range'_1_concat]
    simp [hseq, Nat.add_comm]
  have hentries : (s.applied m).entries = (s.applied m).log.filterMap LogItem.entry? := by
    rw [log_applied, entries_applied, List.filterMap_append, hinv.entries_logged]
    cases m.logItem <;> rfl
  have hrecords : (s.applied m).records = (s.applied m).log.filterMap LogItem.record? := by
    rw [log_applied, records_applied, List.filterMap_append, hinv.records_logged]
    cases m.logItem <;> rfl
  have hstats : (s.applied m).stats = SessionStats.ofLog (s.applied m).log := by
    rw [log_applied, stats_applied, SessionStats.ofLog, List.foldl_append, hinv.stats_eq]
    rfl
  have hle : s.sequence ≤ m.seq := by omega
  have hlt : s.sequence < m.seq := by omega
  cases m with
  | entry lane e =>
    obtain ⟨hfresh, hchain, hparent⟩ := hacc
    have hid : e.id ∉ s.entries.map Entry.id := fun h =>
      hfresh ((hinv.used_iff _).mpr (List.mem_append_left _ h))
    have hentriesInv := hinv.entriesInv.push hid hlt hparent
    -- what was an entry still is one
    have hmono : ∀ i, s.entriesById.has i → (s.entriesById.set e.id e).has i := fun i hi => by
      rw [hentriesInv.has_iff, List.map_append, List.mem_append]
      exact Or.inl (hinv.entriesInv.has_iff.mp hi)
    have hself : (s.entriesById.set e.id e).has e.id := by simp [OrderedMap.has]
    have hids : (s.applied (.entry lane e)).ids.Perm (e.id :: s.ids) := by
      simp only [ids, SessionState.applied, List.map_append, List.map_singleton]
      rw [List.append_assoc, List.singleton_append]
      exact List.perm_middle
    obtain ⟨hnodup, hused⟩ := ids_push hinv hids rfl hfresh
    refine ⟨hlog, hentries, hrecords, hentriesInv, hinv.recordsInv.mono hle, hnodup, hused,
      fun r hr => ?_, fun l leaf hl => ?_, fun id label hl => ?_, hstats⟩
    · have := hinv.record_lanes r hr
      cases lane with
      | none => exact this
      | some lane =>
        simp only [SessionState.applied, OrderedMap.has, OrderedMap.get?_set] at this ⊢
        split
        · rfl
        · exact this
    · cases lane with
      | none => exact hmono leaf (hinv.lane_leaves l leaf hl)
      | some lane =>
        simp only [SessionState.applied, OrderedMap.get?_set] at hl
        split at hl
        · cases hl
          exact hself
        · exact hmono leaf (hinv.lane_leaves l leaf hl)
    · exact hmono id (hinv.label_targets id label hl)
  | record r =>
    obtain ⟨hlane, hfresh⟩ := hacc
    have hid : r.id ∉ s.records.map LaneRecord.id := fun h =>
      hfresh ((hinv.used_iff _).mpr (List.mem_append_right _ h))
    have hids : (s.applied (.record r)).ids.Perm (r.id :: s.ids) := by
      simp only [ids, SessionState.applied, List.map_append, List.map_singleton]
      rw [← List.append_assoc]
      exact List.perm_append_singleton _ _
    obtain ⟨hnodup, hused⟩ := ids_push hinv hids rfl hfresh
    refine ⟨hlog, hentries, hrecords, hinv.entriesInv.mono hle, hinv.recordsInv.push hid hlt,
      hnodup, hused, fun r' hr' => ?_, hinv.lane_leaves, hinv.label_targets, hstats⟩
    rcases List.mem_append.mp hr' with hr' | hr'
    · exact hinv.record_lanes r' hr'
    · rw [List.mem_singleton.mp hr']
      exact hlane
  | lane seq l leafId =>
    refine ⟨hlog, hentries, hrecords, hinv.entriesInv.mono hle, hinv.recordsInv.mono hle,
      hinv.ids_nodup, hinv.used_iff, fun r hr => ?_, fun l' leaf hl => ?_, hinv.label_targets,
      hstats⟩
    · have := hinv.record_lanes r hr
      simp only [SessionState.applied, OrderedMap.has, OrderedMap.get?_set] at this ⊢
      split
      · rfl
      · exact this
    · simp only [SessionState.applied, OrderedMap.get?_set] at hl
      split at hl
      · cases hl
        exact hacc leaf rfl
      · exact hinv.lane_leaves l' leaf hl
  | name seq n =>
    exact ⟨hlog, hentries, hrecords, hinv.entriesInv.mono hle, hinv.recordsInv.mono hle,
      hinv.ids_nodup, hinv.used_iff, hinv.record_lanes, hinv.lane_leaves, hinv.label_targets,
      hstats⟩
  | label seq targetId text =>
    refine ⟨hlog, hentries, hrecords, hinv.entriesInv.mono hle, hinv.recordsInv.mono hle,
      hinv.ids_nodup, hinv.used_iff, hinv.record_lanes, hinv.lane_leaves, fun id label hl => ?_,
      hstats⟩
    cases text with
    | none =>
      simp only [SessionState.applied, OrderedMap.get?_delete] at hl
      obtain ⟨-, hl⟩ := Option.ite_none_left_eq_some.mp hl
      exact hinv.label_targets id label hl
    | some text =>
      simp only [SessionState.applied, OrderedMap.get?_set] at hl
      split at hl
      next heq => exact heq ▸ hacc
      · exact hinv.label_targets id label hl

/-! ## Runs -/

theorem initial_invariant : (initial : SessionState ν).Invariant where
  log_seqs := rfl
  entries_logged := rfl
  records_logged := rfl
  entriesInv := ⟨rfl, by simp [initial], by simp [initial], by simp [initial]⟩
  recordsInv := ⟨by simp [initial], by simp [initial], fun _ => rfl⟩
  ids_nodup := List.nodup_nil
  used_iff := by simp [initial, ids]
  record_lanes := by simp [initial]
  lane_leaves := by
    intro lane leaf h
    simp only [initial, OrderedMap.get?_set] at h
    split at h <;> simp at h
  label_targets := by simp [initial]
  stats_eq := rfl

/-- The state after offering `mutation` to `applyMutation`, accepted or not. -/
def offer (s : SessionState ν) (mutation : SessionMutation ν) : SessionState ν :=
  ((applyMutation mutation).exec s).2

/-- The state a fresh `SessionState` is in after it was offered `mutations` in turn. -/
def run (mutations : List (SessionMutation ν)) : SessionState ν := mutations.foldl offer initial

theorem Invariant.offer (hinv : s.Invariant) : (s.offer m).Invariant := by
  rcases applyMutation_cases s m with ⟨hacc, h⟩ | ⟨-, message, h⟩
  · simpa [SessionState.offer, h] using hinv.applied hacc
  · simpa [SessionState.offer, h] using hinv

theorem Invariant.foldl_offer (mutations : List (SessionMutation ν)) :
    ∀ s : SessionState ν, s.Invariant → (mutations.foldl SessionState.offer s).Invariant := by
  induction mutations with
  | nil => exact fun s hs => hs
  | cons m mutations ih => exact fun s hs => ih (s.offer m) hs.offer

/-- **Every reachable state meets the invariant.** -/
theorem run_invariant (mutations : List (SessionMutation ν)) : (run mutations).Invariant :=
  Invariant.foldl_offer mutations initial initial_invariant

end Step

/-! ## Branches -/

namespace EntriesInvariant

variable {s : SessionState ν} (h : EntriesInvariant s.sequence s.entries s.entriesById)

variable {e : Entry ν} {path : List (Entry ν)}
include h

theorem parentOf_rank {e p : Entry ν} (he : e ∈ s.entries) (hp : s.parentOf e = some p) :
    p ∈ s.entries ∧ p.seq < e.seq := by
  obtain ⟨id, hid, hget⟩ := Option.bind_eq_some_iff.mp hp
  obtain ⟨hmem, rfl⟩ := h.get?_iff.mp hget
  obtain ⟨parent, hparent, heq, hlt⟩ := h.parents e he _ hid
  obtain rfl : parent = p := List.inj_on_of_nodup_map h.ids_nodup hparent hmem heq
  exact ⟨hmem, hlt⟩

theorem exists_path (he : e ∈ s.entries) : ∃ path, RootPath s.parentOf e path :=
  RootPath.exists_of_rank Entry.seq (· ∈ s.entries) (fun _ _ => h.parentOf_rank) e he

theorem path_mem (he : e ∈ s.entries) (hpath : RootPath s.parentOf e path) : ∀ a ∈ path, a ∈ s.entries :=
  hpath.forall_mem (· ∈ s.entries) (fun _ _ ha hp => (h.parentOf_rank ha hp).1) he

theorem path_sorted (he : e ∈ s.entries)
    (hpath : RootPath s.parentOf e path) : path.Pairwise fun a b => b.seq < a.seq :=
  hpath.pairwise_rank Entry.seq (· ∈ s.entries) (fun _ _ => h.parentOf_rank) he

/-- The other entries of a path are older than its start. -/
theorem path_seq_lt {e a : Entry ν} (he : e ∈ s.entries)
    (hpath : RootPath s.parentOf e path) (ha : a ∈ path) (hne : a ≠ e) : a.seq < e.seq := by
  have hsorted := h.path_sorted he hpath
  cases hpath with
  | root _ => exact absurd (List.mem_singleton.mp ha) hne
  | step _ _ =>
    rcases List.mem_cons.mp ha with rfl | ha
    · exact absurd rfl hne
    · exact List.rel_of_pairwise_cons hsorted ha

theorem path_closed (he : e ∈ s.entries) (hpath : RootPath s.parentOf e path) : s.Closed path := by
  intro a ha p hp
  obtain ⟨parent, hparent, rfl, -⟩ := h.parents a (h.path_mem he hpath a ha) p hp
  exact h.has_iff.mpr (List.mem_map_of_mem hparent)

theorem path_ids_nodup (he : e ∈ s.entries) (hpath : RootPath s.parentOf e path) : (path.map Entry.id).Nodup := by
  have hnodup : path.Nodup := (h.path_sorted he hpath).imp fun hlt heq => by
    rw [heq] at hlt
    exact Nat.lt_irrefl _ hlt
  exact hnodup.map_on fun a ha b hb heq =>
    List.inj_on_of_nodup_map h.ids_nodup (h.path_mem he hpath a ha) (h.path_mem he hpath b hb) heq

/-- A closed forest roots every path in an entry without a parent. -/
theorem path_root (he : e ∈ s.entries)
    (hpath : RootPath s.parentOf e path) : ∃ root, path.getLast? = some root ∧ root.parentId = none := by
  obtain ⟨root, hlast, hroot⟩ := hpath.getLast_root
  refine ⟨root, hlast, ?_⟩
  cases hp : root.parentId with
  | none => rfl
  | some p =>
    have hmem := h.path_mem he hpath root (List.mem_of_getLast? hlast)
    obtain ⟨parent, hparent, rfl, -⟩ := h.parents root hmem p hp
    simp [parentOf, hp, h.get?_iff.mpr ⟨hparent, rfl⟩] at hroot

/-- From an existing start the walk to the root throws nothing. -/
theorem walkToRoot_eq {start : String} (hget : s.getEntry start = some e) (hpath : RootPath s.parentOf e path)
    (bounds : BranchBounds) :
    s.walkToRoot (some start) bounds = ⟨Scan.upTo (reachesBound · bounds) path, none⟩ := by
  have he := (h.get?_iff.mp hget).1
  exact SessionState.walkToRoot_eq hget hpath (h.path_closed he hpath) (h.path_ids_nodup he hpath)

/-- From an existing start the branch query fails on its arguments only. -/
theorem findEntriesOnBranch_eq {query : BranchQuery} (hget : s.getEntry query.start = some e)
    (hpath : RootPath s.parentOf e path) :
    s.findEntriesOnBranch query = (do
      assertValidLimit query.limit
      assertValidCursor query.cursor
      return branchResults query path) := by
  have he := (h.get?_iff.mp hget).1
  exact SessionState.findEntriesOnBranch_eq hget hpath (h.path_closed he hpath) (h.path_ids_nodup he hpath)

end EntriesInvariant

/-! ## The operations left open -/

theorem RecordsInvariant.findOpenOperations_eq {s : SessionState ν}
    (h : RecordsInvariant s.sequence s.records s.openOperationsByLane) (lane : String)
    (limit : Option Int) :
    s.findOpenOperations lane limit = (do
      assertValidLimit limit
      return Scan.limited limit (openOperations lane s.records).reverse) := by
  have hvalues : (openOn s.openOperationsByLane lane).values = openOperations lane s.records := by
    rw [OrderedMap.values, h.openOps lane, List.map_map]
    exact List.map_id _
  unfold findOpenOperations
  cases assertValidLimit limit with
  | error e => rfl
  | ok u =>
    rw [openOn] at hvalues
    cases hops : s.openOperationsByLane.get? lane with
    | none =>
      rw [hops, Option.getD_none, OrderedMap.values_empty] at hvalues
      rw [← hvalues]
      cases limit <;> rfl
    | some openOperationsById =>
      rw [hops, Option.getD_some] at hvalues
      rw [← hvalues]
      cases limit <;> rfl

/-! ## The state as its users see it -/

theorem assertValid_error {limit cursor : Option Int} {α : Type} {a : α} {error : SessionError} (h : (do
      assertValidLimit limit
      assertValidCursor cursor
      return a) = Except.error error) : error.code = .invalid_query := by
  unfold assertValidLimit assertValidCursor at h
  cases limit with
  | none =>
    cases cursor with
    | none => cases h
    | some n =>
      dsimp only at h
      split at h <;> cases h
      rfl
  | some k =>
    dsimp only at h
    split at h
    · cases h
      rfl
    · cases cursor with
      | none => cases h
      | some n =>
        dsimp only at h
        split at h <;> cases h
        rfl

/-- **Every reachable session is well formed.** Whatever mutations a fresh state was offered:
the log is numbered `1, 2, …` up to the sequence; no id occurs twice; parents exist and
precede their children, so a walk from an entry ends in a root and a branch query can only
object to its arguments; lane leaves and label targets exist; the statistics are the fold
of the log; the open operations are the started ones without a later finish, newest first;
and a mutation that throws changes nothing. -/
theorem run_wellFormed [Add ν] [Zero ν] (mutations : List (SessionMutation ν)) :
    let s := run mutations
    (s.log.length = s.sequence ∧ s.log.map LogItem.seq = List.range' 1 s.sequence) ∧
    (s.entries.map Entry.id ++ s.records.map LaneRecord.id).Nodup ∧
    (∀ e ∈ s.entries, ∀ p ∈ e.parentId, ∃ parent ∈ s.entries, parent.id = p ∧ parent.seq < e.seq) ∧
    (∀ start e, s.getEntry start = some e →
      (∃ path root, s.walkToRoot (some start) {} = ⟨path, none⟩ ∧ path.head? = some e ∧
        path.getLast? = some root ∧ root.parentId = none) ∧
      (∀ bounds, (s.walkToRoot (some start) bounds).thrown = none) ∧
      ∀ query : BranchQuery, query.start = start →
        ∀ error, s.findEntriesOnBranch query = .error error → error.code = .invalid_query) ∧
    (∀ lane leaf, ⟨lane, some leaf⟩ ∈ s.getLanes → (s.getEntry leaf).isSome) ∧
    (∀ id label, s.getLabel id = some label → (s.getEntry id).isSome) ∧
    s.getStats = SessionStats.ofLog s.log ∧
    (∀ lane, s.findOpenOperations lane none = .ok (openOperations lane s.records).reverse) ∧
    ∀ mutation error s', (applyMutation mutation).exec s = (.error error, s') → s' = s := by
  intro s
  have h : s.Invariant := run_invariant mutations
  refine ⟨⟨?_, h.log_seqs⟩, h.ids_nodup, h.entriesInv.parents, ?_, ?_, h.label_targets,
    h.stats_eq, fun lane => h.recordsInv.findOpenOperations_eq lane none, ?_⟩
  · rw [← List.length_map (f := LogItem.seq), h.log_seqs, List.length_range']
  · intro start e hget
    obtain ⟨he, -⟩ := h.entriesInv.get?_iff.mp hget
    obtain ⟨path, hpath⟩ := h.entriesInv.exists_path he
    have hwalk := h.entriesInv.walkToRoot_eq hget hpath
    refine ⟨?_, fun bounds => by rw [hwalk], ?_⟩
    · obtain ⟨root, hlast, hroot⟩ := h.entriesInv.path_root he hpath
      have hall : Scan.upTo (reachesBound · {}) path = path :=
        Scan.upTo_eq_self fun entry _ => by simp [reachesBound]
      exact ⟨path, root, by rw [hwalk, hall], hpath.head?_eq, hlast, hroot⟩
    · rintro query rfl error herror
      rw [h.entriesInv.findEntriesOnBranch_eq hget hpath] at herror
      exact assertValid_error herror
  · intro lane leaf hmem
    obtain ⟨⟨l, leafId⟩, hl, heq⟩ := List.mem_map.mp hmem
    cases heq
    exact h.lane_leaves _ leaf (OrderedMap.get?_eq_some_iff.mpr hl)
  · intro mutation error s' hexec
    rcases applyMutation_cases s mutation with ⟨-, hok⟩ | ⟨-, message, herror⟩
    · rw [hok] at hexec
      cases hexec
    · rw [herror] at hexec
      cases hexec
      rfl

end SessionState

/-! ## Accepted mutations in a row -/

/-- The mutations are accepted one after the other and lead from one state to another. -/
inductive Chain [Add ν] : SessionState ν → List (SessionMutation ν) → SessionState ν → Prop
  | nil {s : SessionState ν} : Chain s [] s
  | cons {s s' : SessionState ν} {m : SessionMutation ν} {ms : List (SessionMutation ν)} :
      s.Accepts m → Chain (s.applied m) ms s' → Chain s (m :: ms) s'

namespace Chain

variable [Add ν] {s s' s'' : SessionState ν} {ms ms' : List (SessionMutation ν)}

theorem append (h : Chain s ms s') (h' : Chain s' ms' s'') : Chain s (ms ++ ms') s'' := by
  induction h with
  | nil => exact h'
  | cons hacc _ ih => exact .cons hacc (ih h')

theorem concat {m : SessionMutation ν} (h : Chain s ms s') (hacc : s'.Accepts m) :
    Chain s (ms ++ [m]) (s'.applied m) := h.append (.cons hacc .nil)

theorem sequence_eq (h : Chain s ms s') : s'.sequence = s.sequence + ms.length := by
  induction h with
  | nil => rfl
  | @cons s s' m ms hacc _ ih =>
    rw [ih, SessionState.sequence_applied, hacc.1, List.length_cons]
    omega

theorem invariant [Zero ν] (h : Chain s ms s') (hinv : s.Invariant) : s'.Invariant := by
  induction h with
  | nil => exact hinv
  | cons hacc _ ih => exact ih (hinv.applied hacc)

end Chain

end Mcpi.Session
