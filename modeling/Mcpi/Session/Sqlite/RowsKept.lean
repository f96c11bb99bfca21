import Mcpi.Session.Sqlite.Repository

/-!
# What the transactions leave as it is

A statement touches one table. Most of them touch neither the entries nor the branch cache, and none but those
on `writer_leases` touches the lease row: what a write does to the other tables, what creates, forks,
repairs and deletes a session leave it as it is. An acquisition leaves the row of its own lease.
-/

namespace Mcpi.Session.Sqlite

variable {ν : Type}

/-- Whatever a computation returns satisfies a property. -/
def Ensures {α : Type} (x : Attempt α) (post : α → Prop) : Prop := ∀ a, x = .ok a → post a

section Rules

variable {α β : Type} {x : Attempt α} {f : α → Attempt β} {mid : α → Prop} {post : β → Prop}

theorem ensures_bind (hx : Ensures x mid) (hf : ∀ a, mid a → Ensures (f a) post) : Ensures (x >>= f) post := by
  intro b hb
  obtain ⟨a, ha, hfa⟩ := Except.bind_ok.mp hb
  exact hf a (hx a ha) b hfa

theorem ensures_read (hf : ∀ a, Ensures (f a) post) : Ensures (x >>= f) post :=
  ensures_bind (fun _ _ => trivial) fun a (_ : True) => hf a

theorem ensures_pure {a : α} {post : α → Prop} (h : post a) : Ensures (pure a : Attempt α) post := by
  rintro _ ⟨⟩
  exact h

theorem ensures_ok {a : α} {post : α → Prop} (h : post a) : Ensures (.ok a : Attempt α) post := by
  rintro _ ⟨⟩
  exact h

theorem ensures_error {e : Failure} {post : α → Prop} : Ensures (.error e : Attempt α) post := nofun

theorem ensures_throw {code : SessionErrorCode} {message : String} :
    Ensures ((sessionError code message : Attempt α) >>= f) post := nofun

end Rules

/-- The cache and what it is derived from are as they were. -/
structure CacheKept (rows rows' : SessionRows ν) : Prop where
  session : rows'.session = rows.session
  next_seq : rows'.next_seq = rows.next_seq
  entries : rows'.entries = rows.entries
  branch_entries : rows'.branch_entries = rows.branch_entries
  branch_tips : rows'.branch_tips = rows.branch_tips

namespace CacheKept

variable {rows₀ rows rows' : SessionRows ν}

theorem refl (rows : SessionRows ν) : CacheKept rows rows := ⟨rfl, rfl, rfl, rfl, rfl⟩

theorem trans (h : CacheKept rows₀ rows) (h' : CacheKept rows rows') : CacheKept rows₀ rows' :=
  ⟨h'.session.trans h.session, h'.next_seq.trans h.next_seq, h'.entries.trans h.entries,
    h'.branch_entries.trans h.branch_entries, h'.branch_tips.trans h.branch_tips⟩

variable (rows)

theorem claimWriterLease (uuidv7 : String) (now ttlMs : Int) :
    Ensures (claimWriterLease rows uuidv7 now ttlMs) fun result => CacheKept rows result.2 := by
  unfold Sqlite.claimWriterLease acquireWriterLease
  cases rows.writer_lease with
  | none => exact ensures_ok ⟨rfl, rfl, rfl, rfl, rfl⟩
  | some row =>
    dsimp only
    by_cases hexpired : row.expires_at_ms ≤ now
    · rw [if_pos hexpired]
      exact ensures_ok ⟨rfl, rfl, rfl, rfl, rfl⟩
    · rw [if_neg hexpired]
      exact ensures_error

theorem releaseWriterLease (lease : WriterLease) :
    CacheKept rows (releaseWriterLease rows lease) := by
  unfold Sqlite.releaseWriterLease
  split
  · exact ⟨rfl, rfl, rfl, rfl, rfl⟩
  · exact refl rows

theorem renewWriterLease (lease : WriterLease) (now expiresAtMs : Int) :
    CacheKept rows (renewWriterLease rows lease now expiresAtMs).2.2 := by
  unfold Sqlite.renewWriterLease
  split
  · exact ⟨rfl, rfl, rfl, rfl, rfl⟩
  · exact .refl rows

end CacheKept

/-- Nor has the lease row changed. -/
structure RowsKept (rows rows' : SessionRows ν) : Prop extends CacheKept rows rows' where
  writer_lease : rows'.writer_lease = rows.writer_lease

namespace RowsKept

variable {rows₀ rows rows' : SessionRows ν}

theorem refl (rows : SessionRows ν) : RowsKept rows rows := ⟨.refl rows, rfl⟩

theorem trans (h : RowsKept rows₀ rows) (h' : RowsKept rows rows') : RowsKept rows₀ rows' :=
  ⟨h.toCacheKept.trans h'.toCacheKept, h'.writer_lease.trans h.writer_lease⟩

variable (rows)

theorem insertLaneRow (lane : LaneRow) : Ensures (insertLaneRow rows lane) (RowsKept rows) := by
  unfold Sqlite.insertLaneRow
  split
  · exact ensures_error
  · exact ensures_ok ⟨⟨rfl, rfl, rfl, rfl, rfl⟩, rfl⟩

theorem appendLaneMove (seq : Nat) (lane : String) (leafId : Option String) :
    Ensures (appendLaneMove rows seq lane leafId) (RowsKept rows) := by
  unfold Sqlite.appendLaneMove
  split
  · exact ensures_error
  · exact ensures_ok ⟨⟨rfl, rfl, rfl, rfl, rfl⟩, rfl⟩

theorem createLane (seq : Nat) (lane : String) (leafId : Option String) :
    Ensures (createLane rows seq lane leafId) (RowsKept rows) := by
  refine ensures_bind (insertLaneRow rows _) fun rows₁ h₁ => ?_
  exact fun rows₂ h₂ => h₁.trans (appendLaneMove rows₁ seq lane leafId rows₂ h₂)

theorem setLaneLeaf (lane : String) (leafId : Option String) :
    Ensures (setLaneLeaf rows lane leafId) (RowsKept rows) := by
  unfold Sqlite.setLaneLeaf updateLanes
  dsimp only
  split
  · exact ensures_error
  · exact ensures_ok ⟨⟨rfl, rfl, rfl, rfl, rfl⟩, rfl⟩

theorem startLaneOperation (lane runId : String) :
    Ensures (startLaneOperation rows lane runId) (RowsKept rows) := by
  unfold Sqlite.startLaneOperation updateLanes
  dsimp only
  split
  · exact ensures_ok ⟨⟨rfl, rfl, rfl, rfl, rfl⟩, rfl⟩
  · split <;> exact ensures_error

theorem finishLaneOperation (lane : String) (runId : Option String) :
    RowsKept rows (finishLaneOperation rows lane runId) := ⟨⟨rfl, rfl, rfl, rfl, rfl⟩, rfl⟩

theorem appendRecordRow (record : RecordRow) :
    Ensures (appendRecordRow rows record) (RowsKept rows) := by
  unfold Sqlite.appendRecordRow
  split
  · exact ensures_error
  · exact ensures_ok ⟨⟨rfl, rfl, rfl, rfl, rfl⟩, rfl⟩

theorem appendFact (seq : Nat) (kind : FactKind) (key : Option String)
    (value : Option (List Char)) : Ensures (appendFact rows seq kind key value) (RowsKept rows) := by
  unfold Sqlite.appendFact
  split
  · exact ensures_error
  · exact ensures_ok ⟨⟨rfl, rfl, rfl, rfl, rfl⟩, rfl⟩

theorem createStats [Zero ν] (messageCount : Nat) :
    Ensures (createStats rows messageCount) (RowsKept rows) := by
  unfold Sqlite.createStats
  split
  · exact ensures_error
  · exact ensures_ok ⟨⟨rfl, rfl, rfl, rfl, rfl⟩, rfl⟩

theorem incrementMessageCount : Ensures (incrementMessageCount rows) (RowsKept rows) := by
  unfold Sqlite.incrementMessageCount
  split
  · exact ensures_error
  · exact ensures_ok ⟨⟨rfl, rfl, rfl, rfl, rfl⟩, rfl⟩

theorem addUsageToStats [Add ν] (usage : Usage ν) :
    Ensures (addUsageToStats rows usage) (RowsKept rows) := by
  unfold Sqlite.addUsageToStats
  split
  · exact ensures_error
  · exact ensures_ok ⟨⟨rfl, rfl, rfl, rfl, rfl⟩, rfl⟩

end RowsKept

theorem ensures_insertEntryRow (rows : SessionRows ν) (entry : EntryRow) :
    Ensures (insertEntryRow rows entry) fun rows' =>
      rows' = { rows with entries := rows.entries ++ [entry] } := by
  unfold insertEntryRow
  split
  · exact ensures_error
  · exact ensures_ok rfl

/-! ## The branch cache -/

/-- Neither the branch tips nor the lease row have changed. -/
structure TipsKept (rows rows' : SessionRows ν) : Prop where
  branch_tips : rows'.branch_tips = rows.branch_tips
  writer_lease : rows'.writer_lease = rows.writer_lease

/-- Each branch of the second rows is one of the first, or has the new id, and the lease row has not changed. -/
structure TipsFrom (rows : SessionRows ν) (uuidv7 : String) (rows' : SessionRows ν) : Prop where
  branch_tips : ∀ tip ∈ rows'.branch_tips,
    (∃ tip₀ ∈ rows.branch_tips, tip₀.branch_id = tip.branch_id) ∨ tip.branch_id = uuidv7
  writer_lease : rows'.writer_lease = rows.writer_lease

section Cache

variable {rows₀ rows : SessionRows ν} (uuidv7 : String)

theorem TipsKept.trans {rows' : SessionRows ν} (h : TipsKept rows₀ rows) (h' : TipsKept rows rows') :
    TipsKept rows₀ rows' :=
  ⟨h'.branch_tips.trans h.branch_tips, h'.writer_lease.trans h.writer_lease⟩

theorem tipsFrom_insertBranchTip (h : TipsKept rows₀ rows) (tipId : String) :
    Ensures (insertBranchTip rows ⟨uuidv7, tipId⟩) (TipsFrom rows₀ uuidv7) := by
  unfold insertBranchTip
  split
  · exact ensures_error
  · refine ensures_ok ⟨fun tip htip => ?_, h.writer_lease⟩
    rcases List.mem_append.mp htip with htip | htip
    · rw [h.branch_tips] at htip
      exact .inl ⟨tip, htip, rfl⟩
    · rw [List.mem_singleton.mp htip]
      exact .inr rfl

theorem tipsKept_insertBranchEntry (rows : SessionRows ν) (branch : BranchEntryRow) :
    Ensures (insertBranchEntry rows branch) (TipsKept rows) := by
  unfold insertBranchEntry
  split
  · exact ensures_error
  · exact ensures_ok ⟨rfl, rfl⟩

theorem tipsKept_copyBranchEntriesThroughSeq (rows : SessionRows ν) (source : CachedBranch) :
    Ensures (copyBranchEntriesThroughSeq rows uuidv7 source) (TipsKept rows) := by
  unfold copyBranchEntriesThroughSeq
  dsimp only
  split
  · exact ensures_error
  · exact ensures_ok ⟨rfl, rfl⟩

theorem tipsFrom_updateBranchTip (h : TipsKept rows₀ rows) (branchId oldTipId newTipId : String) :
    Ensures (updateBranchTip rows branchId oldTipId newTipId) fun result => TipsFrom rows₀ uuidv7 result.1 := by
  unfold updateBranchTip
  dsimp only
  split
  · exact ensures_error
  · refine ensures_ok ⟨fun tip htip => ?_, h.writer_lease⟩
    obtain ⟨tip₀, htip₀, rfl⟩ := List.mem_map.mp htip
    rw [h.branch_tips] at htip₀
    refine .inl ⟨tip₀, htip₀, ?_⟩
    split <;> rfl

theorem tipsFrom_extendBranch (rows : SessionRows ν) (branch : BranchEntryRow) (parentId : String) :
    Ensures (extendBranch rows branch parentId) (TipsFrom rows uuidv7) := by
  refine ensures_bind (tipsKept_insertBranchEntry rows branch) fun rows₁ h₁ => ?_
  refine ensures_bind (tipsFrom_updateBranchTip uuidv7 h₁ _ _ _) fun result h₂ => ?_
  obtain ⟨rows₂, updated⟩ := result
  cases updated with
  | true => exact ensures_pure h₂
  | false => exact ensures_error

theorem tipsFrom_appendEntryToBranchCache (rows : SessionRows ν) (entryId : String)
    (entrySeq : Nat) (entryType : EntryType) (customType : Option String) (parentId : Option String) :
    Ensures (appendEntryToBranchCache rows uuidv7 entryId entrySeq entryType customType parentId)
      (TipsFrom rows uuidv7) := by
  unfold appendEntryToBranchCache
  split
  · refine ensures_bind (tipsKept_insertBranchEntry rows _) fun rows₁ h₁ => ?_
    exact tipsFrom_insertBranchTip uuidv7 h₁ entryId
  · split
    · exact tipsFrom_extendBranch uuidv7 rows _ _
    · split
      · exact ensures_error
      · refine ensures_bind (tipsKept_copyBranchEntriesThroughSeq uuidv7 rows _) fun rows₁ h₁ => ?_
        refine ensures_bind (tipsKept_insertBranchEntry rows₁ _) fun rows₂ h₂ => ?_
        exact tipsFrom_insertBranchTip uuidv7 (h₁.trans h₂) entryId

variable [JsonNumber ν]

theorem tipsKept_insertPath (branchId : String) (path : List EntryRow) :
    ∀ rows : SessionRows ν, Ensures (insertPath branchId path rows) (TipsKept rows) := by
  induction path with
  | nil => exact fun rows => ensures_ok ⟨rfl, rfl⟩
  | cons row path ih =>
    intro rows
    refine ensures_read fun customType => ?_
    refine ensures_bind (tipsKept_insertBranchEntry rows _) fun rows₁ h₁ => ?_
    exact fun rows₂ h₂ => h₁.trans (ih rows₁ rows₂ h₂)

theorem ensures_buildCachedBranch (rows : SessionRows ν) (branchId leafId : String) :
    Ensures (buildCachedBranch rows branchId leafId) fun rows' =>
      rows'.branch_tips = rows.branch_tips ++ [⟨branchId, leafId⟩] ∧
      rows'.writer_lease = rows.writer_lease := by
  have hbuild : Ensures (buildBranch rows branchId leafId) fun rows' =>
      rows'.branch_tips = rows.branch_tips ++ [⟨branchId, leafId⟩] ∧
      rows'.writer_lease = rows.writer_lease := by
    refine ensures_bind (ensures_read fun path => tipsKept_insertPath branchId path.reverse rows) fun rows₁ h₁ => ?_
    unfold insertBranchTip
    split
    · exact ensures_error
    · refine ensures_ok ⟨?_, h₁.writer_lease⟩
      rw [h₁.branch_tips]
  unfold buildCachedBranch
  split
  next rows₁ hrows₁ => exact ensures_ok (hbuild rows₁ hrows₁)
  · exact ensures_error
  · exact ensures_error

/-- The branches that are built have the next ids, and there is one for each tip. -/
theorem ensures_buildCachedBranches (uuidv7 : Nat → String) (tips : List String) :
    ∀ (n : Nat) (rows : SessionRows ν), Ensures (buildCachedBranches uuidv7 n tips rows) fun rows' =>
      rows'.writer_lease = rows.writer_lease ∧
      rows'.branch_tips.length = rows.branch_tips.length + tips.length ∧
      ∀ tip ∈ rows'.branch_tips, tip ∈ rows.branch_tips ∨ ∃ k, k < tips.length ∧ tip.branch_id = uuidv7 (n + k) := by
  induction tips with
  | nil => exact fun n rows => ensures_ok ⟨rfl, rfl, fun tip htip => .inl htip⟩
  | cons tipId tips ih =>
    intro n rows
    refine ensures_bind (ensures_buildCachedBranch rows _ _) fun rows₁ h₁ => ?_
    intro rows₂ h₂
    obtain ⟨hlease, hlength, hids⟩ := ih (n + 1) rows₁ rows₂ h₂
    rw [h₁.1] at hlength hids
    refine ⟨hlease.trans h₁.2, ?_, fun tip htip => ?_⟩
    · rw [hlength, List.length_append, List.length_singleton, List.length_cons]
      omega
    · rcases hids tip htip with hold | ⟨k, hk, hid⟩
      · rcases List.mem_append.mp hold with hold | hnew
        · exact .inl hold
        · rw [List.mem_singleton.mp hnew]
          exact .inr ⟨0, Nat.zero_lt_succ _, rfl⟩
      · refine .inr ⟨k + 1, Nat.succ_lt_succ hk, ?_⟩
        rw [hid]
        exact congrArg uuidv7 (by omega)

end Cache

/-! ## Writes -/

/-- The sequence has moved on by one, the other rows have not but those of the lane or the operation. -/
def Advanced (rows rows' : SessionRows ν) : Prop :=
  ∃ seq rows₁, rows.next_seq = some seq ∧ RowsKept rows rows₁ ∧ rows' = advanceSequence rows₁ seq

theorem ensures_getNextSequence (rows : SessionRows ν) :
    Ensures (getNextSequence rows) fun seq => rows.next_seq = some seq := by
  unfold getNextSequence
  cases hnext : rows.next_seq with
  | none => exact ensures_error
  | some seq => exact ensures_ok rfl

section Writes

variable (rows : SessionRows ν)

theorem advanced_createLaneRows (lane : String) (leafId : Option String) :
    Ensures (createLaneRows rows lane leafId) fun result => Advanced rows result.2 := by
  unfold createLaneRows
  split
  · exact ensures_throw
  · refine ensures_read fun _ => ensures_bind (ensures_getNextSequence rows) fun seq hseq => ?_
    refine ensures_bind (RowsKept.createLane rows seq lane leafId) fun rows₁ h₁ => ?_
    exact ensures_pure ⟨seq, rows₁, hseq, h₁, rfl⟩

theorem advanced_moveLaneRows (lane : String) (leafId : Option String) :
    Ensures (moveLaneRows rows lane leafId) fun result => Advanced rows result.2 := by
  unfold moveLaneRows moveLane
  split
  · exact ensures_throw
  · refine ensures_read fun _ => ensures_bind (ensures_getNextSequence rows) fun seq hseq => ?_
    refine ensures_bind (ensures_bind (RowsKept.setLaneLeaf rows lane leafId) fun rows₁ h₁ =>
      fun rows₂ h₂ => h₁.trans (RowsKept.appendLaneMove rows₁ seq lane leafId rows₂ h₂))
      fun rows₂ h₂ => ?_
    exact ensures_pure ⟨seq, rows₂, hseq, h₂, rfl⟩

variable [JsonNumber ν]

theorem advanced_setNameRows (name : Option String) :
    Ensures (setNameRows rows name) fun result => Advanced rows result.2 := by
  refine ensures_bind (ensures_getNextSequence rows) fun seq hseq => ?_
  refine ensures_bind (RowsKept.appendFact rows _ _ _ _) fun rows₁ h₁ => ?_
  exact ensures_pure ⟨seq, rows₁, hseq, h₁, rfl⟩

theorem advanced_setLabelRows (id : String) (label : Option String) :
    Ensures (setLabelRows rows id label) fun result => Advanced rows result.2 := by
  refine ensures_read fun _ => ensures_bind (ensures_getNextSequence rows) fun seq hseq => ?_
  refine ensures_bind (RowsKept.appendFact rows _ _ _ _) fun rows₁ h₁ => ?_
  exact ensures_pure ⟨seq, rows₁, hseq, h₁, rfl⟩

theorem leased_appendEntryRows (now : SafeNat) (uuidv7 : String) (entry : ProvisionedEntry ν) (lane : String) :
    Ensures (appendEntryRows rows now uuidv7 entry lane) fun result =>
      result.2.writer_lease = rows.writer_lease := by
  refine ensures_read fun parentId => ensures_read fun _ => ensures_read fun seq => ?_
  refine ensures_bind (ensures_insertEntryRow rows _) fun rows₁ h₁ => ?_
  have hlease : rows₁.writer_lease = rows.writer_lease := by rw [h₁]
  refine ensures_bind (RowsKept.setLaneLeaf rows₁ _ _) fun rows₂ h₂ => ?_
  refine ensures_bind (tipsFrom_appendEntryToBranchCache _ rows₂ _ _ _ _ _) fun rows₃ h₃ => ?_
  have hlease₃ := h₃.writer_lease.trans (h₂.writer_lease.trans hlease)
  split
  · exact ensures_bind (RowsKept.incrementMessageCount rows₃) fun rows₄ h₄ =>
      ensures_pure (h₄.writer_lease.trans hlease₃)
  · exact ensures_pure hlease₃

variable [Add ν]

theorem advanced_appendRecordRows (now : SafeNat) (record : NewRecord ν) :
    Ensures (appendRecordRows rows now record) fun result => Advanced rows result.2 := by
  -- behind the operation of the lane
  have hrest : ∀ rows₁ : SessionRows ν, RowsKept rows rows₁ → ∀ (committed : LaneRecord ν) (seq : Nat),
      rows.next_seq = some seq →
        Ensures (recordRowsRest rows₁ record committed seq) fun result => Advanced rows result.2 := by
    intro rows₁ h₁ committed seq hseq
    refine ensures_bind (RowsKept.appendRecordRow rows₁ _) fun rows₂ h₂ => ?_
    have h₃ : RowsKept rows (if record.type = .operation_finished then
        finishLaneOperation rows₂ record.lane committed.runId else rows₂) := by
      split
      · exact (h₁.trans h₂).trans (.finishLaneOperation _ _ _)
      · exact h₁.trans h₂
    dsimp only
    split
    · refine ensures_bind (RowsKept.addUsageToStats _ _) fun rows₄ h₄ => ?_
      exact ensures_pure ⟨seq, rows₄, hseq, h₃.trans h₄, rfl⟩
    · exact ensures_pure ⟨seq, _, hseq, h₃, rfl⟩
  unfold appendRecordRows
  dsimp only
  split
  · exact ensures_throw
  · refine ensures_read fun _ => ensures_bind (ensures_getNextSequence rows) fun seq hseq => ?_
    split
    · exact ensures_bind (RowsKept.startLaneOperation rows _ _) fun rows₁ h₁ =>
        hrest rows₁ h₁ _ seq hseq
    · exact hrest rows (.refl rows) _ seq hseq

/-- **A write** leaves the lease row as it is. -/
theorem leased_performRows (now : SafeNat) (uuidv7 : String) (operation : Operation ν) :
    Ensures (performRows rows now uuidv7 operation) fun result =>
      result.2.writer_lease = rows.writer_lease := by
  have hadvanced : ∀ {x : Attempt (Outcome ν × SessionRows ν)},
      Ensures x (fun result => Advanced rows result.2) →
        Ensures x fun result => result.2.writer_lease = rows.writer_lease := by
    intro x hx result hresult
    obtain ⟨_, _, -, hkept, heq⟩ := hx result hresult
    rw [heq]
    exact hkept.writer_lease
  cases operation with
  | createLane lane leafId => exact hadvanced (advanced_createLaneRows rows lane leafId)
  | moveLane lane leafId => exact hadvanced (advanced_moveLaneRows rows lane leafId)
  | appendEntry newEntry lane => exact leased_appendEntryRows rows now uuidv7 newEntry lane
  | appendRecord newRecord => exact hadvanced (advanced_appendRecordRows rows now newRecord)
  | setName name => exact hadvanced (advanced_setNameRows rows name)
  | setLabel id label => exact hadvanced (advanced_setLabelRows rows id label)

end Writes

/-! ## Acquisitions -/

/-- An acquisition leaves a lease, and its row, up to a time. -/
def Granted (expiresAtMs : Int) (result : WriterLease × SessionRows ν) : Prop :=
  ∃ row, result.2.writer_lease = some row ∧ result.1.holds row = true ∧ row.expires_at_ms = expiresAtMs

section Acquisitions

variable (rows : SessionRows ν) (uuidv7 : String) (now ttlMs : Int)

theorem granted_claimWriterLease : Ensures (claimWriterLease rows uuidv7 now ttlMs) fun result =>
    Granted (now + ttlMs) result ∧ result.1.ownerId = uuidv7 := by
  unfold claimWriterLease acquireWriterLease
  cases hrow : rows.writer_lease with
  | none => exact ensures_ok ⟨⟨_, rfl, by simp [WriterLease.holds], rfl⟩, rfl⟩
  | some row =>
    dsimp only
    by_cases hexpired : row.expires_at_ms ≤ now
    · rw [if_pos hexpired]
      exact ensures_ok ⟨⟨_, rfl, by simp [WriterLease.holds], rfl⟩, rfl⟩
    · rw [if_neg hexpired]
      exact ensures_error

theorem granted_claimStorage : Ensures (claimStorage rows uuidv7 now ttlMs) (Granted (now + ttlMs)) := by
  refine ensures_read fun _ => ?_
  refine ensures_bind (granted_claimWriterLease rows uuidv7 now ttlMs) fun result hgranted => ?_
  exact ensures_read fun _ => ensures_read fun _ => ensures_pure hgranted.1

theorem granted_createTransaction [Zero ν] :
    Ensures (createTransaction rows uuidv7 now ttlMs) (Granted (now + ttlMs)) := by
  refine ensures_read fun _ => ensures_read fun _ => ensures_read fun _ => ensures_read fun rows => ?_
  exact fun result h => (granted_claimWriterLease rows uuidv7 now ttlMs result h).1

end Acquisitions

end Mcpi.Session.Sqlite
