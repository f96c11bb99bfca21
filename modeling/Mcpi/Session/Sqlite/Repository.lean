import Mcpi.Session.Sqlite.Storage

/-!
# The transactions of `SqliteSessionRepository`

What the methods of `SqliteSessionRepository` do to the database, and the transaction every
write of a storage runs in. Each of them takes or renews the writer lease of the session in
the same transaction in which it writes. A transaction that throws changes nothing, so a
transaction is a function to the new rows or to what it threw.
-/

namespace Mcpi.Session.Sqlite

variable {ν : Type}

/-- The rows of every session, by session id. -/
abbrev Database (ν : Type) := String → SessionRows ν

/-- The database before the first session. -/
def Database.empty : Database ν := SessionRows.none

/-! ## Writes of a storage -/

/-- The transaction of `enqueueWrite`. -/
def writeTransaction {α : Type} (rows : SessionRows ν) (lease : WriterLease) (now ttlMs : Int)
    (operation : SessionRows ν → Attempt (α × SessionRows ν)) :
    Attempt (α × WriterLease × SessionRows ν) :=
  match renewWriterLease rows lease now (now + ttlMs) with
  | (false, _, _) => .error (lostWriterError rows.session_id)
  | (true, lease, rows) => do
      let (result, rows) ← operation rows
      return (result, lease, rows)

/-! ## Sessions -/

section Sessions

variable [Zero ν]

/-- The transaction of `create`. -/
def createTransaction (rows : SessionRows ν) (uuidv7 : String) (now ttlMs : Int) :
    Attempt (WriterLease × SessionRows ν) := do
  let rows ← insertSessionRow rows
  let rows ← createSequence rows
  let rows ← createStats rows 0
  let rows ← createInitialLane rows "main" none
  claimWriterLease rows uuidv7 now ttlMs

/-- `claimStorage` -/
def claimStorage (rows : SessionRows ν) (uuidv7 : String) (now ttlMs : Int) :
    Attempt (WriterLease × SessionRows ν) := do
  requireSessionRow rows
  let (lease, rows) ← claimWriterLease rows uuidv7 now ttlMs
  requireSessionRow rows
  let _ ← readLanes rows
  return (lease, rows)

/-- The transaction of `repairBranchCache`; the first id is the lease owner's. -/
def repairTransaction [JsonNumber ν] (rows : SessionRows ν) (uuidv7 : Nat → String)
    (now ttlMs : Int) : Attempt (SessionRows ν) := do
  let (lease, rows) ← claimWriterLease rows (uuidv7 0) now ttlMs
  requireSessionRow rows
  let rows ← rebuildBranchCache rows fun n => uuidv7 (n + 1)
  return releaseWriterLease rows lease

/-- The transaction of `delete`. -/
def deleteTransaction (rows : SessionRows ν) (uuidv7 : String) (now ttlMs : Int) : Attempt (SessionRows ν) :=
  if !sessionExists rows then .ok (deleteWriterLease rows)
  else do
    let (_, rows) ← claimWriterLease rows uuidv7 now ttlMs
    let rows := deleteBranchCache rows
    let rows := deleteFactRows rows
    let rows := deleteLaneRows rows
    let rows := deleteRecordRows rows
    let rows := deleteEntryRows rows
    let rows := deleteWriterLease rows
    let rows := deleteStats rows
    let rows := deleteSequence rows
    return deleteSessionRow rows

/-! ## `fork` -/

/-- What `fork` copies. -/
structure ForkSource where
  entries : List EntryRow
  lanes : List LanePointer
  branchTips : List String

/-- The target of a branch fork. -/
def branchForkTarget (rows : SessionRows ν) (entryId : Option String)
    (position : Option ForkPosition) : Attempt (Option String) :=
  match readLane rows "main" with
  | none => sessionError .invalid_lane "Lane not found: main"
  | some main =>
    match entryId.or main.leaf_id with
    | none => .ok none
    | some selectedEntryId =>
      match readEntryRow rows selectedEntryId with
      | none =>
        sessionError .invalid_fork_target ("Fork target is not a message entry: " ++ selectedEntryId)
      | some target =>
        if target.type ≠ .message then
          sessionError .invalid_fork_target ("Fork target is not a message entry: " ++ selectedEntryId)
        else
          let position := position.getD (if entryId.isNone then .at else .before)
          .ok (if position = .at then some target.id else target.parent_id)

/-- The reads of `fork` that depend on its scope. -/
def readForkSource (rows : SessionRows ν) : ForkOptions → Attempt ForkSource
  | .tree => do
      let lanes ← readLanes rows
      return ⟨readEntryRows rows none none none (some .oldestFirst) none,
        lanes.map fun row => ⟨row.lane, row.leaf_id⟩, readBranchTipIds rows⟩
  | .branch entryId position => do
      let branchForkTargetId ← branchForkTarget rows entryId position
      match branchForkTargetId with
      | none => return ⟨[], [⟨"main", none⟩], []⟩
      | some targetId =>
        match readCachedBranch rows targetId with
        | none =>
          sessionError .invalid_fork_target ("Fork target is not on a cached branch: " ++ targetId)
        | some cached =>
          return ⟨queryCachedBranchRows rows cached { order := some .oldestFirst } {},
            [⟨"main", some targetId⟩], [targetId]⟩

/-- The labels `fork` copies. -/
def labelsToCopy (rows : SessionRows ν) (options : ForkOptions) (entries : List EntryRow) : List FactRow :=
  (readLatestLabelFacts rows).filter fun row =>
    options = .tree || row.key.any fun key => entries.any fun entry => entry.id = key

/-- `insertEntryRow` for every entry, with consecutive sequence numbers. -/
def copyEntries : Nat → List EntryRow → SessionRows ν → Attempt (SessionRows ν)
  | _, [], rows => .ok rows
  | seq, entry :: entries, rows => do
      let rows ← insertEntryRow rows { entry with seq }
      copyEntries (seq + 1) entries rows

/-- `insertLane` for every lane, with consecutive sequence numbers. -/
def copyLanes : Nat → List LanePointer → SessionRows ν → Attempt (SessionRows ν)
  | _, [], rows => .ok rows
  | seq, lane :: lanes, rows => do
      let rows ← createLane rows seq lane.lane lane.leafId
      copyLanes (seq + 1) lanes rows

/-- `appendFact` for every label, with consecutive sequence numbers. -/
def copyLabels : Nat → List FactRow → SessionRows ν → Attempt (SessionRows ν)
  | _, [], rows => .ok rows
  | seq, label :: labels, rows => do
      let rows ← appendFact rows seq .label label.key label.value
      copyLabels (seq + 1) labels rows

/-- The lanes of the fork, and the next sequence number. -/
def forkLanes (options : ForkOptions) (source : ForkSource) (nextSeq : Nat)
    (rows : SessionRows ν) : Attempt (Nat × SessionRows ν) :=
  match options with
  | .tree => do
      let rows ← copyLanes nextSeq source.lanes rows
      return (nextSeq + source.lanes.length, rows)
  | .branch _ _ => do
      let rows ← createInitialLane rows "main" ((source.lanes.head?).bind LanePointer.leafId)
      return (nextSeq, rows)

/-- The name of the fork, and the next sequence number. -/
def forkName (name : Option (List Char)) (nextSeq : Nat) (rows : SessionRows ν) : Attempt (Nat × SessionRows ν) :=
  match name with
  | none => return (nextSeq, rows)
  | some value => do
      let rows ← appendFact rows nextSeq .name none (some value)
      return (nextSeq + 1, rows)

/-- The transaction of `fork`, on the rows of the target. -/
def forkTransaction [JsonNumber ν] (rows : SessionRows ν) (options : ForkOptions)
    (source : ForkSource) (name : Option (List Char)) (labels : List FactRow)
    (uuidv7 : Nat → String) (now ttlMs : Int) : Attempt (WriterLease × SessionRows ν) := do
  let rows ← insertSessionRow rows
  let rows ← createSequence rows
  let rows ← createStats rows (source.entries.countP fun entry => entry.type = .message)
  let rows ← copyEntries 1 source.entries rows
  let (nextSeq, rows) ← forkLanes options source (1 + source.entries.length) rows
  let (nextSeq, rows) ← forkName name nextSeq rows
  let rows ← copyLabels nextSeq labels rows
  let rows := setNextSequence rows (nextSeq + labels.length)
  let rows ← buildCachedBranches uuidv7 0 source.branchTips rows
  claimWriterLease rows (uuidv7 source.branchTips.length) now ttlMs

/-- `fork`, from the rows of the source and the target to those of the target. -/
def fork [JsonNumber ν] (source target : SessionRows ν) (options : ForkOptions)
    (uuidv7 : Nat → String) (now ttlMs : Int) : Attempt (WriterLease × SessionRows ν) := do
  requireSessionRow source
  if sessionExists target then
    sessionError .already_exists ("Session already exists: " ++ target.session_id)
  let forkSource ← readForkSource source options
  let name := (readLatestFact source .name none).bind FactRow.value
  match forkTransaction target options forkSource name
      (labelsToCopy source options forkSource.entries) uuidv7 now ttlMs with
  | .ok result => return result
  | .error (.session error) => .error (.session error)
  | .error _ => sessionError .storage ("Failed to fork SQLite session " ++ target.session_id)

end Sessions

end Mcpi.Session.Sqlite
