import Mcpi.Lib.Json.Text
import Mcpi.Lib.Sql
import Mcpi.Session.Types

/-!
# The tables of the SQLite backend

`migrations/001_initial.sql` and the statements of `storage/*.ts` on every table but those of
the branch cache and the writer leases. All statements name one session, so the rows of a
session stand together here, table by table, in the order they were inserted. A statement
that violates a key of its table fails, a function that throws gives up the rows it wrote
(it runs inside a transaction), so each function maps rows to rows or to what it threw.
The columns of a `sessions` row and what is derived from them are left out, but for the
existence of the row.
-/

namespace Mcpi.Session.Sqlite

open Mcpi.Session

/-! ## Rows -/

/-- A row of `entries`. -/
structure EntryRow where
  seq : Nat
  id : String
  parent_id : Option String
  type : EntryType
  timestamp : SafeNat
  payload : List Char
  deriving DecidableEq

/-- A row of `branch_entries`. -/
structure BranchEntryRow where
  branch_id : String
  entry_id : String
  entry_seq : Nat
  entry_type : EntryType
  custom_type : Option String
  deriving DecidableEq

/-- A row of `branch_tips`. -/
structure BranchTipRow where
  branch_id : String
  tip_id : String
  deriving DecidableEq

/-- A row of `lanes`. -/
structure LaneRow where
  lane : String
  leaf_id : Option String
  open_operation_id : Option String
  deriving DecidableEq

/-- A row of `records`. -/
structure RecordRow where
  seq : Nat
  id : String
  lane : String
  run_id : Option String
  type : RecordType
  op_kind : Option String
  timestamp : SafeNat
  payload : List Char
  deriving DecidableEq

/-- A row of `lane_moves`. -/
structure LaneMoveRow where
  seq : Nat
  lane : String
  leaf_id : Option String
  deriving DecidableEq

/-- `facts.kind` -/
inductive FactKind where
  | name
  | label
  deriving DecidableEq

/-- A row of `facts`. -/
structure FactRow where
  seq : Nat
  kind : FactKind
  key : Option String
  value : Option (List Char)
  deriving DecidableEq

/-- A row of `writer_leases`. -/
structure WriterLeaseRow where
  owner_id : String
  fence : Nat
  expires_at_ms : Int
  deriving DecidableEq

/-- The rows of one session. A table whose primary key is the session holds at most one. -/
@[ext]
structure SessionRows (ν : Type) where
  session_id : String
  session : Bool
  entries : List EntryRow
  next_seq : Option Nat
  stats : Option (SessionStats ν)
  branch_entries : List BranchEntryRow
  branch_tips : List BranchTipRow
  lanes : List LaneRow
  records : List RecordRow
  lane_moves : List LaneMoveRow
  facts : List FactRow
  writer_lease : Option WriterLeaseRow

/-- The rows of a session that does not exist. -/
def SessionRows.none {ν : Type} (session_id : String) : SessionRows ν :=
  ⟨session_id, false, [], .none, .none, [], [], [], [], [], [], .none⟩

/-- What a statement or a function around it throws. `untyped` stands for a value the code casts
to a type it does not have. -/
inductive Failure where
  | session (error : SessionError)
  | sqlite (message : String)
  | untyped
  deriving DecidableEq

/-- A computation that may throw. -/
abbrev Attempt (α : Type) := Except Failure α

/-- `throw new SessionError(code, message)` -/
def sessionError {α : Type} (code : SessionErrorCode) (message : String) : Attempt α :=
  .error (.session ⟨code, message⟩)

/-- A violated key. -/
def uniqueConstraint {α : Type} (table : String) : Attempt α :=
  .error (.sqlite ("UNIQUE constraint failed: " ++ table))

variable {ν : Type}

/-! ## `storage/entries.ts` -/

/-- `insertEntryRow` -/
def insertEntryRow (rows : SessionRows ν) (entry : EntryRow) : Attempt (SessionRows ν) :=
  if rows.entries.any fun row => row.id = entry.id || row.seq = entry.seq then
    uniqueConstraint "entries"
  else .ok { rows with entries := rows.entries ++ [entry] }

/-- `readEntryRow` -/
def readEntryRow (rows : SessionRows ν) (entryId : String) : Option EntryRow :=
  rows.entries.find? fun row => row.id = entryId

/-- The direction of a query. -/
def direction (order : Option EntryOrder) : Sql.Direction :=
  if order = some .oldestFirst then .asc else .desc

/-- `readEntryRows` -/
def readEntryRows (rows : SessionRows ν) (afterSeq cursor : Option Int) (type : Option EntryType)
    (order : Option EntryOrder) (limit : Option Int) : List EntryRow :=
  Sql.select rows.entries (fun row =>
      (afterSeq.all fun afterSeq => (row.seq : Int) > afterSeq) &&
      (cursor.all fun afterSeq =>
        if order = some .oldestFirst then (row.seq : Int) > afterSeq
        else (row.seq : Int) < afterSeq) &&
      (type.all fun type => row.type = type))
    EntryRow.seq (direction order) limit

/-- `idExistsInEntries` -/
def idExistsInEntries (rows : SessionRows ν) (id : String) : Bool :=
  (rows.entries.find? fun row => row.id = id).isSome

/-- `deleteEntryRows` -/
def deleteEntryRows (rows : SessionRows ν) : SessionRows ν := { rows with entries := [] }

/-! ## `storage/lanes.ts` -/

/-- `INSERT INTO lanes` -/
def insertLaneRow (rows : SessionRows ν) (lane : LaneRow) : Attempt (SessionRows ν) :=
  if rows.lanes.any fun row => row.lane = lane.lane then uniqueConstraint "lanes"
  else .ok { rows with lanes := rows.lanes ++ [lane] }

/-- `createInitialLane` -/
def createInitialLane (rows : SessionRows ν) (lane : String) (leafId : Option String) : Attempt (SessionRows ν) :=
  insertLaneRow rows ⟨lane, leafId, none⟩

/-- `appendLaneMove` -/
def appendLaneMove (rows : SessionRows ν) (seq : Nat) (lane : String) (leafId : Option String) :
    Attempt (SessionRows ν) :=
  if rows.lane_moves.any fun row => row.seq = seq then uniqueConstraint "lane_moves"
  else .ok { rows with lane_moves := rows.lane_moves ++ [⟨seq, lane, leafId⟩] }

/-- `createLane` -/
def createLane (rows : SessionRows ν) (seq : Nat) (lane : String) (leafId : Option String) :
    Attempt (SessionRows ν) := do
  let rows ← insertLaneRow rows ⟨lane, leafId, none⟩
  appendLaneMove rows seq lane leafId

/-- `UPDATE lanes` on the rows that satisfy `condition`, and how many these are. -/
def updateLanes (rows : SessionRows ν) (condition : LaneRow → Bool) (update : LaneRow → LaneRow) :
    SessionRows ν × Nat :=
  ({ rows with lanes := rows.lanes.map fun row => if condition row then update row else row },
    rows.lanes.countP condition)

/-- `setLaneLeaf` -/
def setLaneLeaf (rows : SessionRows ν) (lane : String) (leafId : Option String) : Attempt (SessionRows ν) :=
  match updateLanes rows (fun row => row.lane = lane) fun row => { row with leaf_id := leafId } with
  | (rows, changes) =>
    if changes ≠ 1 then sessionError .invalid_lane ("Lane not found: " ++ lane) else .ok rows

/-- `moveLane` -/
def moveLane (rows : SessionRows ν) (seq : Nat) (lane : String) (leafId : Option String) :
    Attempt (SessionRows ν) := do
  let rows ← setLaneLeaf rows lane leafId
  appendLaneMove rows seq lane leafId

/-- `l.leaf_id IS NULL OR EXISTS (…)` -/
def leafExists (rows : SessionRows ν) (leafId : Option String) : Bool :=
  leafId.all fun leafId => rows.entries.any fun entry => entry.id = leafId

/-- `readLanes` -/
def readLanes (rows : SessionRows ν) : Attempt (List LaneRow) :=
  let lanes := Sql.select rows.lanes (fun _ => true) LaneRow.lane .asc none
  match lanes.find? fun row => !leafExists rows row.leaf_id with
  | some row =>
    sessionError .storage ("Lane " ++ row.lane ++ " points at missing entry " ++ row.leaf_id.getD "null")
  | none => .ok lanes

/-- `readLane` -/
def readLane (rows : SessionRows ν) (lane : String) : Option LaneRow :=
  rows.lanes.find? fun row => row.lane = lane

/-- `readLaneHead` -/
def readLaneHead (rows : SessionRows ν) (lane : String) : Attempt (Option String) :=
  match rows.lanes.find? fun row => row.lane = lane with
  | none => sessionError .invalid_lane ("Lane not found: " ++ lane)
  | some row =>
    if leafExists rows row.leaf_id then .ok row.leaf_id
    else sessionError .storage ("Entry " ++ row.leaf_id.getD "null" ++ " not found")

/-- `startLaneOperation` -/
def startLaneOperation (rows : SessionRows ν) (lane runId : String) : Attempt (SessionRows ν) :=
  match updateLanes rows (fun row => row.lane = lane && row.open_operation_id = none)
      fun row => { row with open_operation_id := some runId } with
  | (updated, changes) =>
    if changes = 1 then .ok updated
    else
      match readLane updated lane with
      | none => sessionError .invalid_lane ("Lane not found: " ++ lane)
      | some current =>
        sessionError .storage ("Lane " ++ lane ++ " already has an open operation " ++
          current.open_operation_id.getD "null")

/-- `finishLaneOperation` -/
def finishLaneOperation (rows : SessionRows ν) (lane : String) (runId : Option String) : SessionRows ν :=
  -- `open_operation_id = NULL` holds of no row
  (updateLanes rows (fun row => row.lane = lane && runId.isSome && row.open_operation_id = runId)
    fun row => { row with open_operation_id := none }).1

/-- `deleteLaneRows` -/
def deleteLaneRows (rows : SessionRows ν) : SessionRows ν :=
  { rows with lane_moves := [], lanes := [] }

/-! ## `storage/records.ts` -/

/-- `appendRecordRow` -/
def appendRecordRow (rows : SessionRows ν) (record : RecordRow) : Attempt (SessionRows ν) :=
  if rows.records.any fun row => row.id = record.id || row.seq = record.seq then
    uniqueConstraint "records"
  else .ok { rows with records := rows.records ++ [record] }

/-- `idExistsInRecords` -/
def idExistsInRecords (rows : SessionRows ν) (id : String) : Bool :=
  (rows.records.find? fun row => row.id = id).isSome

/-- `deleteRecordRows` -/
def deleteRecordRows (rows : SessionRows ν) : SessionRows ν := { rows with records := [] }

/-! ## `storage/facts.ts` -/

/-- `appendFact` -/
def appendFact (rows : SessionRows ν) (seq : Nat) (kind : FactKind) (key : Option String)
    (value : Option (List Char)) : Attempt (SessionRows ν) :=
  if rows.facts.any fun row => row.seq = seq then uniqueConstraint "facts"
  else .ok { rows with facts := rows.facts ++ [⟨seq, kind, key, value⟩] }

/-- `readLatestFact` -/
def readLatestFact (rows : SessionRows ν) (kind : FactKind) (key : Option String) : Option FactRow :=
  (Sql.select rows.facts (fun row => row.kind = kind && row.key = key) FactRow.seq .desc (some 1)).head?

/-- `readLatestLabelFacts` -/
def readLatestLabelFacts (rows : SessionRows ν) : List FactRow :=
  Sql.select rows.facts (fun row => row.kind = .label && row.value.isSome &&
      some row.seq = ((rows.facts.filter fun candidate =>
        candidate.kind = row.kind && candidate.key = row.key).map FactRow.seq).max?)
    (fun row => row.key.getD "") .asc none

/-- `deleteFactRows` -/
def deleteFactRows (rows : SessionRows ν) : SessionRows ν := { rows with facts := [] }

/-! ## `storage/session-sequences.ts` -/

/-- `createSequence` -/
def createSequence (rows : SessionRows ν) : Attempt (SessionRows ν) :=
  if rows.next_seq.isSome then uniqueConstraint "session_sequences"
  else .ok { rows with next_seq := some 1 }

/-- `getNextSequence` -/
def getNextSequence (rows : SessionRows ν) : Attempt Nat :=
  match rows.next_seq with
  | none => sessionError .storage ("Missing sequence row for session " ++ rows.session_id)
  | some seq => .ok seq

/-- `setNextSequence` -/
def setNextSequence (rows : SessionRows ν) (nextSeq : Nat) : SessionRows ν :=
  { rows with next_seq := rows.next_seq.map fun _ => nextSeq }

/-- `advanceSequence` -/
def advanceSequence (rows : SessionRows ν) (seq : Nat) : SessionRows ν :=
  setNextSequence rows (seq + 1)

/-- `deleteSequence` -/
def deleteSequence (rows : SessionRows ν) : SessionRows ν := { rows with next_seq := none }

/-! ## `storage/session-stats.ts` -/

/-- `createStats` -/
def createStats [Zero ν] (rows : SessionRows ν) (messageCount : Nat) : Attempt (SessionRows ν) :=
  if rows.stats.isSome then uniqueConstraint "session_stats"
  else .ok { rows with stats := some { SessionStats.zero with messageCount } }

/-- `incrementMessageCount` -/
def incrementMessageCount (rows : SessionRows ν) : Attempt (SessionRows ν) :=
  match rows.stats with
  | none => sessionError .storage ("Missing stats row for session " ++ rows.session_id)
  | some stats => .ok { rows with stats := some stats.addMessage }

/-- `addUsageToStats` -/
def addUsageToStats [Add ν] (rows : SessionRows ν) (usage : Usage ν) : Attempt (SessionRows ν) :=
  match rows.stats with
  | none => sessionError .storage ("Missing stats row for session " ++ rows.session_id)
  | some stats => .ok { rows with stats := some (stats.addUsage usage) }

/-- `deleteStats` -/
def deleteStats (rows : SessionRows ν) : SessionRows ν := { rows with stats := none }

/-! ## `storage/sessions.ts` -/

/-- `sessionExists` -/
def sessionExists (rows : SessionRows ν) : Bool := rows.session

/-- `insertSessionRow` -/
def insertSessionRow (rows : SessionRows ν) : Attempt (SessionRows ν) :=
  if rows.session then uniqueConstraint "sessions" else .ok { rows with session := true }

/-- `requireSessionRow` -/
def requireSessionRow (rows : SessionRows ν) : Attempt Unit :=
  if rows.session then .ok ()
  else sessionError .not_found ("Session not found: " ++ rows.session_id)

/-- `deleteSessionRow` -/
def deleteSessionRow (rows : SessionRows ν) : SessionRows ν := { rows with session := false }

end Mcpi.Session.Sqlite
