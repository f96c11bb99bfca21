import Mcpi.Session.Sqlite.BranchCache
import Mcpi.Session.Sqlite.WriterLease

/-!
# `SqliteSessionStorage`

The methods of `SqliteSessionStorage` in `repo.ts`. A write is the function it hands to
`enqueueWrite`; the transaction around it renews the lease first and gives up everything if
something throws. A read is a few `SELECT`s whose rows are decoded and, where the statement
does not do it, filtered and cut again.
-/

namespace Mcpi.Session.Sqlite

variable {ν : Type}

/-! ## Writes -/

/-- `assertUnusedId` -/
def assertUnusedId (rows : SessionRows ν) (id : String) : Attempt Unit :=
  if idExistsInEntries rows id || idExistsInRecords rows id then
    sessionError .already_exists ("ID already exists: " ++ id)
  else .ok ()

/-- A lane target or a label target that is not null must be found by `readEntryRow`. -/
def requireEntryRow (rows : SessionRows ν) (id : Option String) : Attempt Unit :=
  match id with
  | none => .ok ()
  | some id =>
    if (readEntryRow rows id).isSome then .ok ()
    else sessionError .not_found ("Entry not found: " ++ id)

section Writes

variable [JsonNumber ν] [Add ν]

/-- What `createLane` does in its transaction. -/
def createLaneRows (rows : SessionRows ν) (lane : String) (leafId : Option String) :
    Attempt (Outcome ν × SessionRows ν) := do
  if (readLane rows lane).isSome then
    sessionError .already_exists ("Lane already exists: " ++ lane)
  requireEntryRow rows leafId
  let seq ← getNextSequence rows
  let rows ← createLane rows seq lane leafId
  return (.void, advanceSequence rows seq)

/-- What `moveLane` does in its transaction. -/
def moveLaneRows (rows : SessionRows ν) (lane : String) (leafId : Option String) :
    Attempt (Outcome ν × SessionRows ν) := do
  if (readLane rows lane).isNone then
    sessionError .invalid_lane ("Lane not found: " ++ lane)
  requireEntryRow rows leafId
  let seq ← getNextSequence rows
  let rows ← moveLane rows seq lane leafId
  return (.void, advanceSequence rows seq)

/-- What `appendEntry` does in its transaction. -/
def appendEntryRows (rows : SessionRows ν) (now : SafeNat) (uuidv7 : String)
    (entry : ProvisionedEntry ν) (lane : String) : Attempt (Outcome ν × SessionRows ν) := do
  let parentId ← readLaneHead rows lane
  assertUnusedId rows entry.id
  let seq ← getNextSequence rows
  let committed := entry.toEntry parentId seq now
  let rows ← insertEntryRow rows (entryRow committed)
  let rows ← setLaneLeaf rows lane (some committed.id)
  let rows ← appendEntryToBranchCache rows uuidv7 committed.id seq committed.type
    (if committed.type = .custom then committed.customType else none) committed.parentId
  let rows ← if committed.type = .message then incrementMessageCount rows else pure rows
  return (.entry committed, advanceSequence rows seq)

/-- What `appendRecord` does in its transaction. -/
def appendRecordRows (rows : SessionRows ν) (now : SafeNat) (record : NewRecord ν) :
    Attempt (Outcome ν × SessionRows ν) := do
  if (readLane rows record.lane).isNone then
    sessionError .invalid_lane ("Lane not found: " ++ record.lane)
  assertUnusedId rows record.id
  let seq ← getNextSequence rows
  let committed := record.toRecord seq now
  let rows ← if record.type = .operation_started then startLaneOperation rows record.lane record.id
    else pure rows
  let rows ← appendRecordRow rows (recordRow committed)
  let rows := if record.type = .operation_finished then
      finishLaneOperation rows record.lane committed.runId
    else rows
  let rows ← match committed.usage? with
    | some usage => addUsageToStats rows usage
    | none => pure rows
  return (.record committed, advanceSequence rows seq)

/-- What `appendRecordRows` does behind the operation of the lane. -/
def recordRowsRest (rows : SessionRows ν) (record : NewRecord ν) (committed : LaneRecord ν) (seq : Nat) :
    Attempt (Outcome ν × SessionRows ν) := do
  let rows ← appendRecordRow rows (recordRow committed)
  let rows := if record.type = .operation_finished then
      finishLaneOperation rows record.lane committed.runId
    else rows
  let rows ← match committed.usage? with
    | some usage => addUsageToStats rows usage
    | none => pure rows
  return (.record committed, advanceSequence rows seq)

/-- What `setName` does in its transaction. -/
def setNameRows (rows : SessionRows ν) (name : Option String) :
    Attempt (Outcome ν × SessionRows ν) := do
  let seq ← getNextSequence rows
  let rows ← appendFact rows seq .name none (name.map fun name => Json.stringify (.str name : Json ν))
  return (.void, advanceSequence rows seq)

/-- What `setLabel` does in its transaction. -/
def setLabelRows (rows : SessionRows ν) (id : String) (label : Option String) :
    Attempt (Outcome ν × SessionRows ν) := do
  requireEntryRow rows (some id)
  let seq ← getNextSequence rows
  let rows ← appendFact rows seq .label (some id) (label.map fun label => Json.stringify (.str label : Json ν))
  return (.void, advanceSequence rows seq)

/-- The function a write operation hands to `enqueueWrite`. -/
def performRows (rows : SessionRows ν) (now : SafeNat) (uuidv7 : String) :
    Operation ν → Attempt (Outcome ν × SessionRows ν)
  | .createLane lane leafId => createLaneRows rows lane leafId
  | .moveLane lane leafId => moveLaneRows rows lane leafId
  | .appendEntry newEntry lane => appendEntryRows rows now uuidv7 newEntry lane
  | .appendRecord newRecord => appendRecordRows rows now newRecord
  | .setName name => setNameRows rows name
  | .setLabel id label => setLabelRows rows id label

end Writes

/-! ## Reads -/

/-- `entries.slice(0, limit)`: a negative limit counts from the end. -/
def slice {α : Type} (limit : Option Int) (items : List α) : List α :=
  match limit with
  | none => items
  | some limit => if limit < 0 then items.take (items.length + limit).toNat else items.take limit.toNat

/-- Decode every row, or throw what the first bad one throws. -/
def decodeAll {ρ α : Type} (decode : ρ → Attempt α) (rows : List ρ) : Attempt (List α) :=
  rows.mapM decode

section Reads

variable [JsonNumber ν]

/-- The rows of `[...rows].sort(…)` follow one another. -/
def validateChain : List EntryRow → Attempt Unit
  | previous :: current :: path =>
    if current.parent_id ≠ some previous.id then
      sessionError .invalid_entry ("Entry " ++ current.parent_id.getD "null" ++ " not found")
    else validateChain (current :: path)
  | _ => .ok ()

/-- `validateCachedBranchRows` -/
def validateCachedBranchRows (rows : List EntryRow) (query : EntryQuery) (bounds : BranchBounds) : Attempt Unit :=
  if rows = [] ∨ query.type.isSome ∨ query.customType.isSome then .ok ()
  else do
    let path := Sql.orderBy EntryRow.seq .asc rows
    let shouldIncludeRoot := bounds.stopAtId.isNone && bounds.stopAtType.isNone &&
      query.cursor.isNone && (query.order = some .oldestFirst || query.limit.isNone)
    match path.head?.bind EntryRow.parent_id with
    | some parentId =>
      if shouldIncludeRoot then
        sessionError .invalid_entry ("Entry " ++ parentId ++ " not found")
    | none => pure ()
    validateChain path

/-- `findEntriesOnBranch` -/
def findEntriesOnBranch [DecidableEq ν] (rows : SessionRows ν) (query : BranchQuery) : Attempt (List (Entry ν)) :=
  match readCachedBranch rows query.start with
  | none =>
    if (readEntryRow rows query.start).isNone then
      sessionError .not_found ("Entry not found: " ++ query.start)
    else sessionError .invalid_entry ("Branch cache missing entry " ++ query.start)
  | some cached => do
      let cachedRows := queryCachedBranchRows rows cached query.toEntryQuery query.toBranchBounds
      validateCachedBranchRows cachedRows query.toEntryQuery query.toBranchBounds
      let entries ← decodeAll decodeEntry cachedRows
      return slice query.limit (entries.filter (SessionState.matchesEntryQuery · query.toEntryQuery))

end Reads

end Mcpi.Session.Sqlite
