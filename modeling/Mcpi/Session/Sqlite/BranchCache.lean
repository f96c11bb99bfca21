import Mcpi.Session.Sqlite.Codec

/-!
# The branch cache

`storage/branch-entries.ts`, `storage/branch-tips.ts` and `branch-cache.ts`: for every tip
of the entry tree the rows of `branch_entries` with one branch id hold the path from the
root to that tip, so that a branch query is one statement and not a walk. An entry that is
appended to a tip extends its branch in place, one appended anywhere else gets a new branch
with a copy of the path, and a fork or a repair builds branches from the parent links.

`uuidv7` is an argument: the ids that its next calls return.
-/

namespace Mcpi.Session.Sqlite

variable {ν : Type}

/-! ## `storage/branch-entries.ts` -/

/-- `CachedBranch` -/
structure CachedBranch where
  branchId : String
  leafSeq : Nat
  deriving DecidableEq

/-- `readCachedBranch` -/
def readCachedBranch (rows : SessionRows ν) (leafId : String) : Option CachedBranch :=
  (Sql.select rows.branch_entries (fun row => row.entry_id = leafId) BranchEntryRow.branch_id .asc
    (some 1)).head?.map fun row => ⟨row.branch_id, row.entry_seq⟩

/-- `stop.entry_type = … OR stop.entry_id = …` -/
def stopsAt (bounds : BranchBounds) (row : BranchEntryRow) : Bool :=
  some row.entry_type = bounds.stopAtType || some row.entry_id = bounds.stopAtId

/-- `COALESCE((SELECT MIN or MAX(stop.entry_seq) …), …)` -/
def boundary (rows : SessionRows ν) (branch : CachedBranch) (order : Option EntryOrder) (bounds : BranchBounds) : Nat :=
  let stops := (rows.branch_entries.filter fun row =>
    row.branch_id = branch.branchId && row.entry_seq ≤ branch.leafSeq && stopsAt bounds row).map
      BranchEntryRow.entry_seq
  if order = some .oldestFirst then stops.min?.getD branch.leafSeq else stops.max?.getD 0

/-- `branch_entries AS b JOIN entries AS e` -/
def branchJoin (rows : SessionRows ν) : List (BranchEntryRow × EntryRow) :=
  rows.branch_entries.flatMap fun b =>
    (rows.entries.filter fun e => e.id = b.entry_id).map fun e => (b, e)

/-- `queryCachedBranchRows` -/
def queryCachedBranchRows (rows : SessionRows ν) (branch : CachedBranch) (query : EntryQuery)
    (bounds : BranchBounds) : List EntryRow :=
  let stops := bounds.stopAtType.isSome || bounds.stopAtId.isSome
  (Sql.select (branchJoin rows) (fun row =>
      row.1.branch_id = branch.branchId && row.1.entry_seq ≤ branch.leafSeq &&
      (!stops ||
        if query.order = some .oldestFirst then
          row.1.entry_seq ≤ boundary rows branch query.order bounds
        else row.1.entry_seq ≥ boundary rows branch query.order bounds) &&
      (query.cursor.all fun afterSeq =>
        if query.order = some .oldestFirst then (row.1.entry_seq : Int) > afterSeq
        else (row.1.entry_seq : Int) < afterSeq) &&
      (query.type.all fun type => row.1.entry_type = type) &&
      (query.customType.all fun customType => row.1.custom_type = some customType))
    (fun row => row.1.entry_seq) (direction query.order) query.limit).map Prod.snd

/-- `deleteBranchEntries` -/
def deleteBranchEntries (rows : SessionRows ν) : SessionRows ν :=
  { rows with branch_entries := [] }

/-- `insertBranchEntry` -/
def insertBranchEntry (rows : SessionRows ν) (branch : BranchEntryRow) : Attempt (SessionRows ν) :=
  if rows.branch_entries.any fun row =>
      row.branch_id = branch.branch_id && row.entry_id = branch.entry_id then
    uniqueConstraint "branch_entries"
  else .ok { rows with branch_entries := rows.branch_entries ++ [branch] }

section Path

theorem mem_of_readEntryRow {rows : SessionRows ν} {id : String} {row : EntryRow}
    (h : readEntryRow rows id = some row) : row ∈ rows.entries ∧ row.id = id :=
  ⟨List.mem_of_find?_eq_some h, by simpa using List.find?_some h⟩

variable [JsonNumber ν]

/-- `customTypeFromPayload` -/
def customTypeFromPayload (row : EntryRow) : Attempt (Option String) :=
  if row.type ≠ .custom then .ok none
  else
    match (readObjectPayload row.payload : Option (List (String × Json ν))) with
    | none => decodeFailure row.id
    | some payload =>
      match (Json.member? "customType" payload).bind Json.str? with
      | none => decodeFailure row.id
      | some customType => .ok (some customType)

/-- The `while` loop of `insertBranchEntriesForPath`: the rows from `entryId` to its root. A row
that was seen is not read again, so the loop ends on any table. -/
def pathRows (rows : SessionRows ν) (seen : List String) (entryId : String) : Attempt (List EntryRow) :=
  if _hseen : entryId ∈ seen then
    sessionError .invalid_entry ("Entry parent cycle at " ++ entryId)
  else
    match _h : readEntryRow rows entryId with
    | none => sessionError .invalid_entry ("Entry " ++ entryId ++ " not found")
    | some row =>
      match row.parent_id with
      | none => .ok [row]
      | some parentId => do
          let path ← pathRows rows (entryId :: seen) parentId
          return row :: path
termination_by (rows.entries.filter fun row => row.id ∉ seen).length
decreasing_by
  obtain ⟨hmem, rfl⟩ := mem_of_readEntryRow _h
  exact length_unvisited_lt EntryRow.id hmem _hseen

/-- The `for` loop of `insertBranchEntriesForPath`. -/
def insertPath (branchId : String) : List EntryRow → SessionRows ν → Attempt (SessionRows ν)
  | [], rows => .ok rows
  | row :: path, rows => do
      let customType ← customTypeFromPayload (ν := ν) row
      let rows ← insertBranchEntry rows ⟨branchId, row.id, row.seq, row.type, customType⟩
      insertPath branchId path rows

/-- `insertBranchEntriesForPath` -/
def insertBranchEntriesForPath (rows : SessionRows ν) (branchId leafId : String) :
    Attempt (SessionRows ν) := do
  let path ← pathRows rows [] leafId
  insertPath branchId path.reverse rows

end Path

/-- `readBranchContainingEntry` -/
def readBranchContainingEntry (rows : SessionRows ν) (entryId : String) : Option CachedBranch :=
  (Sql.select rows.branch_entries (fun row => row.entry_id = entryId) BranchEntryRow.branch_id .asc
    (some 1)).head?.map fun row => ⟨row.branch_id, row.entry_seq⟩

/-- `copyBranchEntriesThroughSeq` -/
def copyBranchEntriesThroughSeq (rows : SessionRows ν) (targetBranchId : String)
    (source : CachedBranch) : Attempt (SessionRows ν) :=
  let copies := (rows.branch_entries.filter fun row =>
    row.branch_id = source.branchId && row.entry_seq ≤ source.leafSeq).map fun row =>
      { row with branch_id := targetBranchId }
  if copies.any fun copy => rows.branch_entries.any fun row =>
      row.branch_id = copy.branch_id && row.entry_id = copy.entry_id then
    uniqueConstraint "branch_entries"
  else .ok { rows with branch_entries := rows.branch_entries ++ copies }

/-! ## `storage/branch-tips.ts` -/

/-- `readBranchTipIds` -/
def readBranchTipIds (rows : SessionRows ν) : List String :=
  (Sql.select rows.branch_tips (fun _ => true) BranchTipRow.tip_id .asc none).map
    BranchTipRow.tip_id

/-- `readBranchTipBranchId` -/
def readBranchTipBranchId (rows : SessionRows ν) (tipId : String) : Option String :=
  (rows.branch_tips.find? fun row => row.tip_id = tipId).map BranchTipRow.branch_id

/-- `insertBranchTip` -/
def insertBranchTip (rows : SessionRows ν) (tip : BranchTipRow) : Attempt (SessionRows ν) :=
  if rows.branch_tips.any fun row => row.tip_id = tip.tip_id || row.branch_id = tip.branch_id then
    uniqueConstraint "branch_tips"
  else .ok { rows with branch_tips := rows.branch_tips ++ [tip] }

/-- `updateBranchTip` -/
def updateBranchTip (rows : SessionRows ν) (branchId oldTipId newTipId : String) : Attempt (SessionRows ν × Bool) :=
  let matching := fun row : BranchTipRow => row.branch_id = branchId && row.tip_id = oldTipId
  if rows.branch_tips.any matching && rows.branch_tips.any fun row =>
      row.tip_id = newTipId && !matching row then
    uniqueConstraint "branch_tips"
  else
    .ok ({ rows with branch_tips := rows.branch_tips.map fun row =>
            if matching row then { row with tip_id := newTipId } else row },
      rows.branch_tips.countP matching = 1)

/-- `deleteBranchTips` -/
def deleteBranchTips (rows : SessionRows ν) : SessionRows ν := { rows with branch_tips := [] }

/-! ## `branch-cache.ts` -/

/-- `deleteBranchCache` -/
def deleteBranchCache (rows : SessionRows ν) : SessionRows ν :=
  deleteBranchEntries (deleteBranchTips rows)

/-- `extendBranch` -/
def extendBranch (rows : SessionRows ν) (branch : BranchEntryRow) (parentId : String) :
    Attempt (SessionRows ν) := do
  let rows ← insertBranchEntry rows branch
  let (rows, updated) ← updateBranchTip rows branch.branch_id parentId branch.entry_id
  if updated then return rows
  else sessionError .invalid_entry ("Branch tip " ++ parentId ++ " changed during append")

/-- `appendEntryToBranchCache` -/
def appendEntryToBranchCache (rows : SessionRows ν) (uuidv7 entryId : String) (entrySeq : Nat)
    (entryType : EntryType) (customType : Option String) (parentId : Option String) :
    Attempt (SessionRows ν) :=
  match parentId with
  | none => do
      let rows ← insertBranchEntry rows ⟨uuidv7, entryId, entrySeq, entryType, customType⟩
      insertBranchTip rows ⟨uuidv7, entryId⟩
  | some parentId =>
    match readBranchTipBranchId rows parentId with
    | some tipBranchId =>
      extendBranch rows ⟨tipBranchId, entryId, entrySeq, entryType, customType⟩ parentId
    | none =>
      match readBranchContainingEntry rows parentId with
      | none =>
        sessionError .invalid_entry ("Branch cache has no branch containing parent entry " ++ parentId)
      | some source => do
          let rows ← copyBranchEntriesThroughSeq rows uuidv7 source
          let rows ← insertBranchEntry rows ⟨uuidv7, entryId, entrySeq, entryType, customType⟩
          insertBranchTip rows ⟨uuidv7, entryId⟩

section Build

variable [JsonNumber ν]

/-- The body of `buildCachedBranch` between `SAVEPOINT` and `RELEASE`. -/
def buildBranch (rows : SessionRows ν) (uuidv7 leafId : String) : Attempt (SessionRows ν) := do
  let rows ← insertBranchEntriesForPath rows uuidv7 leafId
  insertBranchTip rows ⟨uuidv7, leafId⟩

/-- `buildCachedBranch` -/
def buildCachedBranch (rows : SessionRows ν) (uuidv7 leafId : String) : Attempt (SessionRows ν) :=
  match buildBranch rows uuidv7 leafId with
  | .ok rows => .ok rows
  | .error (.session error) => .error (.session error)
  | .error _ =>
    sessionError .storage ("Failed to build SQLite branch cache at entry " ++ leafId)

/-- A branch for each tip; `uuidv7 n` is the id of the next one. -/
def buildCachedBranches (uuidv7 : Nat → String) :
    Nat → List String → SessionRows ν → Attempt (SessionRows ν)
  | _, [], rows => .ok rows
  | n, tip :: tips, rows => do
      let rows ← buildCachedBranch rows (uuidv7 n) tip
      buildCachedBranches uuidv7 (n + 1) tips rows

/-- The entries that are nobody's parent. -/
def childlessIds (rows : SessionRows ν) : List String :=
  (Sql.select rows.entries (fun leaf => !rows.entries.any fun child => child.parent_id = some leaf.id)
    EntryRow.seq .asc none).map EntryRow.id

/-- `rebuildBranchCache` -/
def rebuildBranchCache (rows : SessionRows ν) (uuidv7 : Nat → String) : Attempt (SessionRows ν) :=
  buildCachedBranches uuidv7 0 (childlessIds rows) (deleteBranchCache rows)

end Build

end Mcpi.Session.Sqlite
