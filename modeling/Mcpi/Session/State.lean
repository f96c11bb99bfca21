import Mathlib.Data.Finset.Insert
import Mcpi.Lib.OrderedMap
import Mcpi.Lib.RootPath
import Mcpi.Session.Types

/-!
# `SessionState`

The in-memory session of `harness/session/state.ts`: a dozen containers that one
method, `applyMutation`, writes and a handful of queries read. The containers are the
fields of `SessionState` under the source's names; a method that throws does so in
`Update`, whose state survives the throw, so that "a rejected mutation leaves the state
alone" is a statement about the order of checks and writes and not about the embedding.
-/

namespace Mcpi.Session

variable {ν : Type}

/-- `SessionMutation` -/
inductive SessionMutation (ν : Type) where
  | entry (lane : Option String) (entry : Entry ν)
  | record (record : LaneRecord ν)
  | lane (seq : Nat) (lane : String) (leafId : Option String)
  | name (seq : Nat) (name : Option String)
  | label (seq : Nat) (targetId : String) (label : Option String)
  deriving DecidableEq

/-- The sequence number a mutation carries. -/
def SessionMutation.seq : SessionMutation ν → Nat
  | .entry _ e => e.seq
  | .record r => r.seq
  | .lane seq _ _ => seq
  | .name seq _ => seq
  | .label seq _ _ => seq

/-- The log item an accepted mutation leaves. -/
def SessionMutation.logItem : SessionMutation ν → LogItem ν
  | .entry _ e => .entry e.seq e
  | .record r => .record r.seq r
  | .lane seq l leafId => .lane seq l leafId
  | .name seq n => .name seq n
  | .label seq targetId text => .label seq targetId text

@[simp] theorem SessionMutation.seq_logItem (m : SessionMutation ν) : m.logItem.seq = m.seq := by
  cases m <;> rfl

/-- The fields of class `SessionState`. -/
@[ext]
structure SessionState (ν : Type) where
  sequence : Nat
  usedIds : Finset String
  entries : List (Entry ν)
  entriesById : OrderedMap String (Entry ν)
  records : List (LaneRecord ν)
  openOperationsByLane : OrderedMap String (OrderedMap String (LaneRecord ν))
  lanes : OrderedMap String (Option String)
  log : List (LogItem ν)
  stats : SessionStats ν
  name : Option String
  labels : OrderedMap String String

namespace SessionState

/-- A computation that may write the state and may throw; what it wrote before a throw stays. -/
abbrev Update (ν α : Type) := ExceptT SessionError (StateM (SessionState ν)) α

/-! ## Argument checks -/

/-- `assertValidLimit` -/
def assertValidLimit (limit : Option Int) : Except SessionError Unit :=
  match limit with
  | none => .ok ()
  | some limit =>
    if limit ≤ 0 then .error ⟨.invalid_query, "limit must be a positive integer"⟩ else .ok ()

/-- `assertValidCursor` -/
def assertValidCursor (afterSeq : Option Int) : Except SessionError Unit :=
  match afterSeq with
  | none => .ok ()
  | some afterSeq =>
    if afterSeq < 0 then
      .error ⟨.invalid_query, "cursor sequence must be a non-negative integer"⟩
    else .ok ()

/-- `requireLane` -/
def requireLane (s : SessionState ν) (lane : String) : Except SessionError (Option String) :=
  match s.lanes.get? lane with
  | none => .error ⟨.invalid_lane, "Lane not found: " ++ lane⟩
  | some leafId => .ok leafId

/-- `validateNewLane` -/
def validateNewLane (s : SessionState ν) (lane : String) : Except SessionError Unit :=
  if s.lanes.has lane then .error ⟨.already_exists, "Lane already exists: " ++ lane⟩ else .ok ()

/-- `validateTarget` -/
def validateTarget (s : SessionState ν) (targetId : Option String) : Except SessionError Unit :=
  match targetId with
  | none => .ok ()
  | some targetId =>
    if s.entriesById.has targetId then .ok ()
    else .error ⟨.not_found, "Entry not found: " ++ targetId⟩

/-- `validateUnusedId` -/
def validateUnusedId (s : SessionState ν) (id : String) : Except SessionError Unit :=
  if id ∈ s.usedIds then .error ⟨.already_exists, "Session id already exists: " ++ id⟩ else .ok ()

/-- `nextSequence` -/
def nextSequence (s : SessionState ν) : Nat := s.sequence + 1

/-! ## Writing -/

/-- `invalidMutation` -/
def invalidMutation {α : Type} (message : String) : Update ν α :=
  throw ⟨.invalid_entry, "Invalid session mutation: " ++ message⟩

/-- `if (!ok) invalid(message)` -/
def require (ok : Bool) (message : String) : Update ν Unit :=
  if ok then pure () else invalidMutation message

/-- An entry given a lane must chain to that lane's leaf. -/
def requireChain (s : SessionState ν) (lane : Option String) (entry : Entry ν) : Update ν Unit :=
  match lane with
  | none => pure ()
  | some lane =>
    match s.lanes.get? lane with
    | none => invalidMutation ("references missing lane " ++ lane)
    | some leafId => require (entry.parentId = leafId) "does not chain to the lane leaf"

/-- An id that is not null must be the id of an entry. -/
def requireEntry (s : SessionState ν) (id : Option String) (message : String) : Update ν Unit :=
  match id with
  | none => pure ()
  | some id => require (s.entriesById.has id) (message ++ id)

/-- `this.openOperationsByLane` with `record` open on its lane. -/
def openOperation (operations : OrderedMap String (OrderedMap String (LaneRecord ν)))
    (record : LaneRecord ν) : OrderedMap String (OrderedMap String (LaneRecord ν)) :=
  operations.set record.lane (((operations.get? record.lane).getD .empty).set record.id record)

/-- `this.openOperationsByLane.get(lane)?.delete(runId)` -/
def closeOperation (operations : OrderedMap String (OrderedMap String (LaneRecord ν)))
    (lane : String) (runId : Option String) :
    OrderedMap String (OrderedMap String (LaneRecord ν)) :=
  match operations.get? lane, runId with
  | some openOperations, some runId => operations.set lane (openOperations.delete runId)
  | _, _ => operations

section Writing

variable [Add ν] [Zero ν]

/-- A fresh `SessionState`. -/
def initial : SessionState ν where
  sequence := 0
  usedIds := ∅
  entries := []
  entriesById := .empty
  records := []
  openOperationsByLane := .empty
  lanes := OrderedMap.empty.set "main" none
  log := []
  stats := SessionStats.zero
  name := none
  labels := .empty

/-- The writes of `applyMutation` for an entry. -/
def pushEntry (seq : Nat) (lane : Option String) (entry : Entry ν) : Update ν Unit := do
  modify fun s => { s with sequence := seq }
  modify fun s => { s with usedIds := insert entry.id s.usedIds }
  modify fun s => { s with entries := s.entries ++ [entry] }
  modify fun s => { s with entriesById := s.entriesById.set entry.id entry }
  modify fun s => { s with
    lanes := match lane with
      | some lane => s.lanes.set lane (some entry.id)
      | none => s.lanes }
  modify fun s => { s with log := s.log ++ [.entry seq entry] }
  modify fun s => { s with
    stats := if entry.type = .message then s.stats.addMessage else s.stats }

/-- The writes of `applyMutation` for a record. -/
def pushRecord (seq : Nat) (record : LaneRecord ν) : Update ν Unit := do
  modify fun s => { s with sequence := seq }
  modify fun s => { s with usedIds := insert record.id s.usedIds }
  modify fun s => { s with records := s.records ++ [record] }
  modify fun s => { s with
    openOperationsByLane :=
      if record.type = .operation_started then openOperation s.openOperationsByLane record
      else if record.type = .operation_finished then
        closeOperation s.openOperationsByLane record.lane record.runId
      else s.openOperationsByLane }
  modify fun s => { s with log := s.log ++ [.record seq record] }
  modify fun s => { s with
    stats := match record.usage? with
      | some usage => s.stats.addUsage usage
      | none => s.stats }

/-- `applyMutation`, kind by kind: first every check, then every write. -/
def applyMutation (mutation : SessionMutation ν) : Update ν Unit := do
  let seq := mutation.seq
  let s ← get
  require (seq = s.sequence + 1) ("has non-consecutive seq " ++ toString seq)
  match mutation with
  | .entry lane entry => do
      require (entry.id ∉ s.usedIds) ("contains duplicate id " ++ entry.id)
      requireChain s lane entry
      requireEntry s entry.parentId "references missing parent "
      pushEntry seq lane entry
  | .record record => do
      require (s.lanes.has record.lane) ("references missing lane " ++ record.lane)
      require (record.id ∉ s.usedIds) ("contains duplicate id " ++ record.id)
      pushRecord seq record
  | .lane _ lane leafId => do
      requireEntry s leafId "references missing lane target "
      modify fun s => { s with sequence := seq }
      modify fun s => { s with lanes := s.lanes.set lane leafId }
      modify fun s => { s with log := s.log ++ [.lane seq lane leafId] }
  | .name _ name => do
      modify fun s => { s with sequence := seq }
      modify fun s => { s with name := name }
      modify fun s => { s with log := s.log ++ [.name seq name] }
  | .label _ targetId label => do
      requireEntry s (some targetId) "references missing label target "
      modify fun s => { s with sequence := seq }
      modify fun s => { s with
        labels := match label with
          | none => s.labels.delete targetId
          | some label => s.labels.set targetId label }
      modify fun s => { s with log := s.log ++ [.label seq targetId label] }

end Writing

/-! ## Reading -/

/-- `ordered` -/
def ordered {α : Type} (items : List α) (order : Option EntryOrder) : List α :=
  if order = some .oldestFirst then items else items.reverse

/-- `matchesEntryQuery` -/
def matchesEntryQuery (entry : Entry ν) (query : EntryQuery) : Bool :=
  (query.type.all fun type => entry.type = type) &&
  (query.customType.all fun customType =>
    entry.type = .custom && entry.customType = some customType) &&
  (query.cursor.all fun afterSeq =>
    if query.order = some .oldestFirst then (entry.seq : Int) > afterSeq
    else (entry.seq : Int) < afterSeq)

/-- The loop of every list query: keep what `matches` accepts and stop once `limit`
results are there. -/
def collect {α : Type} (accepts : α → Bool) (limit : Option Int) (results : List α) :
    List α → List α
  | [] => results
  | item :: items =>
    if accepts item then
      if limit = some ((results ++ [item]).length : Int) then results ++ [item]
      else collect accepts limit (results ++ [item]) items
    else collect accepts limit results items

/-- `getLanes` -/
def getLanes (s : SessionState ν) : List LanePointer :=
  s.lanes.toList.map fun p => ⟨p.1, p.2⟩

/-- `getEntry` -/
def getEntry (s : SessionState ν) (id : String) : Option (Entry ν) := s.entriesById.get? id

/-- `findEntries` -/
def findEntries (s : SessionState ν) (query : EntryQuery) :
    Except SessionError (List (Entry ν)) := do
  assertValidLimit query.limit
  assertValidCursor query.cursor
  return collect (matchesEntryQuery · query) query.limit [] (ordered s.entries query.order)

/-- `findOpenOperations` -/
def findOpenOperations (s : SessionState ν) (lane : String) (limit : Option Int) :
    Except SessionError (List (LaneRecord ν)) := do
  assertValidLimit limit
  let openOperations := match s.openOperationsByLane.get? lane with
    | some openOperationsById => openOperationsById.values.reverse
    | none => []
  return match limit with
    | none => openOperations
    | some limit => openOperations.take limit.toNat

/-- `getName` -/
def getName (s : SessionState ν) : Option String := s.name

/-- `getLabel` -/
def getLabel (s : SessionState ν) (id : String) : Option String := s.labels.get? id

/-- `getStats` -/
def getStats (s : SessionState ν) : SessionStats ν := s.stats

/-! ## The walk to the root -/

/-- What the generator `walkToRoot` hands its consumer: the entries it yields and the error it
throws when asked for more than it can give. -/
structure Walk (ν : Type) where
  yielded : List (Entry ν)
  thrown : Option SessionError

/-- `current.id === bounds?.stopAtId || current.type === bounds?.stopAtType` -/
def reachesBound (entry : Entry ν) (bounds : BranchBounds) : Bool :=
  some entry.id = bounds.stopAtId || some entry.type = bounds.stopAtType

/-- The loop of `walkToRoot`. Every round either stops or puts one more entry of
`entriesById` among the visited ones, so it ends on any state, cyclic or not. -/
def walkFrom (s : SessionState ν) (bounds : BranchBounds) (visited : List String)
    (current : Entry ν) (_hcurrent : current ∈ s.entriesById.values) : Walk ν :=
  if _hv : current.id ∈ visited then
    ⟨[], some ⟨.invalid_entry, "Session branch contains a cycle at " ++ current.id⟩⟩
  else if reachesBound current bounds then ⟨[current], none⟩
  else
    match current.parentId with
    | none => ⟨[current], none⟩
    | some parentId =>
      match h : s.entriesById.get? parentId with
      | none => ⟨[current], some ⟨.invalid_entry, "Entry not found: " ++ parentId⟩⟩
      | some parent =>
        let rest := walkFrom s bounds (current.id :: visited) parent (OrderedMap.mem_values_of_get? h)
        ⟨current :: rest.yielded, rest.thrown⟩
termination_by (s.entriesById.values.filter fun entry => entry.id ∉ visited).length
decreasing_by exact length_unvisited_lt Entry.id _hcurrent _hv

/-- `walkToRoot` -/
def walkToRoot (s : SessionState ν) (start : Option String) (bounds : BranchBounds) : Walk ν :=
  match start with
  | none => ⟨[], none⟩
  | some start =>
    match h : s.entriesById.get? start with
    | none => ⟨[], some ⟨.not_found, "Entry not found: " ++ start⟩⟩
    | some current => walkFrom s bounds [] current (OrderedMap.mem_values_of_get? h)

/-- The newest-first loop of `findEntriesOnBranch`: pull entries until the limit is reached or
the generator ends, and fail with what it throws. -/
def consumeWalk (query : BranchQuery) (walk : Walk ν) (results : List (Entry ν)) :
    List (Entry ν) → Except SessionError (List (Entry ν))
  | [] => match walk.thrown with
      | none => .ok results
      | some error => .error error
  | entry :: rest =>
    let results :=
      if matchesEntryQuery entry query.toEntryQuery then results ++ [entry] else results
    if query.limit = some (results.length : Int) then .ok results
    else consumeWalk query walk results rest

/-- The oldest-first loop of `findEntriesOnBranch`: scan the reversed path up to the first
bound. -/
def scanBranch (query : BranchQuery) (results : List (Entry ν)) : List (Entry ν) → List (Entry ν)
  | [] => results
  | entry :: rest =>
    let results :=
      if matchesEntryQuery entry query.toEntryQuery then results ++ [entry] else results
    if reachesBound entry query.toBranchBounds || query.limit = some (results.length : Int) then
      results
    else scanBranch query results rest

/-- `findEntriesOnBranch` -/
def findEntriesOnBranch (s : SessionState ν) (query : BranchQuery) :
    Except SessionError (List (Entry ν)) := do
  assertValidLimit query.limit
  assertValidCursor query.cursor
  if query.order = some .oldestFirst then
    let walk := s.walkToRoot (some query.start) {}
    match walk.thrown with
    | some error => throw error
    | none => return scanBranch query [] walk.yielded.reverse
  else
    let walk := s.walkToRoot (some query.start) query.toBranchBounds
    consumeWalk query walk [] walk.yielded

end SessionState
end Mcpi.Session
