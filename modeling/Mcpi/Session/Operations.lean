import Mcpi.Lib.Except
import Mcpi.Session.Invariant

/-!
# The storage operations

`InMemorySessionStorage` and `JsonlSessionStorage` carry out the six write operations the
same way: they check the arguments against the state, build a mutation with the next
sequence number, and apply it. What differs is what happens between building and applying,
so the first half stands alone here: each operation gives the mutation it would apply, or
the error it rejects with. A mutation built this way is always acceptable.
-/

namespace Mcpi.Session

variable {ν : Type}

/-- A call of one of the write operations of `SessionStorage`. -/
inductive Operation (ν : Type) where
  | createLane (lane : String) (leafId : Option String)
  | moveLane (lane : String) (leafId : Option String)
  | appendEntry (newEntry : ProvisionedEntry ν) (lane : String)
  | appendRecord (newRecord : NewRecord ν)
  | setName (name : Option String)
  | setLabel (id : String) (label : Option String)

/-- What a write operation resolves with. -/
inductive Outcome (ν : Type) where
  | void
  | entry (entry : Entry ν)
  | record (record : LaneRecord ν)
  deriving DecidableEq

/-- The entry or record a mutation commits is what its operation resolves with. -/
def SessionMutation.outcome : SessionMutation ν → Outcome ν
  | .entry _ e => .entry e
  | .record r => .record r
  | _ => .void

/-- `{ ...newEntry, parentId, seq, timestamp }` -/
def ProvisionedEntry.toEntry (newEntry : ProvisionedEntry ν) (parentId : Option String)
    (seq : Nat) (timestamp : SafeNat) : Entry ν :=
  { id := newEntry.id, seq, parentId, timestamp, type := newEntry.type,
    payload := newEntry.payload, typed := newEntry.typed }

/-- `{ ...newRecord, seq, timestamp }` -/
def NewRecord.toRecord (newRecord : NewRecord ν) (seq : Nat) (timestamp : SafeNat) : LaneRecord ν :=
  { id := newRecord.id, seq, lane := newRecord.lane, timestamp, type := newRecord.type,
    payload := newRecord.payload, typed := newRecord.typed }

namespace SessionState

/-! ## The mutation an operation builds -/

/-- `createLane` -/
def createLane (s : SessionState ν) (lane : String) (leafId : Option String) :
    Except SessionError (SessionMutation ν) := do
  s.validateNewLane lane
  s.validateTarget leafId
  return .lane s.nextSequence lane leafId

/-- `moveLane` -/
def moveLane (s : SessionState ν) (lane : String) (leafId : Option String) :
    Except SessionError (SessionMutation ν) := do
  let _ ← s.requireLane lane
  s.validateTarget leafId
  return .lane s.nextSequence lane leafId

/-- `appendEntry` -/
def appendEntry (s : SessionState ν) (now : SafeNat) (newEntry : ProvisionedEntry ν) (lane : String) :
    Except SessionError (SessionMutation ν) := do
  let parentId ← s.requireLane lane
  s.validateUnusedId newEntry.id
  return .entry (some lane) (newEntry.toEntry parentId s.nextSequence now)

/-- `findOpenOperations(newRecord.lane, { limit: 1 })[0]?.id` -/
def currentOpenOperationId (s : SessionState ν) (lane : String) : Except SessionError (Option String) :=
  return (← s.findOpenOperations lane (some 1)).head?.map LaneRecord.id

/-- An operation may start only where none is open. -/
def validateNewOperation (newRecord : NewRecord ν) (currentOpenOperationId : Option String) :
    Except SessionError Unit :=
  match currentOpenOperationId with
  | none => .ok ()
  | some id =>
    if newRecord.type = .operation_started then
      .error ⟨.storage, "Lane " ++ newRecord.lane ++ " already has an open operation " ++ id⟩
    else .ok ()

/-- `appendRecord` -/
def appendRecord (s : SessionState ν) (now : SafeNat) (newRecord : NewRecord ν) :
    Except SessionError (SessionMutation ν) := do
  let _ ← s.requireLane newRecord.lane
  s.validateUnusedId newRecord.id
  validateNewOperation newRecord (← s.currentOpenOperationId newRecord.lane)
  return .record (newRecord.toRecord s.nextSequence now)

/-- `setName` -/
def setName (s : SessionState ν) (name : Option String) : Except SessionError (SessionMutation ν) :=
  return .name s.nextSequence name

/-- `setLabel` -/
def setLabel (s : SessionState ν) (id : String) (label : Option String) :
    Except SessionError (SessionMutation ν) := do
  s.validateTarget (some id)
  return .label s.nextSequence id label

/-- The mutation an operation builds at time `now`. -/
def prepare (s : SessionState ν) (now : SafeNat) : Operation ν → Except SessionError (SessionMutation ν)
  | .createLane lane leafId => s.createLane lane leafId
  | .moveLane lane leafId => s.moveLane lane leafId
  | .appendEntry newEntry lane => s.appendEntry now newEntry lane
  | .appendRecord newRecord => s.appendRecord now newRecord
  | .setName name => s.setName name
  | .setLabel id label => s.setLabel id label

/-! ## It is acceptable -/

theorem requireLane_ok {s : SessionState ν} {lane : String} {leafId : Option String} :
    s.requireLane lane = .ok leafId ↔ s.lanes.get? lane = some leafId := by
  unfold requireLane
  cases s.lanes.get? lane with
  | none => simp
  | some l => simp

theorem validateTarget_ok {s : SessionState ν} {leafId : Option String}
    (h : s.validateTarget leafId = .ok ()) : ∀ i ∈ leafId, s.entriesById.has i := by
  intro i hi
  rw [Option.mem_def] at hi
  subst hi
  unfold validateTarget at h
  dsimp only at h
  split at h
  · assumption
  · cases h

theorem validateUnusedId_ok {s : SessionState ν} {id : String}
    (h : s.validateUnusedId id = .ok ()) : id ∉ s.usedIds := by
  unfold validateUnusedId at h
  split at h
  · cases h
  · assumption

variable [Add ν] [Zero ν] {s : SessionState ν}

/-- **A mutation an operation builds is accepted.** -/
theorem Invariant.accepts_prepare (h : s.Invariant) {now : SafeNat} {op : Operation ν}
    {m : SessionMutation ν} (hm : s.prepare now op = .ok m) : s.Accepts m := by
  cases op with
  | createLane lane leafId =>
    obtain ⟨_, -, hm⟩ := Except.bind_ok.mp hm
    obtain ⟨_, htarget, hm⟩ := Except.bind_ok.mp hm
    cases hm
    exact ⟨rfl, validateTarget_ok htarget⟩
  | moveLane lane leafId =>
    obtain ⟨_, -, hm⟩ := Except.bind_ok.mp hm
    obtain ⟨_, htarget, hm⟩ := Except.bind_ok.mp hm
    cases hm
    exact ⟨rfl, validateTarget_ok htarget⟩
  | appendEntry newEntry lane =>
    obtain ⟨parentId, hlane, hm⟩ := Except.bind_ok.mp hm
    obtain ⟨_, hid, hm⟩ := Except.bind_ok.mp hm
    cases hm
    rw [requireLane_ok] at hlane
    refine ⟨rfl, validateUnusedId_ok hid, ?_, ?_⟩
    · rintro l hl
      cases hl
      exact hlane
    · rintro p hp
      obtain rfl : parentId = some p := hp
      exact h.lane_leaves lane p hlane
  | appendRecord newRecord =>
    obtain ⟨leafId, hlane, hm⟩ := Except.bind_ok.mp hm
    obtain ⟨_, hid, hm⟩ := Except.bind_ok.mp hm
    obtain ⟨_, -, hm⟩ := Except.bind_ok.mp hm
    obtain ⟨_, -, hm⟩ := Except.bind_ok.mp hm
    cases hm
    rw [requireLane_ok] at hlane
    exact ⟨rfl, OrderedMap.has_iff.mpr ⟨leafId, hlane⟩, validateUnusedId_ok hid⟩
  | setName name =>
    cases hm
    exact ⟨rfl, trivial⟩
  | setLabel id label =>
    obtain ⟨_, htarget, hm⟩ := Except.bind_ok.mp hm
    cases hm
    exact ⟨rfl, validateTarget_ok htarget id rfl⟩

end SessionState
end Mcpi.Session
