import Mcpi.Session.Jsonl.Storage

/-!
# Forking a session file

`fork` of `jsonl/storage.ts` writes the mutations of a fork to a temporary file, publishes it and loads it.
-/

namespace Mcpi.Session

variable {ν : Type}

namespace SessionState

/-- The entry that a fork at or before a message ends with. -/
def forkPoint (s : SessionState ν) (selectedEntryId : String) (position : ForkPosition) :
    Except SessionError (Option String) :=
  match s.getEntry selectedEntryId with
  | none => .error ⟨.invalid_fork_target, "Fork target is not a message entry: " ++ selectedEntryId⟩
  | some entry =>
    if entry.type ≠ .message then
      .error ⟨.invalid_fork_target, "Fork target is not a message entry: " ++ selectedEntryId⟩
    else .ok (if position = .at then some entry.id else entry.parentId)

/-- The entry that a fork of a branch ends with. -/
def forkTarget (s : SessionState ν) (entryId : Option String) (position : Option ForkPosition) :
    Except SessionError (Option String) :=
  match entryId with
  | some entryId => s.forkPoint entryId (position.getD .before)
  | none =>
    match s.requireLane "main" with
    | .error error => .error error
    | .ok none => .ok none
    | .ok (some selectedEntryId) => s.forkPoint selectedEntryId (position.getD .at)

/-- The entries that a fork copies, and its lanes. -/
def forkSource (s : SessionState ν) : ForkOptions → Except SessionError (List (Entry ν) × List LanePointer)
  | .tree => do
      let copiedEntries ← s.findEntries { order := some .oldestFirst }
      return (copiedEntries, s.getLanes)
  | .branch entryId position => do
      let targetId ← s.forkTarget entryId position
      let copiedEntries ← match targetId with
        | none => .ok []
        | some start => s.findEntriesOnBranch { start, order := some .oldestFirst }
      return (copiedEntries, [⟨"main", targetId⟩])

/-- What a fork writes, with its sequence numbers still to come. -/
def forkParts (s : SessionState ν) (copiedEntries : List (Entry ν)) (forkLanes : List LanePointer) :
    List (Nat → SessionMutation ν) :=
  copiedEntries.map (fun sourceEntry seq => .entry none { sourceEntry with seq }) ++
    forkLanes.map (fun pointer seq => .lane seq pointer.lane pointer.leafId) ++
    (s.name.map fun name seq => .name seq (some name)).toList ++
    copiedEntries.filterMap fun entry =>
      (s.labels.get? entry.id).map fun label seq => .label seq entry.id (some label)

/-- `createForkMutations` -/
def createForkMutations (s : SessionState ν) (options : ForkOptions) :
    Except SessionError (List (SessionMutation ν)) := do
  let (copiedEntries, forkLanes) ← s.forkSource options
  return (s.forkParts copiedEntries forkLanes).mapIdx fun i mutation => mutation (i + 1)

/-- Mutations one after another. -/
def applyAll [Add ν] (s : SessionState ν) : List (SessionMutation ν) → Except SessionError (SessionState ν)
  | [] => .ok s
  | mutation :: rest =>
    match (applyMutation mutation).exec s with
    | (.ok (), s) => s.applyAll rest
    | (.error error, _) => .error error

end SessionState

namespace Jsonl

variable [JsonNumber ν] [Add ν] [Zero ν]

/-- `JsonlSessionStorage.fork` -/
def fork (storage : JsonlSessionStorage ν) (files : Files) (path : String) (header : JsonlV4Header ν)
    (options : ForkOptions) : Except LoadFailure (JsonlSessionStorage ν) × Files :=
  match storage.state.createForkMutations options with
  | .error error => (.error (.session error), files)
  | .ok mutations =>
    match SessionState.initial.applyAll mutations with
    | .error error => (.error (.session error), Function.update files (path ++ ".tmp") none)
    | .ok _ =>
      load (files.publishFileAtomically path (Utf8.encode (encodeHeader header ++
        mutations.flatMap encodeMutation))) path

end Jsonl
end Mcpi.Session
