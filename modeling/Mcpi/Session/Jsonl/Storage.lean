import Mcpi.Lib.Lines
import Mcpi.Lib.Utf8
import Mcpi.Session.Operations
import Mcpi.Session.Jsonl.Codec

/-!
# `JsonlSessionStorage`

A session in a file: `jsonl/storage.ts`. Loading reads the file as UTF-8 text, decodes it
line by line and applies each mutation to a fresh `SessionState`; a last line that is no
JSON is a torn append, which is dropped by publishing the lines before it, and a last line
without its newline gets one. A write operation appends the line of its mutation and only
then applies it. Operations wait for one another in a queue that a failed one does not
stop.

A file is the list of its bytes. Its modification time and the metadata derived from it are
left out.
-/

namespace Mcpi.Session.Jsonl

variable {ν : Type}

/-! ## Files -/

/-- The files by path. -/
abbrev Files := String → Option (List UInt8)

/-- `fs.writeFile` -/
def Files.writeFile (files : Files) (path : String) (bytes : List UInt8) : Files :=
  Function.update files path (some bytes)

/-- `fs.appendFile` that succeeds. -/
def Files.appendFile (files : Files) (path : String) (bytes : List UInt8) : Files :=
  Function.update files path (some ((files path).getD [] ++ bytes))

theorem Files.appendFile_self {files : Files} {path : String} {old : List UInt8}
    (h : files path = some old) (bytes : List UInt8) :
    files.appendFile path bytes path = some (old ++ bytes) := by
  rw [appendFile, Function.update_self, h, Option.getD_some]

/-- `fs.renameFile` -/
def Files.renameFile (files : Files) (source destination : String) : Files :=
  Function.update (Function.update files destination (files source)) source none

/-- `publishFileAtomically` with the complete file written to the temporary path. -/
def Files.publishFileAtomically (files : Files) (destination : String) (bytes : List UInt8) :
    Files :=
  (files.writeFile (destination ++ ".tmp") bytes).renameFile (destination ++ ".tmp") destination

theorem Files.publishFileAtomically_self (files : Files) (destination : String) (bytes : List UInt8) :
    files.publishFileAtomically destination bytes destination = some bytes := by
  have htmp : destination ≠ destination ++ ".tmp" := by
    intro h
    simpa using congrArg String.length h
  rw [publishFileAtomically, renameFile, writeFile, Function.update_of_ne htmp,
    Function.update_self, Function.update_self]

/-! ## Loading -/

/-- An open `JsonlSessionStorage`: its file, the header in it and the state. -/
@[ext]
structure JsonlSessionStorage (ν : Type) where
  path : String
  header : JsonlV4Header ν
  state : SessionState ν

/-- What `load` rejects with. -/
inductive LoadFailure where
  | session (error : SessionError)
  | typeError
  deriving DecidableEq

/-- `invalidFile` -/
def invalidFile (path : String) (line : Nat) (cause : String) : LoadFailure :=
  .session ⟨.invalid_entry, "Invalid JSONL v4 session " ++ path ++ ": line " ++ toString line ++ " " ++ cause⟩

/-- The lines of a file: what follows a final newline is no line. -/
def physicalLines (content : List Char) : List (List Char) :=
  if (List.splitOn '\n' content).getLast? = some [] then (List.splitOn '\n' content).dropLast
  else List.splitOn '\n' content

/-- What the mutation lines of a file come to. -/
inductive Replay (ν : Type) where
  | complete (state : SessionState ν)
  | torn (validLines : List (List Char)) (state : SessionState ν)
  | failed (failure : LoadFailure)

section Load

variable [JsonNumber ν] [Add ν] [Zero ν]

/-- The checks of `applyMutation` for a record. -/
def checkRecord (id : String) (seq : Nat) (lane : String) : SessionState.Update ν Unit := do
  let s ← get
  SessionState.require (seq = s.sequence + 1) ("has non-consecutive seq " ++ toString seq)
  SessionState.require (s.lanes.has lane) ("references missing lane " ++ lane)
  SessionState.require (id ∉ s.usedIds) ("contains duplicate id " ++ id)

/-- What `load` rejects with at a line that is no mutation, or a record without a usage. -/
def lineFailure (path : String) (line : Nat) (s : SessionState ν) (error : JsonlDecodeError) : LoadFailure :=
  match error.kind with
  | .noUsage id seq lane =>
    match (checkRecord id seq lane).exec s with
    | (.ok (), _) => .typeError
    | (.error error, _) => invalidFile path line error.message
  | _ => invalidFile path line error.message

/-- A record that has no usage where the state would take it. -/
def JsonlDecodeError.NoUsage (error : JsonlDecodeError) (s : SessionState ν) : Prop :=
  ∃ id seq lane, error.kind = .noUsage id seq lane ∧ seq = s.sequence + 1 ∧ s.lanes.has lane = true ∧ id ∉ s.usedIds

omit [JsonNumber ν] [Add ν] [Zero ν] in
theorem lineFailure_cases (path : String) (line : Nat) (s : SessionState ν) (error : JsonlDecodeError) :
    (error.NoUsage s ∧ lineFailure path line s error = .typeError) ∨
      (¬ error.NoUsage s ∧ ∃ message, lineFailure path line s error = invalidFile path line message) := by
  obtain ⟨kind, message⟩ := error
  cases kind with
  | noUsage id seq lane =>
    by_cases hplace : seq = s.sequence + 1 ∧ s.lanes.has lane = true ∧ id ∉ s.usedIds
    · refine .inl ⟨⟨id, seq, lane, rfl, hplace⟩, ?_⟩
      obtain ⟨rfl, hlane, hid⟩ := hplace
      simp [lineFailure, checkRecord, hlane, hid]
    · refine .inr ⟨?_, ?_⟩
      · rintro ⟨id', seq', lane', ⟨⟩, hplace'⟩
        exact hplace hplace'
      · by_cases hseq : seq = s.sequence + 1
        · by_cases hlane : s.lanes.has lane = true
          · have hid : id ∈ s.usedIds := by_contra fun hid => hplace ⟨hseq, hlane, hid⟩
            exact ⟨_, by simp [lineFailure, checkRecord, hseq, hlane, hid]; rfl⟩
          · exact ⟨_, by simp [lineFailure, checkRecord, hseq, hlane]; rfl⟩
        · exact ⟨_, by simp [lineFailure, checkRecord, hseq]; rfl⟩
  | _ => exact .inr ⟨by rintro ⟨id, seq, lane, ⟨⟩, -⟩, _, rfl⟩

/-- The loop of `load` from a line on, after the lines `before`. -/
def replay (path : String) (before : List (List Char)) (s : SessionState ν) :
    List (List Char) → Replay ν
  | [] => .complete s
  | line :: rest =>
    match parseMutation line with
    | .error error =>
      if rest = [] ∧ error.kind = .syntaxError then .torn before s
      else .failed (lineFailure path (before.length + 1) s error)
    | .ok mutation =>
      match (SessionState.applyMutation mutation).exec s with
      | (.ok (), s') => replay path (before ++ [line]) s' rest
      | (.error error, _) =>
        if error.code = .invalid_entry then
          .failed (invalidFile path (before.length + 1) error.message)
        else .failed (.session error)

/-- What `load` does with the text of a file. -/
def loadContent (files : Files) (path : String) (content : List Char) :
    Except LoadFailure (JsonlSessionStorage ν) × Files :=
  match physicalLines content with
  | [] => (.error (invalidFile path 1 "is missing a header"), files)
  | [] :: _ => (.error (invalidFile path 1 "is missing a header"), files)
  | first :: lines =>
    match parseHeader first with
    | .error error => (.error (invalidFile path 1 error.message), files)
    | .ok header =>
      match replay path [first] SessionState.initial lines with
      | .failed failure => (.error failure, files)
      | .torn validLines state =>
        -- drop the unacknowledged partial append
        (.ok ⟨path, header, state⟩, files.publishFileAtomically path
          (Utf8.encode (List.intercalate ['\n'] validLines ++ ['\n'])))
      | .complete state =>
        if content.getLast? = some '\n' then (.ok ⟨path, header, state⟩, files)
        else (.ok ⟨path, header, state⟩, files.appendFile path (Utf8.encode ['\n']))

/-- `JsonlSessionStorage.load` -/
def load (files : Files) (path : String) : Except LoadFailure (JsonlSessionStorage ν) × Files :=
  match files path with
  | none => (.error (.session ⟨.not_found, "Failed to read session " ++ path⟩), files)
  | some bytes => loadContent files path (Utf8.decode bytes)

/-- `JsonlSessionStorage.create` -/
def create (files : Files) (path : String) (header : JsonlV4Header ν) : JsonlSessionStorage ν × Files :=
  (⟨path, header, SessionState.initial⟩, files.writeFile path (Utf8.encode (encodeHeader header)))

end Load

/-! ## Writing -/

/-- How a call of `fs.appendFile` ends: it may fail after it wrote any number of bytes short of
all of them. -/
inductive Append where
  | success
  | failure (notFound : Bool) (written : Nat)
  deriving DecidableEq

/-- The bytes a call of `fs.appendFile` leaves in the file. -/
def Append.written (append : Append) (bytes : List UInt8) : List UInt8 :=
  match append with
  | .success => bytes
  | .failure _ n => bytes.dropLast.take n

section Perform

variable [JsonNumber ν] [Add ν]

/-- The error of a failed append. -/
def appendError (path : String) (notFound : Bool) : SessionError :=
  ⟨if notFound then .not_found else .storage, "Failed to append session " ++ path⟩

/-- `appendMutation`, then `applyMutation`. -/
def commit (storage : JsonlSessionStorage ν) (files : Files) (append : Append) (mutation : SessionMutation ν) :
    Except SessionError (Outcome ν) × JsonlSessionStorage ν × Files :=
  let files' := files.appendFile storage.path (append.written (Utf8.encode (encodeMutation mutation)))
  match append with
  | .failure notFound _ => (.error (appendError storage.path notFound), storage, files')
  | .success =>
    match (SessionState.applyMutation mutation).exec storage.state with
    | (.ok (), state) => (.ok mutation.outcome, { storage with state }, files')
    | (.error error, state) => (.error error, { storage with state }, files')

/-- One write operation, from the check of its arguments to its result. -/
def perform (storage : JsonlSessionStorage ν) (files : Files) (now : SafeNat) (append : Append)
    (op : Operation ν) : Except SessionError (Outcome ν) × JsonlSessionStorage ν × Files :=
  match storage.state.prepare now op with
  | .error error => (.error error, storage, files)
  | .ok mutation => commit storage files append mutation

end Perform

end Mcpi.Session.Jsonl
