import Mcpi.Lib.LineBreaks
import Mcpi.Lib.Transition
import Mcpi.Session.Jsonl.Fork
import Mcpi.Session.Jsonl.SessionPaths

/-!
# `JsonlSessionRepo`

The repository of session files of `jsonl/repo.ts`. Its file system has the directories and files that the repository
makes; calls of the file system succeed, and the calls of the repository come one after another.
-/

namespace Mcpi.Session.Jsonl

variable {ν : Type}

/-! ## The file system -/

/-- The files, with their paths in the order of `listDir`, and the directories. -/
structure Disk where
  files : Files
  paths : List String
  directories : List String

inductive FileKind
  | file
  | directory
  | symlink
  deriving DecidableEq

structure DirEntry where
  name : String
  path : String
  kind : FileKind
  deriving DecidableEq

namespace Disk

def empty : Disk := ⟨fun _ => none, [], []⟩

/-- `fs.exists` -/
def «exists» (disk : Disk) (path : String) : Bool := (disk.files path).isSome || path ∈ disk.directories

/-- `fs.listDir` -/
def listDir (disk : Disk) (directory : String) : List DirEntry :=
  (disk.paths.filterMap fun path =>
    if (disk.files path).isSome then (entryName directory path).map (⟨·, path, .file⟩) else none) ++
  disk.directories.filterMap fun path => (entryName directory path).map (⟨·, path, .directory⟩)

/-- `fs.createDir` below the sessions root. -/
def createDir (disk : Disk) (sessionsRoot directory : String) : Disk :=
  { disk with directories := ([sessionsRoot, directory].filter (· ∉ disk.directories)).dedup ++ disk.directories }

/-- The file system after something has been written to a path. -/
def written (disk : Disk) (files : Files) (path : String) : Disk :=
  { disk with files, paths := if path ∈ disk.paths then disk.paths else disk.paths ++ [path] }

/-- `fs.remove` -/
def remove (disk : Disk) (path : String) : Disk := { disk with files := Function.update disk.files path none }

end Disk

/-- The first line of `fs.readTextLines`. -/
def Files.readFirstLine (files : Files) (path : String) : Option (List Char) :=
  match files path with
  | none => none
  | some bytes =>
    match LineBreaks.splitLines (Utf8.decode bytes) with
    | (line :: _, _) => some line
    | ([], []) => none
    | ([], rest) => some rest

/-! ## Listing -/

structure JsonlSessionRepo where
  sessionsRootInput : String
  absolutePath : String → String

def JsonlSessionRepo.root (repo : JsonlSessionRepo) : String := repo.absolutePath repo.sessionsRootInput

structure JsonlSessionMetadata (ν : Type) where
  header : JsonlV4Header ν
  path : String
  modifiedAt : Nat

variable (repo : JsonlSessionRepo) (disk : Disk)

def jsonlSessionDirectories (cwd : Option String) : List String :=
  match cwd with
  | some cwd =>
    let directory := sessionDirectory repo.root (repo.absolutePath cwd)
    if disk.exists directory then [directory] else []
  | none =>
    if disk.exists repo.root then
      ((disk.listDir repo.root).filter fun entry => entry.kind = .directory || entry.kind = .symlink).map (·.path)
    else []

def isSessionFile (entry : DirEntry) : Bool :=
  entry.kind ≠ .directory && ".jsonl".toList <:+ entry.name.toList

variable [JsonNumber ν]

/-- What the header of a file says; `mtimeMs` are the modification times. -/
def readMetadata (mtimeMs : String → Nat) (file : DirEntry) : Option (JsonlSessionMetadata ν) :=
  match disk.files.readFirstLine file.path with
  | none => none
  | some [] => none
  | some firstLine =>
    match parseHeader firstLine with
    | .error _ => none
    | .ok header => some ⟨header, file.path, mtimeMs file.path⟩

/-- `listJsonlSessionMetadata` -/
def list (mtimeMs : String → Nat) (cwd : Option String) : List (JsonlSessionMetadata ν) :=
  ((jsonlSessionDirectories repo disk cwd).flatMap fun directory =>
    ((disk.listDir directory).filter isSessionFile).filterMap (readMetadata disk mtimeMs)).mergeSort
      fun left right => right.modifiedAt ≤ left.modifiedAt

/-! ## Creating, opening, deleting -/

structure CreateOptions (ν : Type) where
  id : Option String
  cwd : String
  parentSessionId : Option String
  metadata : Option (List (String × Json ν))

def sessionIdExists (id cwd : String) : Bool :=
  let directory := sessionDirectory repo.root cwd
  if disk.exists directory then
    (disk.listDir directory).any fun entry =>
      entry.kind ≠ .directory && '_' :: id.toList ++ ".jsonl".toList <:+ entry.name.toList
  else false

def alreadyExists (id : String) : SessionError := ⟨.already_exists, "Session already exists: " ++ id⟩

/-- The header of a new session, its path and its directory. -/
def prepareCreate (id cwd : String) (options : CreateOptions ν) (now : SafeNat) :
    Except SessionError (JsonlV4Header ν × String × Disk) :=
  if sessionIdExists repo disk id cwd then .error (alreadyExists id)
  else
    let header : JsonlV4Header ν :=
      { id, createdAt := now, cwd, parentSessionId := options.parentSessionId, legacyParentSessionPath := none,
        metadata := options.metadata, one_parent := .inr rfl }
    .ok (header, sessionPath repo.root cwd now id, disk.createDir repo.root (sessionDirectory repo.root cwd))

variable [Add ν] [Zero ν]

/-- `create`; `uuid` is what `uuidv7` gives. -/
def JsonlSessionRepo.create (options : CreateOptions ν) (uuid : String) (now : SafeNat) :
    Except SessionError (JsonlSessionStorage ν) × Disk :=
  let id := options.id.getD uuid
  match validateSessionId id with
  | .error error => (.error error, disk)
  | .ok () =>
    match prepareCreate repo disk id (repo.absolutePath options.cwd) options now with
    | .error error => (.error error, disk)
    | .ok (header, path, disk) =>
      let (storage, files) := Jsonl.create disk.files path header
      (.ok storage, disk.written files path)

def loadJsonlSessionStorage (metadata : JsonlSessionMetadata ν) : Except LoadFailure (JsonlSessionStorage ν) × Disk :=
  if disk.exists metadata.path then
    match load disk.files metadata.path with
    | (.error error, files) => (.error error, { disk with files })
    | (.ok storage, files) =>
      if storage.header.id ≠ metadata.header.id then
        (.error (.session ⟨.invalid_entry, "Session id does not match header: " ++ metadata.header.id⟩),
          { disk with files })
      else (.ok storage, { disk with files })
  else (.error (.session ⟨.not_found, "Session not found: " ++ metadata.header.id⟩), disk)

/-- `fork` -/
def JsonlSessionRepo.fork (source : JsonlSessionMetadata ν) (options : CreateOptions ν) (forkOptions : ForkOptions)
    (uuid : String) (now : SafeNat) : Except LoadFailure (JsonlSessionStorage ν) × Disk :=
  match loadJsonlSessionStorage disk source with
  | (.error error, disk) => (.error error, disk)
  | (.ok sourceStorage, disk) =>
    let createOptions := { options with parentSessionId := options.parentSessionId.or (some source.header.id) }
    let id := createOptions.id.getD uuid
    match validateSessionId id with
    | .error error => (.error (.session error), disk)
    | .ok () =>
      match prepareCreate repo disk id (repo.absolutePath options.cwd) createOptions now with
      | .error error => (.error (.session error), disk)
      | .ok (header, path, disk) =>
        let (result, files) := Jsonl.fork sourceStorage disk.files path header forkOptions
        (result, disk.written files path)

/-! ## Runs -/

/-- The file system and the sessions that have been opened. -/
structure Repository (ν : Type) where
  disk : Disk
  sessions : List (JsonlSessionStorage ν)

def Repository.initial : Repository ν := ⟨.empty, []⟩

inductive Call (ν : Type)
  | create (options : CreateOptions ν) (uuid : String) (now : SafeNat)
  | fork (source : JsonlSessionMetadata ν) (options : CreateOptions ν) (forkOptions : ForkOptions) (uuid : String)
      (now : SafeNat)
  | «open» (metadata : JsonlSessionMetadata ν)
  | delete (metadata : JsonlSessionMetadata ν)
  /-- One of the sessions that have been opened, deleted or not, is written. -/
  | write (session : Nat) (now : SafeNat) (op : Operation ν)

/-- A session that has been opened is kept. -/
def Repository.opened {ε : Type} (s : Repository ν) (result : Except ε (JsonlSessionStorage ν) × Disk) : Repository ν :=
  ⟨result.2, match result.1 with
    | .error _ => s.sessions
    | .ok storage => s.sessions ++ [storage]⟩

/-- One call of the repository, or a write to a session. -/
def step (s : Repository ν) : Call ν → Option (Repository ν)
  | .create options uuid now => some (s.opened (repo.create s.disk options uuid now))
  | .fork source options forkOptions uuid now =>
    some (s.opened (repo.fork s.disk source options forkOptions uuid now))
  | .open metadata => some (s.opened (loadJsonlSessionStorage s.disk metadata))
  | .delete metadata => some { s with disk := s.disk.remove metadata.path }
  | .write session now op =>
    match s.sessions[session]? with
    | none => none
    | some storage =>
      let (_, storage', files) := perform storage s.disk.files now .success op
      some ⟨s.disk.written files storage.path, s.sessions.set session storage'⟩

end Mcpi.Session.Jsonl
