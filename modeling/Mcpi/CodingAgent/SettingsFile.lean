import Mcpi.Lib.Transition

/-!
# A settings file

Several `SettingsManager` instances, in one process or several, write their changes to one settings file. What
the file holds is given as a load reads it, behind `migrateSettings`. A setter marks the fields or keys that it
changes and queues a write with a snapshot; a write is a check whether the file exists, the lock, the read, and
the write itself.
-/

namespace Mcpi.CodingAgent.SettingsFile

/-! ## Settings -/

/-- The value of a field: an object, or anything else as text. -/
inductive Value
  | json (text : String)
  | object (entries : String → Option String)

abbrev Settings := String → Option Value

def Settings.empty : Settings := fun _ => none

/-- The spread of a field that is changed key by key -/
def entries : Option Value → String → Option String
  | some (.object entries) => entries
  | _ => fun _ => none

inductive SettingsScope
  | global
  | project
  deriving DecidableEq

/-- What a setter changes: a field, or a key of a field. -/
inductive Target
  | field (name : String)
  | key (inField name : String)
  deriving DecidableEq

/-- The fields whose setters change one key. -/
def nestedFields : List String := ["compaction", "retry", "terminal", "images", "markdown"]

def Target.fieldName : Target → String
  | .field name => name
  | .key inField _ => inField

/-- There is a setter for it. -/
def Target.valid : Target → Bool
  | .field name => !nestedFields.contains name
  | .key inField _ => nestedFields.contains inField

inductive Change
  | field (name : String) (value : Option Value)
  | key (inField name : String) (value : Option String)

def Change.target : Change → Target
  | .field name _ => .field name
  | .key inField name _ => .key inField name

def Settings.apply (settings : Settings) : Change → Settings
  | .field name value => fun field => if field = name then value else settings field
  | .key name key value => fun field =>
    if field = name then
      some (.object fun key' => if key' = key then value else entries (settings name) key')
    else settings field

/-! ## Managers -/

/-- A queued write. -/
structure Write where
  settings : Settings
  modifiedFields : List String
  modifiedNestedFields : List (String × String)

def Write.writes (w : Write) : Target → Bool
  | .field name => w.modifiedFields.contains name
  | .key inField name => w.modifiedNestedFields.contains (inField, name)

/-- Where the first queued write is. `holding` is under the lock, with what has been read. -/
inductive Phase
  | idle
  | checked (fileExists : Bool)
  | holding (current : Option Settings)

/-- `failed` is set where the last write has recorded an error, `changed` has what has been set since the last
successful write or load, `sets` what has been set since the last load. -/
structure SettingsManager where
  created : Bool
  settings : Settings
  loadError : Bool
  projectTrusted : Bool
  modifiedFields : List String
  modifiedNestedFields : List (String × String)
  queue : List Write
  phase : Phase
  failed : Bool
  changed : List Target
  sets : List Target

/-! ## The system -/

/-- A write that has been done. -/
structure Written where
  before : Settings
  after : Settings
  values : Settings
  changed : List Target

/-- `file` is a file that does not exist, or does not parse, or its settings; `lastWriter` has who wrote a field
or key last. -/
structure System where
  file : Option (Option Settings)
  lock : Option Nat
  managers : Nat → SettingsManager
  lastWriter : Target → Option Nat
  written : List Written

def SettingsManager.none : SettingsManager :=
  { created := false
    settings := .empty
    loadError := true
    projectTrusted := true
    modifiedFields := []
    modifiedNestedFields := []
    queue := []
    phase := .idle
    failed := false
    changed := []
    sets := [] }

def System.start (file : Option (Option Settings)) : System :=
  { file, lock := none, managers := fun _ => .none, lastWriter := fun _ => none, written := [] }

inductive Event
  | create (i : Nat) (projectTrusted fails : Bool)
  | set (i : Nat) (changes : List Change)
  | begins (i : Nat)
  | acquire (i : Nat)
  | write (i : Nat)
  | fails (i : Nat)
  | reload (i : Nat) (fails : Bool)
  | setProjectTrusted (i : Nat) (trusted fails : Bool)

namespace SettingsManager

/-- `markModified` -/
def mark (m : SettingsManager) (change : Change) : SettingsManager :=
  { m with
    settings := m.settings.apply change
    modifiedFields := m.modifiedFields.insert change.target.fieldName
    modifiedNestedFields := match change with
      | .field _ _ => m.modifiedNestedFields
      | .key inField name _ => m.modifiedNestedFields.insert (inField, name)
    changed := change.target :: m.changed
    sets := change.target :: m.sets }

/-- `save` -/
def save (m : SettingsManager) : SettingsManager :=
  if m.loadError then m
  else
    { m with
      queue := m.queue ++ [⟨m.settings, m.modifiedFields, m.modifiedNestedFields⟩] }

def clearModified (m : SettingsManager) : SettingsManager :=
  { m with modifiedFields := [], modifiedNestedFields := [], changed := [] }

/-- A load that has been successful, or has failed with the settings that are then in memory. -/
def loaded (m : SettingsManager) (result : Option Settings) (otherwise : Settings) : SettingsManager :=
  { m.clearModified with
    settings := result.getD otherwise
    loadError := result.isNone
    failed := false
    sets := [] }

/-- The first queued write has failed. -/
def fail (m : SettingsManager) : SettingsManager :=
  { m with phase := .idle, queue := m.queue.tail, failed := true }

end SettingsManager

/-- `persistScopedSettings` -/
def persist (w : Write) (current : Settings) : Settings := fun field =>
  if field ∈ w.modifiedFields then
    match w.settings field with
    | some (.object values) =>
      if w.modifiedNestedFields.any (·.1 = field) then
        some (.object fun key =>
          if (field, key) ∈ w.modifiedNestedFields then values key else entries (current field) key)
      else some (.object values)
    | value => value
  else current field

namespace System

def setManager (s : System) (i : Nat) (m : SettingsManager) : System :=
  { s with managers := fun j => if j = i then m else s.managers j }

/-- What a load finds. A project that is not trusted has no settings. -/
def load (s : System) (readable fails : Bool) : Option Settings :=
  if !readable then some .empty
  else if fails then none
  else
    match s.file with
    | none => some .empty
    | some content => content

/-- The settings of the file -/
def content (s : System) : Settings :=
  match s.file with
  | some (some settings) => settings
  | _ => .empty

end System

/-! ## Steps -/

section Steps

variable (scope : SettingsScope)

def readable (projectTrusted : Bool) : Bool := scope = .global || projectTrusted

/-- The check whether the file exists, in the task of the first queued write -/
def begins (s : System) (i : Nat) : Option System :=
  let m := s.managers i
  match m.phase, m.queue with
  | .idle, _ :: _ =>
    if scope = .project ∧ m.projectTrusted = false then some (s.setManager i m.fail)
    else some (s.setManager i { m with phase := .checked s.file.isSome })
  | _, _ => none

/-- The lock, and the read if the file existed -/
def acquire (s : System) (i : Nat) : Option System :=
  let m := s.managers i
  match m.phase, s.lock with
  | .checked true, none =>
    match s.file with
    | some (some settings) =>
      some ({ s with lock := some i }.setManager i { m with phase := .holding (some settings) })
    | _ => some (s.setManager i m.fail)
  | .checked false, none =>
    some ({ s with lock := some i }.setManager i { m with phase := .holding none })
  | _, _ => none

/-- The write, with the lock released and the marks cleared -/
def write (s : System) (i : Nat) : Option System :=
  let m := s.managers i
  match m.phase, m.queue with
  | .holding current, w :: queue =>
    let after := persist w (current.getD .empty)
    some ({ s with
      file := some (some after)
      lock := none
      lastWriter := fun target =>
        if w.writes target then some i else s.lastWriter target
      written := s.written ++ [Written.mk s.content after m.settings m.changed] }.setManager i
      { m.clearModified with phase := .idle, queue, failed := false })
  | _, _ => none

def step (s : System) : Event → Option System
  | .create i projectTrusted fails =>
    let m := s.managers i
    match m.phase with
    | .idle =>
      if m.created then none
      else
        let result := s.load (readable scope projectTrusted) fails
        some (s.setManager i { SettingsManager.none.loaded result .empty with
          created := true, projectTrusted })
    | _ => none
  | .set i changes =>
    let m := s.managers i
    match m.phase with
    | .idle =>
      if m.created ∧ (∀ change ∈ changes, change.target.valid = true) ∧
          (scope = .project → m.projectTrusted = true) then
        some (s.setManager i (changes.foldl SettingsManager.mark m).save)
      else none
    | _ => none
  | .begins i => begins scope s i
  | .acquire i => acquire s i
  | .write i => write s i
  | .fails i =>
    let m := s.managers i
    match m.phase with
    | .idle => none
    | _ => some ({ s with lock := if s.lock = some i then none else s.lock }.setManager i m.fail)
  | .reload i fails =>
    let m := s.managers i
    match m.phase with
    | .idle => if m.created then
        some (s.setManager i (m.loaded (s.load (readable scope m.projectTrusted) fails) m.settings)) else none
    | _ => none
  | .setProjectTrusted i trusted fails =>
    let m := s.managers i
    match m.phase with
    | .idle =>
      if m.created = false ∨ scope = .global ∨ m.projectTrusted = trusted then none
      else if trusted then
        some (s.setManager i { m.loaded (s.load true fails) .empty with projectTrusted := true })
      else some (s.setManager i { m.loaded (some .empty) .empty with projectTrusted := false })
    | _ => none

end Steps

end Mcpi.CodingAgent.SettingsFile
