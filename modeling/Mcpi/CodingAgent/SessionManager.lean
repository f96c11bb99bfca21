import Mcpi.CodingAgent.Entries
import Mcpi.Lib.Except

/-!
# The session manager

The state of a `SessionManager` and its append operations. A file write may throw: what
the operating system makes of it is an `Outcome`, given with each operation. `stringify` is
`JSON.stringify` of one line.
-/

namespace Mcpi.CodingAgent

variable {δ : Type}

def CURRENT_SESSION_VERSION : Nat := 3

/-- Version 1 sessions don't have a `version`. -/
structure SessionHeader where
  version : Option Nat
  id : String
  timestamp : String
  cwd : String
  parentSession : Option String
  deriving DecidableEq

inductive FileEntry (δ : Type) where
  | session (header : SessionHeader)
  | entry (entry : SessionEntry δ)
  deriving DecidableEq

def FileEntry.entry? : FileEntry δ → Option (SessionEntry δ)
  | .entry e => some e
  | .session _ => none

/-- What the manager knows without its file. -/
structure Core (δ : Type) where
  fileEntries : List (FileEntry δ)
  byId : EntryIndex δ
  labelsById : OrderedMap String String
  labelTimestampsById : OrderedMap String String
  leafId : LeafId
  deriving DecidableEq

/-- `file` is the text of `sessionFile`, where it exists. -/
structure SessionManager (δ : Type) extends Core δ where
  persist : Bool
  flushed : Bool
  file : Option String
  deriving DecidableEq

namespace SessionManager

/-! ## Ids -/

/-- A short id that is not taken, or a whole UUID after a hundred collisions. `randomUUID` is
what the calls return one after another. -/
def generateId (randomUUID : Nat → String) (has : String → Bool) : String :=
  match (List.range 100).find? fun i => !has ((randomUUID i).take 8).toString with
  | some i => ((randomUUID i).take 8).toString
  | none => randomUUID 100

/-! ## The index -/

/-- All session entries, without the header. -/
def getEntries (fileEntries : List (FileEntry δ)) : List (SessionEntry δ) :=
  fileEntries.filterMap FileEntry.entry?

@[simp] theorem getEntries_append (a b : List (FileEntry δ)) : getEntries (a ++ b) = getEntries a ++ getEntries b :=
  List.filterMap_append

/-- `if (label) map.set(targetId, value) else map.delete(targetId)` -/
def setLabel (map : OrderedMap String String) (targetId : String) (label : Option String)
    (value : String) : OrderedMap String String :=
  match truthy label with
  | some _ => map.set targetId value
  | none => map.delete targetId

/-- The turn of the loop of `_buildIndex` for one entry. -/
def indexEntry (core : Core δ) (entry : SessionEntry δ) : Core δ :=
  let core := { core with byId := core.byId.set entry.id entry, leafId := some entry.id }
  match entry.body with
  | .label targetId label =>
    { core with
      labelsById := setLabel core.labelsById targetId label (label.getD "")
      labelTimestampsById := setLabel core.labelTimestampsById targetId label entry.timestamp }
  | _ => core

def _buildIndex (fileEntries : List (FileEntry δ)) : Core δ :=
  (getEntries fileEntries).foldl indexEntry ⟨fileEntries, .empty, .empty, .empty, none⟩

/-! ## Writing -/

/-- What becomes of the writes of one operation: all succeed, the file cannot be opened, or a
write throws after `written` characters of the text have reached the file. -/
inductive Outcome where
  | done
  | openFails
  | fails (written : Nat)
  deriving DecidableEq

def hasAssistant (fileEntries : List (FileEntry δ)) : Bool :=
  (getEntries fileEntries).any SessionEntry.isAssistant

section Write

variable (stringify : FileEntry δ → String)

/-- The lines of some entries, each ended by a line break. -/
def lines (entries : List (FileEntry δ)) : String :=
  String.join (entries.map fun entry => stringify entry ++ "\n")

/-- Write text after `text`: what the file holds then, and whether the write went through. -/
def write (text added : String) : Outcome → String × Bool
  | .done => (text ++ added, true)
  | .openFails => (text, false)
  | .fails written => (text ++ (added.take written).toString, false)

/-- `appendFileSync`, which creates the file where there is none. -/
def appendFile (sm : SessionManager δ) (added : String) (outcome : Outcome) : SessionManager δ × Bool :=
  match sm.file, outcome with
  | none, .openFails => (sm, false)
  | file, outcome =>
    let (text, ok) := write (file.getD "") added outcome
    ({ sm with file := some text }, ok)

/-- `openSync(sessionFile, "wx")` and the whole history: no file of that name may exist. -/
def createFile (sm : SessionManager δ) (added : String) (outcome : Outcome) : SessionManager δ × Bool :=
  match sm.file, outcome with
  | some _, _ => (sm, false)
  | none, .openFails => (sm, false)
  | none, outcome =>
    let (text, ok) := write "" added outcome
    ({ sm with file := some text, flushed := ok }, ok)

/-- The result says whether the call returned. -/
def _persist (sm : SessionManager δ) (entry : SessionEntry δ) (outcome : Outcome) : SessionManager δ × Bool :=
  if sm.persist then
    if hasAssistant sm.fileEntries && !sm.flushed then
      createFile sm (lines stringify sm.fileEntries) outcome
    else if sm.flushed then
      appendFile sm (lines stringify [.entry entry]) outcome
    else
      (sm, true)
  else
    (sm, true)

/-- The entry pushed, indexed and made the leaf. -/
def push (sm : SessionManager δ) (entry : SessionEntry δ) : SessionManager δ :=
  { sm with
    fileEntries := sm.fileEntries ++ [.entry entry]
    byId := sm.byId.set entry.id entry
    leafId := some entry.id }

def _appendEntry (sm : SessionManager δ) (entry : SessionEntry δ) (outcome : Outcome) : SessionManager δ × Bool :=
  _persist stringify (sm.push entry) entry outcome

/-! ## Append operations -/

/-- What the caller appends; `custom` and the like are told apart by the body alone. Labels are
appended by `appendLabelChange` and branch summaries by `branchWithSummary`. -/
inductive AppendBody (δ : Type) where
  | message (message : AgentMessage δ)
  | thinkingLevelChange (thinkingLevel : String)
  | modelChange (provider modelId : String)
  | compaction (summary firstKeptEntryId : String) (tokensBefore : Nat)
      (details : Option CompactionDetails) (fromHook : Bool) (usage : Option Usage)
  | customEntry (customType : String) (data : Option δ)
  | sessionInfo (name : String)
  | customMessageEntry (customType : String) (content : MessageContent δ) (display : Bool)
      (details : Option δ)
  deriving DecidableEq

/-- `name.replace(/[\r\n]+/g, " ")` -/
def replaceLineBreaks : Bool → List Char → List Char
  | _, [] => []
  | inRun, c :: rest =>
    if c = '\r' || c = '\n' then
      if inRun then replaceLineBreaks true rest else ' ' :: replaceLineBreaks true rest
    else
      c :: replaceLineBreaks false rest

/-- What `trim` strips: white space and line terminators. -/
def isSpace (c : Char) : Bool :=
  (0x09 ≤ c.toNat && c.toNat ≤ 0x0D) || (0x2000 ≤ c.toNat && c.toNat ≤ 0x200A) ||
    c.toNat ∈ [0x20, 0xA0, 0x1680, 0x2028, 0x2029, 0x202F, 0x205F, 0x3000, 0xFEFF]

def trim (text : List Char) : List Char :=
  ((text.dropWhile isSpace).reverse.dropWhile isSpace).reverse

def sanitizeName (name : String) : String :=
  String.ofList (trim (replaceLineBreaks false name.toList))

def AppendBody.entryBody : AppendBody δ → EntryBody δ
  | .message sent => .message sent
  | .thinkingLevelChange level => .thinking_level_change level
  | .modelChange provider modelId => .model_change provider modelId
  | .compaction summary firstKeptEntryId tokensBefore details fromHook usage =>
    .compaction ⟨summary, some firstKeptEntryId, none, tokensBefore, details, usage, fromHook⟩
  | .customEntry customType data => .custom customType data
  | .sessionInfo name => .session_info (some (sanitizeName name))
  | .customMessageEntry customType content display details =>
    .custom_message customType (some content) display details

/-- The id and the timestamp an operation takes from its surroundings. -/
structure Stamp where
  randomUUID : Nat → String
  now : String

/-- A new child of `parentId`. -/
def newEntry (sm : SessionManager δ) (stamp : Stamp) (parentId : LeafId) (body : EntryBody δ) :
    SessionEntry δ where
  id := some (generateId stamp.randomUUID fun id => sm.byId.has (some id))
  parentId := parentId.join
  timestamp := stamp.now
  body := body

inductive Operation (δ : Type) where
  | append (body : AppendBody δ)
  | appendLabelChange (targetId : String) (label : Option String)
  | branch (branchFromId : String)
  | resetLeaf
  | branchWithSummary (branchFromId : Option String) (summary : String) (details : Option δ)
      (fromHook : Bool)
  deriving DecidableEq

/-- `Entry … not found` is thrown for an id that the index does not have. -/
def known (sm : SessionManager δ) (id : Option String) : Bool :=
  id.all fun id => sm.byId.has (some id)

def appendLabelChange (sm : SessionManager δ) (stamp : Stamp) (targetId : String)
    (label : Option String) (outcome : Outcome) : SessionManager δ × Bool :=
  if sm.known (some targetId) then
    let entry := sm.newEntry stamp sm.leafId (.label targetId label)
    match _appendEntry stringify sm entry outcome with
    | (sm, true) =>
      ({ sm with
          labelsById := setLabel sm.labelsById targetId label (label.getD "")
          labelTimestampsById :=
            setLabel sm.labelTimestampsById targetId label entry.timestamp }, true)
    | (sm, false) => (sm, false)
  else
    (sm, false)

def branch (sm : SessionManager δ) (branchFromId : String) : SessionManager δ × Bool :=
  if sm.known (some branchFromId) then
    ({ sm with leafId := some (some branchFromId) }, true)
  else
    (sm, false)

def branchWithSummary (sm : SessionManager δ) (stamp : Stamp) (branchFromId : Option String)
    (summary : String) (details : Option δ) (fromHook : Bool) (outcome : Outcome) :
    SessionManager δ × Bool :=
  if sm.known branchFromId then
    let sm := { sm with leafId := branchFromId.map some }
    let entry := sm.newEntry stamp (branchFromId.map some)
      (.branch_summary (branchFromId.getD "root") summary details fromHook)
    _appendEntry stringify sm entry outcome
  else
    (sm, false)

/-- One call on the manager; the result says whether it returned. -/
def call (sm : SessionManager δ) (stamp : Stamp) (outcome : Outcome) :
    Operation δ → SessionManager δ × Bool
  | .append body => _appendEntry stringify sm (sm.newEntry stamp sm.leafId body.entryBody) outcome
  | .appendLabelChange targetId label =>
    appendLabelChange stringify sm stamp targetId label outcome
  | .branch branchFromId => sm.branch branchFromId
  | .resetLeaf => ({ sm with leafId := none }, true)
  | .branchWithSummary branchFromId summary details fromHook =>
    branchWithSummary stringify sm stamp branchFromId summary details fromHook outcome

end Write

end SessionManager

end Mcpi.CodingAgent
