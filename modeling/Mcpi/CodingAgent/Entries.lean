import Mcpi.Lib.OrderedMap

/-!
# Session entries

The entries of a session file of the coding agent, the walk from a leaf to the root, and
what `buildSessionContext` sends to the model. The files are parsed without validation, so
an entry may lack its id (version 1 wrote none) and a message its content.
-/

namespace Mcpi.CodingAgent

-- what callers store without the session looking into it is of a type of its own
variable {δ : Type}

/-- A point in time: a number, or `new Date(text).getTime()` for the timestamp of an entry. -/
inductive Time where
  | ms (n : Nat)
  | parsed (text : String)
  deriving DecidableEq

inductive ContentBlock (δ : Type) where
  | text (text : String)
  | image (data mimeType : String)
  | thinking (thinking : String)
  | toolCall (id name : String) (arguments : δ)
  deriving DecidableEq

inductive MessageContent (δ : Type) where
  | text (text : String)
  | blocks (blocks : List (ContentBlock δ))
  deriving DecidableEq

inductive StopReason where
  | stop
  | length
  | toolUse
  | error
  | aborted
  deriving DecidableEq

structure Usage where
  input : Nat
  output : Nat
  cacheRead : Nat
  cacheWrite : Nat
  totalTokens : Nat
  deriving DecidableEq

/-- `content` is missing in messages of old or hand-edited files. -/
inductive AgentMessage (δ : Type) where
  | user (content : Option (MessageContent δ)) (timestamp : Time)
  | assistant (content : Option (List (ContentBlock δ))) (provider model : String)
      (usage : Option Usage) (stopReason : StopReason) (timestamp : Time)
  | toolResult (toolCallId toolName : String) (content : Option (MessageContent δ)) (isError : Bool)
      (timestamp : Time)
  | bashExecution (command output : String) (exitCode : Option Int) (cancelled truncated : Bool)
      (timestamp : Time)
  | custom (customType : String) (content : MessageContent δ) (display : Bool) (details : Option δ)
      (timestamp : Time)
  | hookMessage (customType : String) (content : MessageContent δ) (display : Bool)
      (details : Option δ) (timestamp : Time)
  | branchSummary (summary fromId : String) (timestamp : Time)
  | compactionSummary (summary : String) (tokensBefore : Nat) (timestamp : Time)
  deriving DecidableEq

/-- Stored in `CompactionEntry.details` for file tracking. -/
structure CompactionDetails where
  readFiles : List String
  modifiedFiles : List String
  deriving DecidableEq

/-- `firstKeptEntryIndex` is what version 1 wrote in place of `firstKeptEntryId`. -/
structure CompactionFields where
  summary : String
  firstKeptEntryId : Option String
  firstKeptEntryIndex : Option Int
  tokensBefore : Nat
  details : Option CompactionDetails
  usage : Option Usage
  fromHook : Bool
  deriving DecidableEq

inductive EntryBody (δ : Type) where
  | message (message : AgentMessage δ)
  | thinking_level_change (thinkingLevel : String)
  | model_change (provider modelId : String)
  | compaction (fields : CompactionFields)
  | branch_summary (fromId summary : String) (details : Option δ) (fromHook : Bool)
  | custom (customType : String) (data : Option δ)
  | custom_message (customType : String) (content : Option (MessageContent δ)) (display : Bool)
      (details : Option δ)
  | label (targetId : String) (label : Option String)
  | session_info (name : Option String)
  deriving DecidableEq

structure SessionEntry (δ : Type) where
  id : Option String
  parentId : Option String
  timestamp : String
  body : EntryBody δ
  deriving DecidableEq

def EntryBody.isLabel : EntryBody δ → Bool
  | .label .. => true
  | _ => false

def EntryBody.compaction? : EntryBody δ → Option CompactionFields
  | .compaction fields => some fields
  | _ => none

namespace SessionEntry

/-- `entry.type === "label"` -/
def isLabel (entry : SessionEntry δ) : Bool := entry.body.isLabel

def compaction? (entry : SessionEntry δ) : Option CompactionFields := entry.body.compaction?

/-- `entry.type === "compaction"` -/
def isCompaction (entry : SessionEntry δ) : Bool := entry.compaction?.isSome

/-- `entry.type === "message" && entry.message.role === "assistant"` -/
def isAssistant (entry : SessionEntry δ) : Bool :=
  match entry.body with
  | .message (.assistant ..) => true
  | _ => false

end SessionEntry

/-! ## The walk to the root -/

/-- The key a reference holds: JavaScript takes `null`, `undefined` and `""` for no reference. -/
def truthy (id : Option String) : Option String := id.filter (· ≠ "")

/-- Entries by id; an entry without id is indexed too, under `undefined`. -/
abbrev EntryIndex (δ : Type) := OrderedMap (Option String) (SessionEntry δ)

/-- Of several entries with one id the last is found. -/
def buildEntryIndex (entries : List (SessionEntry δ)) : EntryIndex δ :=
  OrderedMap.ofValues SessionEntry.id entries

/-- The entry a reference leads to. -/
def follow (index : EntryIndex δ) (reference : Option String) : Option (SessionEntry δ) :=
  (truthy reference).bind fun id => index.get? (some id)

/-- The loop from an entry to the root, newest first. The fuel bounds the number of turns: a
chain that does not end has no result. -/
def walk (index : EntryIndex δ) : Nat → Option (SessionEntry δ) → Option (List (SessionEntry δ))
  | _, none => some []
  | 0, some _ => none
  | fuel + 1, some current =>
    (walk index fuel (follow index current.parentId)).map (current :: ·)

/-- The fuel of a walk: no chain that ends is longer than the index. -/
def EntryIndex.fuel (index : EntryIndex δ) : Nat := index.toList.length + 1

/-- A `leafId`: `none` is `null`, before every entry, and `some none` is `undefined`. -/
abbrev LeafId := Option (Option String)

/-- Where the walk starts: a leaf that names no entry stands for the last one. -/
def leafEntry (entries : List (SessionEntry δ)) (leafId : Option String) (index : EntryIndex δ) :
    Option (SessionEntry δ) :=
  (follow index leafId).or entries.getLast?

def buildSessionPath (entries : List (SessionEntry δ)) (leafId : LeafId) (index : EntryIndex δ) :
    Option (List (SessionEntry δ)) :=
  match leafId with
  | none => some []
  | some leafId => (walk index index.fuel (leafEntry entries leafId index)).map List.reverse

/-! ## The context -/

structure Model where
  provider : String
  modelId : String
  deriving DecidableEq

structure ContextSettings where
  thinkingLevel : String
  model : Option Model
  deriving DecidableEq

/-- What one entry changes of the settings. -/
def ContextSettings.after (settings : ContextSettings) (entry : SessionEntry δ) : ContextSettings :=
  match entry.body with
  | .thinking_level_change level => { settings with thinkingLevel := level }
  | .model_change provider modelId => { settings with model := some ⟨provider, modelId⟩ }
  | .message (.assistant _ provider model ..) => { settings with model := some ⟨provider, model⟩ }
  | _ => settings

def getSessionContextSettings (path : List (SessionEntry δ)) : ContextSettings :=
  path.foldl ContextSettings.after ⟨"off", none⟩

/-- A message of the transcript with missing content gets an empty one. -/
def withContent : AgentMessage δ → AgentMessage δ
  | .user none timestamp => .user (some (.blocks [])) timestamp
  | .assistant none provider model usage stopReason timestamp =>
    .assistant (some []) provider model usage stopReason timestamp
  | .toolResult id name none isError timestamp =>
    .toolResult id name (some (.blocks [])) isError timestamp
  | message => message

/-- Project one selected session entry into messages. -/
def sessionEntryToContextMessages (entry : SessionEntry δ) : List (AgentMessage δ) :=
  match entry.body with
  | .message message => [withContent message]
  | .custom_message customType content display details =>
    [.custom customType (content.getD (.blocks [])) display details (.parsed entry.timestamp)]
  | .branch_summary fromId summary .. =>
    if summary = "" then [] else [.branchSummary summary fromId (.parsed entry.timestamp)]
  | .compaction fields =>
    [.compactionSummary fields.summary fields.tokensBefore (.parsed entry.timestamp)]
  | _ => []

/-- `for (const entry of path) if (entry.type === "compaction") compaction = entry` -/
def latestCompaction (path : List (SessionEntry δ)) : Option (SessionEntry δ) :=
  (path.filter SessionEntry.isCompaction).getLast?

/-- The entries before the compaction that are kept: the first with the id, and all after it. -/
def keptFrom (firstKeptEntryId : Option String) (before : List (SessionEntry δ)) : List (SessionEntry δ) :=
  before.dropWhile fun entry => entry.id ≠ firstKeptEntryId

/-- The active entries of a path: the latest compaction, what it keeps, and all after it. -/
def contextEntries (path : List (SessionEntry δ)) : List (SessionEntry δ) :=
  match latestCompaction path with
  | none => path
  | some compaction =>
    let compactionIdx := path.findIdx fun entry => entry.id = compaction.id
    let firstKeptEntryId := compaction.compaction?.bind CompactionFields.firstKeptEntryId
    compaction :: keptFrom firstKeptEntryId (path.take compactionIdx) ++ path.drop (compactionIdx + 1)

structure SessionContext (δ : Type) where
  messages : List (AgentMessage δ)
  settings : ContextSettings
  deriving DecidableEq

/-- The context of a path, messages and settings. -/
def pathContext (path : List (SessionEntry δ)) : SessionContext δ where
  messages := (contextEntries path).flatMap sessionEntryToContextMessages
  settings := getSessionContextSettings path

def buildContextEntries (entries : List (SessionEntry δ)) (leafId : LeafId) (index : EntryIndex δ) :
    Option (List (SessionEntry δ)) :=
  (buildSessionPath entries leafId index).map contextEntries

def buildSessionContext (entries : List (SessionEntry δ)) (leafId : LeafId) (index : EntryIndex δ) :
    Option (SessionContext δ) :=
  (buildSessionPath entries leafId index).map pathContext

end Mcpi.CodingAgent
