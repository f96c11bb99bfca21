import Mcpi.CodingAgent.Compaction
import Mcpi.Lib.CutPoints

/-!
# Compaction in the agent harness

`harness/compaction/compaction.ts` and the context of `harness/session/context.ts`. A compaction
entry of the harness carries the messages it retains, so that nothing before it is looked at again.
File operations, token counts of texts and the walks over entries are those of the coding agent's
compaction.
-/

namespace Mcpi.Harness

open CodingAgent (ArgumentReader CompactionDetails CompactionSettings ContentBlock FileOperations
  MessageContent Usage addTo calculateContextTokens combineUsage computeFileLists createFileOps
  estimateTextAndImageContentChars extractFileOpsFromBlock formatFileOperations textLength
  tokensOfChars)

-- what callers store without the harness looking into it is of a type of its own
variable {δ : Type}

/-- `StopReason` -/
inductive StopReason where
  | pending
  | stop
  | length
  | toolUse
  | error
  | aborted
  | deferred
  deriving DecidableEq

section Types

variable (δ : Type)

/-- `AgentMessage`: applications add roles of their own. -/
inductive AgentMessage where
  | user (content : MessageContent δ) (timestamp : Nat)
  | assistant (content : List (ContentBlock δ)) (provider model : String) (usage : Usage)
      (stopReason : StopReason) (timestamp : Nat)
  | toolResult (toolCallId toolName : String) (content : MessageContent δ) (isError : Bool)
      (timestamp : Nat)
  | bashExecution (command output : String) (timestamp : Nat)
  | custom (customType : String) (content : MessageContent δ) (display : Bool) (timestamp : Nat)
  | branchSummary (summary fromId : String) (timestamp : Nat)
  | compactionSummary (summary : String) (tokensBefore : Nat) (timestamp : Nat)
  | other (role : String) (data : δ) (timestamp : Nat)
  deriving DecidableEq

/-- `CompactionEntry["details"]`, of which only arrays are read -/
structure StoredDetails where
  readFiles : Option (List String)
  modifiedFiles : Option (List String)
  deriving DecidableEq

/-- `CompactionEntry` -/
structure CompactionFields where
  summary : String
  retainedTail : List (AgentMessage δ)
  tokensBefore : Nat
  details : Option StoredDetails
  deriving DecidableEq

inductive EntryBody where
  | message (message : AgentMessage δ)
  | model_change (provider modelId : String)
  | thinking_level_change (thinkingLevel : String)
  | active_tools_change (activeToolNames : List String)
  | compaction (fields : CompactionFields δ)
  | branch_summary (fromId summary : String)
  | custom (customType : String) (data : Option δ)
  deriving DecidableEq

/-- `Entry` -/
structure Entry where
  id : String
  seq : Nat
  parentId : Option String
  timestamp : Nat
  body : EntryBody δ
  deriving DecidableEq

end Types

def AgentMessage.timestamp : AgentMessage δ → Nat
  | .user _ timestamp | .assistant _ _ _ _ _ timestamp | .toolResult _ _ _ _ timestamp
  | .bashExecution _ _ timestamp | .custom _ _ _ timestamp | .branchSummary _ _ timestamp
  | .compactionSummary _ _ timestamp | .other _ _ timestamp => timestamp

def Entry.compaction? (entry : Entry δ) : Option (CompactionFields δ) :=
  match entry.body with
  | .compaction fields => some fields
  | _ => none

def Entry.message? (entry : Entry δ) : Option (AgentMessage δ) :=
  match entry.body with
  | .message message => some message
  | _ => none

/-! ## The context -/

/-- `sessionEntryToContextMessages`, without projectors for custom entries -/
def sessionEntryToContextMessages (entry : Entry δ) : List (AgentMessage δ) :=
  match entry.body with
  | .message (.assistant _ _ _ _ .deferred _) => []
  | .message message => [message]
  | .compaction fields =>
    .compactionSummary fields.summary fields.tokensBefore entry.timestamp :: fields.retainedTail
  | .branch_summary fromId summary =>
    if summary = "" then [] else [.branchSummary summary fromId entry.timestamp]
  | _ => []

/-- The latest compaction of a path and the entries behind it, and without one all of them -/
def splitAtCompaction : List (Entry δ) → Option (Entry δ × CompactionFields δ) × List (Entry δ)
  | [] => (none, [])
  | entry :: entries =>
    match splitAtCompaction entries with
    | (some compaction, behind) => (some compaction, behind)
    | (none, behind) =>
      match entry.compaction? with
      | some fields => (some (entry, fields), behind)
      | none => (none, entry :: behind)

/-- `defaultContextEntryTransform` -/
def defaultContextEntryTransform (pathEntries : List (Entry δ)) : List (Entry δ) :=
  match splitAtCompaction pathEntries with
  | (some (compaction, _), behind) => compaction :: behind
  | (none, behind) => behind

/-- `buildSessionContext(pathEntries).messages` -/
def contextMessages (pathEntries : List (Entry δ)) : List (AgentMessage δ) :=
  (defaultContextEntryTransform pathEntries).flatMap sessionEntryToContextMessages

/-! ## File operations and tokens -/

def extractFileOpsFromMessage (args : ArgumentReader δ) (fileOps : FileOperations) :
    AgentMessage δ → FileOperations
  | .assistant content .. => content.foldl (extractFileOpsFromBlock args) fileOps
  | _ => fileOps

/-- The file operations a previous compaction has recorded. -/
def recordedFileOps (prevCompaction : Option (CompactionFields δ)) : FileOperations :=
  match prevCompaction.bind CompactionFields.details with
  | none => createFileOps
  | some details =>
    { createFileOps with
      read := (details.readFiles.getD []).foldl addTo []
      edited := (details.modifiedFiles.getD []).foldl addTo [] }

def extractFileOperations (args : ArgumentReader δ) (messages : List (AgentMessage δ))
    (prevCompaction : Option (CompactionFields δ)) : FileOperations :=
  messages.foldl (extractFileOpsFromMessage args) (recordedFileOps prevCompaction)

def estimateTokens (args : ArgumentReader δ) : AgentMessage δ → Nat
  | .user content _ => tokensOfChars (estimateTextAndImageContentChars content)
  | .assistant content .. =>
    tokensOfChars ((content.map fun
      | .text text => textLength text
      | .thinking thinking => textLength thinking
      | .toolCall _ name arguments => textLength name + textLength (args.stringify arguments)
      | .image .. => 0).sum)
  | .custom _ content .. => tokensOfChars (estimateTextAndImageContentChars content)
  | .toolResult _ _ content .. => tokensOfChars (estimateTextAndImageContentChars content)
  | .bashExecution command output .. => tokensOfChars (textLength command + textLength output)
  | .branchSummary summary .. => tokensOfChars (textLength summary)
  | .compactionSummary summary .. => tokensOfChars (textLength summary)
  | .other .. => 0

/-- Aborted and failed answers, and usage without tokens, do not count. -/
def getAssistantUsage : AgentMessage δ → Option Usage
  | .assistant _ _ _ usage stopReason _ =>
    if stopReason ≠ .aborted ∧ stopReason ≠ .error ∧ calculateContextTokens usage > 0 then some usage
    else none
  | _ => none

/-- `estimateContextTokens(messages).tokens` -/
def estimateContextTokens (args : ArgumentReader δ) (messages : List (AgentMessage δ)) : Nat :=
  match (messages.zipIdx.filterMap fun (message, i) => (getAssistantUsage message).map (·, i)).getLast? with
  | none => (messages.map (estimateTokens args)).sum
  | some (usage, i) =>
    calculateContextTokens usage + ((messages.drop (i + 1)).map (estimateTokens args)).sum

/-! ## The cut point -/

/-- The entry at an index has a property. -/
def At (entries : List (Entry δ)) (p : Entry δ → Bool) (i : Nat) : Bool := entries[i]?.any p

/-- The test of the loop of `findValidCutPoints` -/
def isCutPointEntry (entry : Entry δ) : Bool :=
  match entry.body with
  | .message (.toolResult ..) | .message (.other ..) => false
  | .message _ | .branch_summary .. => true
  | _ => false

def findValidCutPoints (entries : List (Entry δ)) (startIndex endIndex : Nat) : List Nat :=
  (List.range' startIndex (endIndex - startIndex)).filter (At entries isCutPointEntry)

/-- The test of the loop of `findTurnStartIndex` -/
def isTurnStartEntry (entry : Entry δ) : Bool :=
  match entry.body with
  | .message (.user ..) | .message (.bashExecution ..) | .branch_summary .. => true
  | _ => false

/-- The turn start at or before an entry; `none` is `-1`. -/
def findTurnStartIndex (entries : List (Entry δ)) (entryIndex startIndex : Nat) : Option Nat :=
  CutPoints.newest? (At entries isTurnStartEntry) startIndex entryIndex

/-- `messageTokens`; only messages count. -/
def messageTokens (args : ArgumentReader δ) (entries : List (Entry δ)) (i : Nat) : Nat :=
  ((entries[i]?.bind Entry.message?).map (estimateTokens args)).getD 0

/-- What the loops of `findCutPoint` go over -/
def cutRange (args : ArgumentReader δ) (entries : List (Entry δ)) (startIndex endIndex : Nat)
    (keepRecentTokens : Int) : CutPoints.Range where
  start := startIndex
  stop := endIndex
  tokens := messageTokens args entries
  counts := At entries fun entry => entry.message?.isSome
  legal := At entries isCutPointEntry
  keep := keepRecentTokens

/-- An entry the cut moves back over: neither a compaction nor a message -/
def isMetadata (entry : Entry δ) : Bool := entry.compaction?.isNone && entry.message?.isNone

/-- `cutEntry.type === "message" && cutEntry.message.role === "user"` -/
def isUserMessage (entry : Entry δ) : Bool :=
  match entry.body with
  | .message (.user ..) => true
  | _ => false

/-- `turnStartIndex` is `none` where the code has `-1`. -/
structure CutPointResult where
  firstKeptEntryIndex : Nat
  turnStartIndex : Option Nat
  isSplitTurn : Bool
  deriving DecidableEq

def findCutPoint (args : ArgumentReader δ) (entries : List (Entry δ)) (startIndex endIndex : Nat)
    (keepRecentTokens : Int) : CutPointResult :=
  match findValidCutPoints entries startIndex endIndex with
  | [] => ⟨startIndex, none, false⟩
  | first :: others =>
    let cutIndex := CutPoints.nearest first others
      (CutPoints.walkBack (cutRange args entries startIndex endIndex keepRecentTokens) endIndex 0)
    let cutIndex := CutPoints.back (At entries isMetadata) startIndex cutIndex
    let isUserMessage := At entries isUserMessage cutIndex
    let turnStartIndex :=
      if isUserMessage then none else findTurnStartIndex entries cutIndex startIndex
    ⟨cutIndex, turnStartIndex, !isUserMessage && turnStartIndex.isSome⟩

/-! ## Preparation -/

def getMessageFromEntryForCompaction (entry : Entry δ) : Option (AgentMessage δ) :=
  match entry.body with
  | .message message => some message
  | .branch_summary fromId summary => some (.branchSummary summary fromId entry.timestamp)
  | _ => none

/-- `virtualRetainedEntries` -/
def virtualRetainedEntries (prevCompaction : Entry δ) (retainedTail : List (AgentMessage δ)) : List (Entry δ) :=
  retainedTail.mapIdx fun index message =>
    { id := s!"{prevCompaction.id}:retained:{index}"
      seq := prevCompaction.seq
      parentId := some (if index = 0 then prevCompaction.id
        else s!"{prevCompaction.id}:retained:{index - 1}")
      timestamp := message.timestamp
      body := .message message }

/-- `compactableEntries` -/
def compactableEntries (pathEntries : List (Entry δ)) : List (Entry δ) :=
  match splitAtCompaction pathEntries with
  | (some (compaction, fields), behind) =>
    virtualRetainedEntries compaction fields.retainedTail ++ behind
  | (none, behind) => behind

/-- The fields of the latest compaction -/
def prevCompaction (pathEntries : List (Entry δ)) : Option (CompactionFields δ) :=
  (splitAtCompaction pathEntries).1.map Prod.snd

/-- The loop over entries from one index to before another. -/
def messagesBetween (entries : List (Entry δ)) (start stop : Nat) : List (AgentMessage δ) :=
  ((entries.take stop).drop start).filterMap getMessageFromEntryForCompaction

/-- `CompactionPreparation` -/
structure CompactionPreparation (δ : Type) where
  messagesToSummarize : List (AgentMessage δ)
  turnPrefixMessages : List (AgentMessage δ)
  retainedTail : List (AgentMessage δ)
  isSplitTurn : Bool
  tokensBefore : Nat
  previousSummary : Option String
  fileOps : FileOperations
  settings : CompactionSettings
  deriving DecidableEq

/-- `historyEnd` -/
def CutPointResult.historyEnd (cutPoint : CutPointResult) : Nat :=
  if cutPoint.isSplitTurn then cutPoint.turnStartIndex.getD 0 else cutPoint.firstKeptEntryIndex

/-- The cut that `prepareCompaction` makes -/
def cutPointOf (args : ArgumentReader δ) (pathEntries : List (Entry δ))
    (settings : CompactionSettings) : CutPointResult :=
  findCutPoint args (compactableEntries pathEntries) 0 (compactableEntries pathEntries).length
    settings.keepRecentTokens

def prepareCompaction (args : ArgumentReader δ) (pathEntries : List (Entry δ))
    (settings : CompactionSettings) : Option (CompactionPreparation δ) :=
  if pathEntries.getLast?.all fun entry => entry.compaction?.isSome then
    none
  else
    let entries := compactableEntries pathEntries
    let cutPoint := cutPointOf args pathEntries settings
    let messagesToSummarize := messagesBetween entries 0 cutPoint.historyEnd
    let turnPrefixMessages :=
      if cutPoint.isSplitTurn then
        messagesBetween entries (cutPoint.turnStartIndex.getD 0) cutPoint.firstKeptEntryIndex
      else
        []
    let fileOps := extractFileOperations args messagesToSummarize (prevCompaction pathEntries)
    some {
      messagesToSummarize, turnPrefixMessages, settings
      retainedTail := messagesBetween entries cutPoint.firstKeptEntryIndex entries.length
      isSplitTurn := cutPoint.isSplitTurn
      tokensBefore := estimateContextTokens args (contextMessages pathEntries)
      previousSummary := (prevCompaction pathEntries).map CompactionFields.summary
      fileOps := turnPrefixMessages.foldl (extractFileOpsFromMessage args) fileOps }

/-! ## Summaries -/

/-- A call of `generateSummaryWithUsage` or `generateTurnPrefixSummary` -/
inductive SummaryRequest (δ : Type) where
  | history (messages : List (AgentMessage δ)) (customInstructions previousSummary : Option String)
  | turnPrefix (messages : List (AgentMessage δ))
  deriving DecidableEq

/-- `CompactionError["code"]`, of the errors of summaries -/
inductive CompactionErrorCode where
  | aborted
  | summarization_failed
  deriving DecidableEq

structure CompactionError where
  code : CompactionErrorCode
  message : String
  deriving DecidableEq

/-- `CompactResult` -/
structure CompactResult (δ : Type) where
  summary : String
  tokensBefore : Nat
  usage : Usage
  retainedTail : List (AgentMessage δ)
  details : CompactionDetails
  deriving DecidableEq

section Compact

-- what a call gives: a text and its usage, or an error
variable (answer : SummaryRequest δ → Except CompactionError (String × Usage))

/-- A call, noted behind those made before it -/
def ask (request : SummaryRequest δ) :
    StateT (List (SummaryRequest δ)) (Except CompactionError) (String × Usage) := do
  modify (· ++ [request])
  match answer request with
  | .ok result => return result
  | .error error => throw error

/-- The summary and its usage, before the file lists. -/
def summarize (preparation : CompactionPreparation δ) (customInstructions : Option String) :
    StateT (List (SummaryRequest δ)) (Except CompactionError) (String × Usage) := do
  if preparation.isSplitTurn && !preparation.turnPrefixMessages.isEmpty then
    if preparation.messagesToSummarize.isEmpty then
      let (text, usage) ← ask answer (.turnPrefix preparation.turnPrefixMessages)
      return ("No prior history." ++ "\n\n---\n\n**Turn Context (split turn):**\n\n" ++ text, usage)
    else
      let (historyText, historyUsage) ← ask answer
        (.history preparation.messagesToSummarize customInstructions preparation.previousSummary)
      let (text, usage) ← ask answer (.turnPrefix preparation.turnPrefixMessages)
      return (historyText ++ "\n\n---\n\n**Turn Context (split turn):**\n\n" ++ text,
        combineUsage historyUsage usage)
  else
    ask answer (.history preparation.messagesToSummarize customInstructions preparation.previousSummary)

def compact (preparation : CompactionPreparation δ) (customInstructions : Option String) :
    StateT (List (SummaryRequest δ)) (Except CompactionError) (CompactResult δ) := do
  let (summary, usage) ← summarize answer preparation customInstructions
  let details := computeFileLists preparation.fileOps
  return ⟨summary ++ formatFileOperations details, preparation.tokensBefore, usage, preparation.retainedTail, details⟩

end Compact

end Mcpi.Harness
