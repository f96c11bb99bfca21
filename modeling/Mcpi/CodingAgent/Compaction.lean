import Mathlib.Algebra.Ring.Nat
import Mathlib.Data.List.Sort
import Mcpi.CodingAgent.Entries
import Mcpi.Lib.Except
import Mcpi.Lib.Utf16

/-!
# Compaction

`prepareCompaction` chooses where the kept part of a path begins and what is summarized, and
`compact` asks the model for the summaries. What the code reads of the arguments of a tool call,
and the answers of the model, are parameters.
-/

namespace Mcpi.CodingAgent

variable {δ : Type}

structure CompactionSettings where
  enabled : Bool
  reserveTokens : Nat
  keepRecentTokens : Int
  deriving DecidableEq

def DEFAULT_COMPACTION_SETTINGS : CompactionSettings where
  enabled := true
  reserveTokens := 16384
  keepRecentTokens := 20000

/-- How the arguments of a tool call read: as text, and their `path` where it is a string. -/
structure ArgumentReader (δ : Type) where
  stringify : δ → String
  path : δ → Option String

/-! ## File operations -/

structure FileOperations where
  read : List String
  written : List String
  edited : List String
  deriving DecidableEq

def createFileOps : FileOperations := ⟨[], [], []⟩

/-- `set.add(value)` -/
def addTo (set : List String) (value : String) : List String :=
  if value ∈ set then set else set ++ [value]

def extractFileOpsFromBlock (args : ArgumentReader δ) (fileOps : FileOperations) :
    ContentBlock δ → FileOperations
  | .toolCall _ name arguments =>
    match truthy (args.path arguments) with
    | none => fileOps
    | some path =>
      if name = "read" then { fileOps with read := addTo fileOps.read path }
      else if name = "write" then { fileOps with written := addTo fileOps.written path }
      else if name = "edit" then { fileOps with edited := addTo fileOps.edited path }
      else fileOps
  | _ => fileOps

def extractFileOpsFromMessage (args : ArgumentReader δ) (fileOps : FileOperations) :
    AgentMessage δ → FileOperations
  | .assistant (some content) .. => content.foldl (extractFileOpsFromBlock args) fileOps
  | _ => fileOps

/-- File operations of the previous compaction, if it is not an extension's, and of messages. -/
def extractFileOperations (args : ArgumentReader δ) (messages : List (AgentMessage δ))
    (prevCompaction : Option CompactionFields) : FileOperations :=
  let fileOps :=
    match prevCompaction with
    | some ⟨_, _, _, _, some details, _, false⟩ =>
      { createFileOps with
        read := details.readFiles.foldl addTo []
        edited := details.modifiedFiles.foldl addTo [] }
    | _ => createFileOps
  messages.foldl (extractFileOpsFromMessage args) fileOps

/-- The order of `sort()` on strings, by UTF-16 units. -/
def sortFiles (files : List String) : List String :=
  files.insertionSort fun a b => Utf16.encode a.toList ≤ Utf16.encode b.toList

def computeFileLists (fileOps : FileOperations) : CompactionDetails :=
  let modified := fileOps.written.foldl addTo fileOps.edited
  { readFiles := sortFiles (fileOps.read.filter (· ∉ modified))
    modifiedFiles := sortFiles modified }

def formatFileOperations (files : CompactionDetails) : String :=
  let block (tag : String) (names : List String) : List String :=
    if names = [] then [] else ["<" ++ tag ++ ">\n" ++ "\n".intercalate names ++ "\n</" ++ tag ++ ">"]
  let sections := block "read-files" files.readFiles ++ block "modified-files" files.modifiedFiles
  if sections = [] then "" else "\n\n" ++ "\n\n".intercalate sections

/-! ## Token estimates -/

def ESTIMATED_IMAGE_CHARS : Nat := 4800

/-- `text.length`: UTF-16 units. -/
def textLength (text : String) : Nat := (Utf16.encode text.toList).length

def estimateTextAndImageContentChars : MessageContent δ → Nat
  | .text text => textLength text
  | .blocks blocks =>
    (blocks.map fun
      | .text text => textLength text
      | .image .. => ESTIMATED_IMAGE_CHARS
      | _ => 0).sum

/-- `Math.ceil(chars / 4)` -/
def tokensOfChars (chars : Nat) : Nat := (chars + 3) / 4

/-- A message whose content is missing counts nothing: the callers have given it an empty one. -/
def estimateTokens (args : ArgumentReader δ) : AgentMessage δ → Nat
  | .user content _ => tokensOfChars ((content.map estimateTextAndImageContentChars).getD 0)
  | .assistant content .. =>
    tokensOfChars (((content.getD []).map fun
      | .text text => textLength text
      | .thinking thinking => textLength thinking
      | .toolCall _ name arguments => textLength name + textLength (args.stringify arguments)
      | .image .. => 0).sum)
  | .toolResult _ _ content .. => tokensOfChars ((content.map estimateTextAndImageContentChars).getD 0)
  | .custom _ content .. => tokensOfChars (estimateTextAndImageContentChars content)
  | .bashExecution command output .. => tokensOfChars (textLength command + textLength output)
  | .branchSummary summary .. => tokensOfChars (textLength summary)
  | .compactionSummary summary .. => tokensOfChars (textLength summary)
  | .hookMessage .. => 0

def calculateContextTokens (usage : Usage) : Nat :=
  if usage.totalTokens ≠ 0 then usage.totalTokens
  else usage.input + usage.output + usage.cacheRead + usage.cacheWrite

/-- Aborted and failed answers, and usage without tokens, do not count. -/
def getAssistantUsage : AgentMessage δ → Option Usage
  | .assistant _ _ _ usage stopReason _ =>
    if stopReason ≠ .aborted ∧ stopReason ≠ .error then
      usage.filter fun usage => calculateContextTokens usage > 0
    else
      none
  | _ => none

structure ContextUsageEstimate where
  tokens : Nat
  usageTokens : Nat
  trailingTokens : Nat
  lastUsageIndex : Option Nat
  deriving DecidableEq

/-- The last usage of some messages and its index. -/
def getLastAssistantUsageInfo (messages : List (AgentMessage δ)) : Option (Usage × Nat) :=
  (messages.zipIdx.filterMap fun (message, i) => (getAssistantUsage message).map (·, i)).getLast?

def estimateContextTokens (args : ArgumentReader δ) (messages : List (AgentMessage δ)) :
    ContextUsageEstimate :=
  match getLastAssistantUsageInfo messages with
  | none =>
    let estimated := (messages.map (estimateTokens args)).sum
    ⟨estimated, 0, estimated, none⟩
  | some (usage, i) =>
    let usageTokens := calculateContextTokens usage
    let trailingTokens := ((messages.drop (i + 1)).map (estimateTokens args)).sum
    ⟨usageTokens + trailingTokens, usageTokens, trailingTokens, some i⟩

/-! ## The cut point -/

/-- Never cut at tool results: they must follow their tool call. -/
def isCutPointMessage : AgentMessage δ → Bool
  | .toolResult .. => false
  | .hookMessage .. => false
  | _ => true

def isTurnStartMessage : AgentMessage δ → Bool
  | .assistant .. => false
  | .toolResult .. => false
  | .hookMessage .. => false
  | _ => true

def isTurnStartEntry (entry : SessionEntry δ) : Bool :=
  !entry.isCompaction && (sessionEntryToContextMessages entry).any isTurnStartMessage

/-- The test of the loop of `findValidCutPoints`. -/
def isCutPointEntry (entry : SessionEntry δ) : Bool :=
  !entry.isCompaction && (sessionEntryToContextMessages entry).any isCutPointMessage

def findValidCutPoints (entries : List (SessionEntry δ)) (startIndex endIndex : Nat) : List Nat :=
  (List.range' startIndex (endIndex - startIndex)).filter fun i => entries[i]?.any isCutPointEntry

/-- `messageTokens` of the turn of the loop for one entry. -/
def entryTokens (args : ArgumentReader δ) (entry : SessionEntry δ) : Nat :=
  ((sessionEntryToContextMessages entry).map (estimateTokens args)).sum

/-- The loop from the newest entry back: where the estimates reach `keepRecentTokens`. -/
def budgetIndex (args : ArgumentReader δ) (entries : List (SessionEntry δ)) (startIndex : Nat)
    (keepRecentTokens : Int) : Nat → Nat → Option Nat
  | 0, _ => none
  | i + 1, accumulatedTokens =>
    if i < startIndex then
      none
    else
      let messageTokens := (entries[i]?.map (entryTokens args)).getD 0
      let accumulatedTokens := accumulatedTokens + messageTokens
      if messageTokens ≠ 0 ∧ keepRecentTokens ≤ accumulatedTokens then
        some i
      else
        budgetIndex args entries startIndex keepRecentTokens i accumulatedTokens

/-- An entry the cut moves back over: it does not affect the context. -/
def isMetadata (entry : SessionEntry δ) : Bool :=
  !entry.isCompaction && (sessionEntryToContextMessages entry).isEmpty

/-- The scan backwards over adjacent metadata entries. -/
def absorbMetadata (entries : List (SessionEntry δ)) (startIndex : Nat) : Nat → Nat
  | 0 => 0
  | cutIndex + 1 =>
    if startIndex < cutIndex + 1 ∧ entries[cutIndex]?.any isMetadata then
      absorbMetadata entries startIndex cutIndex
    else
      cutIndex + 1

/-- The turn start at or before an entry; `none` is `-1`. -/
def findTurnStartIndex (entries : List (SessionEntry δ)) (entryIndex startIndex : Nat) : Option Nat :=
  if entryIndex < startIndex then
    none
  else if entries[entryIndex]?.any isTurnStartEntry then
    some entryIndex
  else
    match entryIndex with
    | 0 => none
    | i + 1 => findTurnStartIndex entries i startIndex

/-- `turnStartIndex` is `none` where the code has `-1`. -/
structure CutPointResult where
  firstKeptEntryIndex : Nat
  turnStartIndex : Option Nat
  isSplitTurn : Bool
  deriving DecidableEq

def findCutPoint (args : ArgumentReader δ) (entries : List (SessionEntry δ))
    (startIndex endIndex : Nat) (keepRecentTokens : Int) : CutPointResult :=
  match findValidCutPoints entries startIndex endIndex with
  | [] => ⟨startIndex, none, false⟩
  | first :: others =>
    let cutIndex :=
      match budgetIndex args entries startIndex keepRecentTokens endIndex 0 with
      | none => first
      | some i => ((first :: others).find? (i ≤ ·)).getD first
    let cutIndex := absorbMetadata entries startIndex cutIndex
    let startsTurn := entries[cutIndex]?.any isTurnStartEntry
    let turnStartIndex := if startsTurn then none else findTurnStartIndex entries cutIndex startIndex
    ⟨cutIndex, turnStartIndex, !startsTurn && turnStartIndex.isSome⟩

/-! ## Preparation -/

def getMessageFromEntryForCompaction (entry : SessionEntry δ) : Option (AgentMessage δ) :=
  if entry.isCompaction then none else (sessionEntryToContextMessages entry).head?

/-- The loop over `pathEntries` from one index to before another. -/
def messagesBetween (pathEntries : List (SessionEntry δ)) (start stop : Nat) : List (AgentMessage δ) :=
  ((pathEntries.take stop).drop start).filterMap getMessageFromEntryForCompaction

structure CompactionPreparation (δ : Type) where
  firstKeptEntryId : String
  messagesToSummarize : List (AgentMessage δ)
  turnPrefixMessages : List (AgentMessage δ)
  isSplitTurn : Bool
  tokensBefore : Nat
  previousSummary : Option String
  fileOps : FileOperations
  settings : CompactionSettings
  deriving DecidableEq

/-- The index of the latest compaction. -/
def prevCompactionIndex (pathEntries : List (SessionEntry δ)) : Option Nat :=
  ((pathEntries.zipIdx.filter fun (entry, _) => entry.isCompaction).map Prod.snd).getLast?

/-- The fields of the latest compaction. -/
def prevCompaction (pathEntries : List (SessionEntry δ)) : Option CompactionFields :=
  (prevCompactionIndex pathEntries).bind fun i => pathEntries[i]?.bind SessionEntry.compaction?

/-- Where the messages that are not summarized yet begin. -/
def boundaryStart (pathEntries : List (SessionEntry δ)) : Nat :=
  match prevCompactionIndex pathEntries, prevCompaction pathEntries with
  | some i, some fields =>
    (pathEntries.findIdx? fun entry => entry.id = fields.firstKeptEntryId).getD (i + 1)
  | _, _ => 0

/-- `historyEnd`: the turn start of a split turn, and the cut otherwise. -/
def CutPointResult.historyEnd (cutPoint : CutPointResult) : Nat :=
  if cutPoint.isSplitTurn then cutPoint.turnStartIndex.getD 0 else cutPoint.firstKeptEntryIndex

def prepareCompaction (args : ArgumentReader δ) (pathEntries : List (SessionEntry δ))
    (settings : CompactionSettings) : Option (CompactionPreparation δ) := do
  guard !(pathEntries.getLast?.any SessionEntry.isCompaction)
  let context ← buildSessionContext pathEntries (some none) (buildEntryIndex pathEntries)
  let start := boundaryStart pathEntries
  let cutPoint := findCutPoint args pathEntries start pathEntries.length settings.keepRecentTokens
  let firstKeptEntry ← pathEntries[cutPoint.firstKeptEntryIndex]?
  let firstKeptEntryId ← truthy firstKeptEntry.id
  let messagesToSummarize := messagesBetween pathEntries start cutPoint.historyEnd
  let turnPrefixMessages :=
    if cutPoint.isSplitTurn then
      messagesBetween pathEntries (cutPoint.turnStartIndex.getD 0) cutPoint.firstKeptEntryIndex
    else
      []
  guard !(messagesToSummarize.isEmpty && turnPrefixMessages.isEmpty)
  let fileOps := extractFileOperations args messagesToSummarize (prevCompaction pathEntries)
  return {
    firstKeptEntryId, messagesToSummarize, turnPrefixMessages, settings
    isSplitTurn := cutPoint.isSplitTurn
    tokensBefore := (estimateContextTokens args context.messages).tokens
    previousSummary := (prevCompaction pathEntries).map CompactionFields.summary
    fileOps := turnPrefixMessages.foldl (extractFileOpsFromMessage args) fileOps }

/-! ## Summaries -/

/-- What one call asks the model to summarize. -/
inductive SummaryRequest (δ : Type) where
  | history (messages : List (AgentMessage δ)) (previousSummary : Option String)
  | turnPrefix (messages : List (AgentMessage δ))
  deriving DecidableEq

structure CompactionResult where
  summary : String
  firstKeptEntryId : String
  tokensBefore : Nat
  usage : Usage
  details : CompactionDetails
  deriving DecidableEq

def combineUsage (first second : Usage) : Usage where
  input := first.input + second.input
  output := first.output + second.output
  cacheRead := first.cacheRead + second.cacheRead
  cacheWrite := first.cacheWrite + second.cacheWrite
  totalTokens := first.totalTokens + second.totalTokens

section Compact

-- the model's answer to a request: a text and its usage, or the error that is thrown
variable (answer : SummaryRequest δ → Except String (String × Usage))

/-- A request, noted behind those made before it. -/
def ask (request : SummaryRequest δ) :
    StateT (List (SummaryRequest δ)) (Except String) (String × Usage) := do
  modify (· ++ [request])
  match answer request with
  | .ok result => return result
  | .error message => throw message

/-- The merged summary and its usage, before the file lists. -/
def summarize (preparation : CompactionPreparation δ) :
    StateT (List (SummaryRequest δ)) (Except String) (String × Usage) := do
  if preparation.isSplitTurn && !preparation.turnPrefixMessages.isEmpty then
    if preparation.messagesToSummarize.isEmpty then
      let (text, usage) ← ask answer (.turnPrefix preparation.turnPrefixMessages)
      return ("No prior history." ++ "\n\n---\n\n**Turn Context (split turn):**\n\n" ++ text, usage)
    else
      let (historyText, historyUsage) ←
        ask answer (.history preparation.messagesToSummarize preparation.previousSummary)
      let (text, usage) ← ask answer (.turnPrefix preparation.turnPrefixMessages)
      return (historyText ++ "\n\n---\n\n**Turn Context (split turn):**\n\n" ++ text,
        combineUsage historyUsage usage)
  else
    ask answer (.history preparation.messagesToSummarize preparation.previousSummary)

def compact (preparation : CompactionPreparation δ) :
    StateT (List (SummaryRequest δ)) (Except String) CompactionResult := do
  let (summary, usage) ← summarize answer preparation
  let details := computeFileLists preparation.fileOps
  if preparation.firstKeptEntryId = "" then
    throw "First kept entry has no UUID - session may need migration"
  else
    return ⟨summary ++ formatFileOperations details, preparation.firstKeptEntryId,
      preparation.tokensBefore, usage, details⟩

end Compact

end Mcpi.CodingAgent
