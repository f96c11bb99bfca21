/-!
# Replaying a transcript to a model

`transformMessages`: a first pass adapts every message to the target model and keeps a map of the
tool call ids it has rewritten; a second pass drops the assistant messages that failed and makes
up results for tool calls without one.
-/

namespace Mcpi.Ai

-- what is handed on without being looked into
variable {δ : Type}

/-! ## Messages -/

inductive TextOrImage where
  | text (text : String) (textSignature : Option String)
  | image (data mimeType : String)
  deriving DecidableEq

inductive UserContent where
  | plain (text : String)
  | parts (parts : List TextOrImage)
  deriving DecidableEq

structure ToolCall (δ : Type) where
  id : String
  name : String
  arguments : δ
  thoughtSignature : Option String
  callNamespace : Option String
  deriving DecidableEq

inductive AssistantBlock (δ : Type) where
  | text (text : String) (textSignature : Option String)
  | thinking (thinking : String) (thinkingSignature : Option String) (redacted : Bool)
  | toolCall (call : ToolCall δ)
  deriving DecidableEq

inductive StopReason where
  | pending
  | stop
  | length
  | toolUse
  | error
  | aborted
  | deferred
  deriving DecidableEq

/-- `content` is missing in messages of untyped callers. -/
structure AssistantMessage (δ : Type) where
  content : Option (List (AssistantBlock δ))
  api : String
  provider : String
  model : String
  stopReason : StopReason
  providerReplay : Option δ
  timestamp : Nat
  deriving DecidableEq

structure ToolResultMessage (δ : Type) where
  toolCallId : String
  toolName : String
  content : Option (List TextOrImage)
  details : Option δ
  isError : Bool
  timestamp : Nat
  deriving DecidableEq

inductive Message (δ : Type) where
  | user (content : Option UserContent) (timestamp : Nat)
  | assistant (message : AssistantMessage δ)
  | toolResult (message : ToolResultMessage δ)
  deriving DecidableEq

/-- The model that the transcript is replayed to. -/
structure Model where
  id : String
  api : String
  provider : String
  acceptsImages : Bool
  deriving DecidableEq

/-- `normalizeToolCallId(id, model, source)`, where the caller gives one. -/
abbrev Normalizer (δ : Type) := Option (String → Model → AssistantMessage δ → String)

def AssistantBlock.toolCall? : AssistantBlock δ → Option (ToolCall δ)
  | .toolCall call => some call
  | _ => none

/-- The tool calls of an assistant message, in order. -/
def AssistantMessage.toolCalls (message : AssistantMessage δ) : List (ToolCall δ) :=
  (message.content.getD []).filterMap AssistantBlock.toolCall?

/-- Errored and aborted messages are not replayed. -/
def AssistantMessage.failed (message : AssistantMessage δ) : Bool :=
  message.stopReason = .error || message.stopReason = .aborted

/-! ## Content -/

/-- `msg.content == null ? { ...msg, content: [] } : msg` -/
def normalizeContent : Message δ → Message δ
  | .user content timestamp => .user (some (content.getD (.parts []))) timestamp
  | .assistant message => .assistant { message with content := some (message.content.getD []) }
  | .toolResult message => .toolResult { message with content := some (message.content.getD []) }

/-- A run of images becomes one placeholder. -/
def replaceImagesWithPlaceholder (placeholder : String) : Bool → List TextOrImage → List TextOrImage
  | _, [] => []
  | previousWasPlaceholder, .image _ _ :: rest =>
    if previousWasPlaceholder then replaceImagesWithPlaceholder placeholder true rest
    else .text placeholder none :: replaceImagesWithPlaceholder placeholder true rest
  | _, .text text textSignature :: rest =>
    .text text textSignature :: replaceImagesWithPlaceholder placeholder (text = placeholder) rest

def downgradeImages : Message δ → Message δ
  | .user (some (.parts parts)) timestamp =>
    .user (some (.parts (replaceImagesWithPlaceholder
      "(image omitted: model does not support images)" false parts))) timestamp
  | .toolResult message =>
    .toolResult { message with
      content := message.content.map (replaceImagesWithPlaceholder
        "(tool image omitted: model does not support images)" false) }
  | message => message

def downgradeUnsupportedImages (messages : List (Message δ)) (model : Model) : List (Message δ) :=
  if model.acceptsImages then messages else messages.map downgradeImages

/-! ## First pass -/

/-- What `String.prototype.trim` removes. -/
def isSpace (c : Char) : Bool :=
  ('\t' ≤ c && c ≤ '\r') || c = ' ' || c = '\u00a0' || c = '\u1680' ||
    ('\u2000' ≤ c && c ≤ '\u200a') || c = '\u2028' || c = '\u2029' || c = '\u202f' ||
    c = '\u205f' || c = '\u3000' || c = '\ufeff'

/-- A string that JavaScript takes for true. -/
def truthy (s : Option String) : Bool := s.any fun s => s ≠ ""

def isSameModel (model : Model) (message : AssistantMessage δ) : Bool :=
  message.provider = model.provider && message.api = model.api && message.model = model.id

/-- `toolCallIdMap` -/
abbrev ToolCallIdMap := String → Option String

def ToolCallIdMap.set (map : ToolCallIdMap) (id normalizedId : String) : ToolCallIdMap :=
  fun other => if other = id then some normalizedId else map other

section FirstPass

variable (model : Model) (normalizeToolCallId : Normalizer δ)

def transformThinking (sameModel : Bool) (thinking : String) (thinkingSignature : Option String)
    (redacted : Bool) : List (AssistantBlock δ) :=
  if redacted then
    if sameModel then [.thinking thinking thinkingSignature redacted] else []
  else if sameModel && truthy thinkingSignature then [.thinking thinking thinkingSignature redacted]
  else if thinking.toList.all isSpace then []
  else if sameModel then [.thinking thinking thinkingSignature redacted]
  else [.text thinking none]

/-- A tool call, and the map with its id if that has been rewritten. -/
def transformToolCall (message : AssistantMessage δ) (map : ToolCallIdMap) (toolCall : ToolCall δ) :
    ToolCall δ × ToolCallIdMap :=
  if isSameModel model message then (toolCall, map)
  else
    let unsigned :=
      if truthy toolCall.thoughtSignature then { toolCall with thoughtSignature := none } else toolCall
    match normalizeToolCallId with
    | none => (unsigned, map)
    | some normalize =>
      let normalizedId := normalize toolCall.id model message
      if normalizedId ≠ toolCall.id then
        ({ unsigned with id := normalizedId }, map.set toolCall.id normalizedId)
      else (unsigned, map)

def transformBlock (message : AssistantMessage δ) (map : ToolCallIdMap) :
    AssistantBlock δ → List (AssistantBlock δ) × ToolCallIdMap
  | .thinking thinking thinkingSignature redacted =>
    (transformThinking (isSameModel model message) thinking thinkingSignature redacted, map)
  | .text text textSignature =>
    ([.text text (if isSameModel model message then textSignature else none)], map)
  | .toolCall toolCall =>
    let (toolCall, map) := transformToolCall model normalizeToolCallId message map toolCall
    ([.toolCall toolCall], map)

/-- `assistantMsg.content.flatMap(..)` -/
def transformBlocks (message : AssistantMessage δ) :
    ToolCallIdMap → List (AssistantBlock δ) → List (AssistantBlock δ) × ToolCallIdMap
  | map, [] => ([], map)
  | map, block :: rest =>
    let (blocks, map) := transformBlock model normalizeToolCallId message map block
    let (others, map) := transformBlocks message map rest
    (blocks ++ others, map)

def transformAssistant (map : ToolCallIdMap) (message : AssistantMessage δ) : AssistantMessage δ × ToolCallIdMap :=
  let (content, map) :=
    transformBlocks model normalizeToolCallId message map (message.content.getD [])
  ({ message with
      content := some content
      providerReplay := if isSameModel model message then message.providerReplay else none }, map)

/-- The id that a result carries: an entry that is empty counts as none. -/
def resultId (map : ToolCallIdMap) (toolCallId : String) : String :=
  ((map toolCallId).filter fun normalizedId => normalizedId ≠ "").getD toolCallId

def transformResult (map : ToolCallIdMap) (message : ToolResultMessage δ) : ToolResultMessage δ :=
  { message with toolCallId := resultId map message.toolCallId }

/-- The first pass, message by message. -/
def firstPass : ToolCallIdMap → List (Message δ) → List (Message δ)
  | _, [] => []
  | map, .user content timestamp :: rest => .user content timestamp :: firstPass map rest
  | map, .toolResult message :: rest => .toolResult (transformResult map message) :: firstPass map rest
  | map, .assistant message :: rest =>
    let (message, map) := transformAssistant model normalizeToolCallId map message
    .assistant message :: firstPass map rest

end FirstPass

/-! ## Second pass -/

/-- The variables of the second pass. -/
structure SecondPass (δ : Type) where
  result : List (Message δ)
  pendingToolCalls : List (ToolCall δ)
  existingToolResultIds : List String

/-- The result that is made up for a call. The clock is read once for each. -/
def syntheticToolResult (now : Nat → Nat) (reading : Nat) (toolCall : ToolCall δ) : Message δ :=
  .toolResult
    { toolCallId := toolCall.id
      toolName := toolCall.name
      content := some [.text "No result provided" none]
      details := none
      isError := true
      timestamp := now reading }

namespace SecondPass

variable (now : Nat → Nat)

/-- `result.push(message)` -/
def push (pass : SecondPass δ) (message : Message δ) : SecondPass δ :=
  { pass with result := pass.result ++ [message] }

def insertSyntheticToolResult (pass : SecondPass δ) (toolCall : ToolCall δ) : SecondPass δ :=
  if toolCall.id ∈ pass.existingToolResultIds then pass
  else pass.push (syntheticToolResult now pass.result.length toolCall)

def insertSyntheticToolResults (pass : SecondPass δ) : SecondPass δ :=
  if pass.pendingToolCalls.isEmpty then pass
  else
    { pass.pendingToolCalls.foldl (insertSyntheticToolResult now) pass with
      pendingToolCalls := []
      existingToolResultIds := [] }

def step (pass : SecondPass δ) : Message δ → SecondPass δ
  | .assistant message =>
    let pass := insertSyntheticToolResults now pass
    if message.failed then pass
    else if message.toolCalls.isEmpty then pass.push (.assistant message)
    else
      { pass.push (.assistant message) with
        pendingToolCalls := message.toolCalls
        existingToolResultIds := [] }
  | .toolResult message =>
    { pass.push (.toolResult message) with
      existingToolResultIds := pass.existingToolResultIds ++ [message.toolCallId] }
  | .user content timestamp => (insertSyntheticToolResults now pass).push (.user content timestamp)

end SecondPass

/-- `transformMessages` -/
def transformMessages (now : Nat → Nat) (messages : List (Message δ)) (model : Model)
    (normalizeToolCallId : Normalizer δ) : List (Message δ) :=
  let imageAwareMessages := downgradeUnsupportedImages (messages.map normalizeContent) model
  let transformed := firstPass model normalizeToolCallId (fun _ => none) imageAwareMessages
  let pass := transformed.foldl (SecondPass.step now) ⟨[], [], []⟩
  (SecondPass.insertSyntheticToolResults now pass).result

end Mcpi.Ai
