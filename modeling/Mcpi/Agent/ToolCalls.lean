import Mcpi.Agent.World

/-!
# Tool calls

How the loop answers the tool calls of an assistant message: prepare, execute and finalize each
call, one after another or with all executions under way at once. In parallel mode a schedule
says which of them gets on next; an entry is through after two turns.
-/

namespace Mcpi.Agent

variable {σ δ : Type}

inductive ToolExecutionMode where
  | sequential
  | parallel
  deriving DecidableEq

structure AgentTool where
  name : String
  executionMode : Option ToolExecutionMode
  deriving DecidableEq

structure BeforeToolCallResult where
  block : Bool
  reason : Option String
  terminate : Option Bool
  deriving DecidableEq

structure AfterToolCallResult (δ : Type) where
  content : Option (List ToolContent)
  details : Option δ
  usage : Option δ
  isError : Option Bool
  terminate : Option Bool
  deriving DecidableEq

/-- The tools, the hooks and the listeners. `prepareArguments` of a tool without one is the
identity. An execution returns the partial results it reported and how it ended. -/
structure ToolHost (σ δ : Type) where
  tools : List AgentTool
  toolExecution : ToolExecutionMode
  listeners : AgentEvent δ → External σ δ Unit
  prepareArguments : AgentTool → δ → External σ δ δ
  validateToolArguments : AgentTool → AgentToolCall δ → External σ δ δ
  beforeToolCall : Option (AssistantMessage δ → AgentToolCall δ → δ → External σ δ (Option BeforeToolCallResult))
  execute : AgentTool → String → δ → External σ δ (List (AgentToolResult δ) × Except String (AgentToolResult δ))
  afterToolCall : Option (AssistantMessage δ → AgentToolCall δ → δ → AgentToolResult δ → Bool →
    External σ δ (Option (AfterToolCallResult δ)))
  emptyDetails : δ
  now : σ → Nat

structure PreparedToolCall (δ : Type) where
  toolCall : AgentToolCall δ
  tool : AgentTool
  args : δ

inductive Preparation (δ : Type) where
  | immediate (result : AgentToolResult δ) (isError : Bool)
  | prepared (call : PreparedToolCall δ)

structure ExecutedToolCallOutcome (δ : Type) where
  result : AgentToolResult δ
  isError : Bool

structure FinalizedToolCallOutcome (δ : Type) where
  toolCall : AgentToolCall δ
  result : AgentToolResult δ
  isError : Bool

structure ExecutedToolCallBatch (δ : Type) where
  messages : List (ToolResultMessage δ)
  terminate : Bool

section Host

variable (host : ToolHost σ δ) (assistantMessage : AssistantMessage δ)

def createErrorToolResult (message : String) : AgentToolResult δ :=
  ⟨some [.text message], some host.emptyDetails, none, [], none⟩

/-- `reason || "Tool execution was blocked"` -/
def blockReason (result : BeforeToolCallResult) : String :=
  match result.reason with
  | some reason => if reason = "" then "Tool execution was blocked" else reason
  | none => "Tool execution was blocked"

/-- The result of a blocked call. -/
def blockedResult (result : BeforeToolCallResult) : AgentToolResult δ :=
  let blocked := createErrorToolResult host (blockReason result)
  if result.terminate = some true then { blocked with terminate := some true } else blocked

def signalAborted : Run σ δ Bool := Procedure.read World.aborted

def runBeforeToolCall (toolCall : AgentToolCall δ) (args : δ) : Run σ δ (Option BeforeToolCallResult) :=
  match host.beforeToolCall with
  | none => pure none
  | some hook => perform (hook assistantMessage toolCall args)

/-- What the signal and the answer of `beforeToolCall` make of a call. -/
def decidePreparation (prepared : PreparedToolCall δ) (beforeResult : Option BeforeToolCallResult)
    (aborted : Bool) : Preparation δ :=
  if aborted then .immediate (createErrorToolResult host "Operation aborted") true
  else
    match beforeResult with
    | some result =>
      if result.block then .immediate (blockedResult host result) true else .prepared prepared
    | none => .prepared prepared

/-- The part of `prepareToolCall` inside `try`. -/
def prepareKnownTool (toolCall : AgentToolCall δ) (tool : AgentTool) : Run σ δ (Preparation δ) := do
  let arguments ← perform (host.prepareArguments tool toolCall.arguments)
  let args ← perform (host.validateToolArguments tool { toolCall with arguments })
  let beforeResult ← runBeforeToolCall host assistantMessage toolCall args
  let aborted ← signalAborted
  pure (decidePreparation host ⟨toolCall, tool, args⟩ beforeResult aborted)

def prepareToolCall (toolCall : AgentToolCall δ) : Run σ δ (Preparation δ) :=
  match host.tools.find? fun tool => tool.name = toolCall.name with
  | none =>
    pure (.immediate (createErrorToolResult host ("Tool " ++ toolCall.name ++ " not found")) true)
  | some tool =>
    Procedure.rescue (prepareKnownTool host assistantMessage toolCall tool) fun error =>
      pure (.immediate (createErrorToolResult host error) true)

/-- The tool's own code; what it throws is its result. -/
def runTool (prepared : PreparedToolCall δ) : Run σ δ (List (AgentToolResult δ) × Except String (AgentToolResult δ)) :=
  Procedure.rescue (perform (host.execute prepared.tool prepared.toolCall.id prepared.args))
    fun error => pure ([], .error error)

def executedOutcome : Except String (AgentToolResult δ) → ExecutedToolCallOutcome δ
  | .ok result => ⟨result, false⟩
  | .error error => ⟨createErrorToolResult host error, true⟩

/-- The partial results are emitted as they come; a listener that throws on one is not caught. -/
def executePreparedToolCall (prepared : PreparedToolCall δ) :
    Run σ δ (ExecutedToolCallOutcome δ) := do
  Procedure.update fun w => { w with executed := w.executed ++ [prepared.toolCall.id] }
  let (updates, result) ← runTool host prepared
  Procedure.forEach (fun partialResult => emit host.listeners
    (.tool_execution_update prepared.toolCall.id prepared.toolCall.name prepared.toolCall.arguments
      partialResult)) updates
  pure (executedOutcome host result)

/-- What `afterToolCall` makes of a result. -/
def overrideResult (executed : ExecutedToolCallOutcome δ) (after : AfterToolCallResult δ) :
    ExecutedToolCallOutcome δ where
  result :=
    { executed.result with
      content := after.content.or executed.result.content
      details := after.details.or executed.result.details
      usage := after.usage.or executed.result.usage
      terminate := after.terminate.or executed.result.terminate }
  isError := after.isError.getD executed.isError

def runAfterToolCall (prepared : PreparedToolCall δ) (executed : ExecutedToolCallOutcome δ) :
    Run σ δ (ExecutedToolCallOutcome δ) :=
  match host.afterToolCall with
  | none => pure executed
  | some hook =>
    Procedure.rescue (do
        let after ← perform (hook assistantMessage prepared.toolCall prepared.args executed.result executed.isError)
        pure (after.elim executed (overrideResult executed)))
      fun error => pure ⟨createErrorToolResult host error, true⟩

def finalizeExecutedToolCall (prepared : PreparedToolCall δ)
    (executed : ExecutedToolCallOutcome δ) : Run σ δ (FinalizedToolCallOutcome δ) := do
  let outcome ← runAfterToolCall host assistantMessage prepared executed
  pure ⟨prepared.toolCall, outcome.result, outcome.isError⟩

def emitToolExecutionStart (toolCall : AgentToolCall δ) : Run σ δ Unit :=
  emit host.listeners (.tool_execution_start toolCall.id toolCall.name toolCall.arguments)

def emitToolExecutionEnd (finalized : FinalizedToolCallOutcome δ) : Run σ δ Unit :=
  emit host.listeners (.tool_execution_end finalized.toolCall.id finalized.toolCall.name
    finalized.result finalized.isError)

def toolResultMessage (finalized : FinalizedToolCallOutcome δ) (timestamp : Nat) :
    ToolResultMessage δ where
  toolCallId := finalized.toolCall.id
  toolName := finalized.toolCall.name
  content := finalized.result.content.getD []
  details := finalized.result.details
  usage := finalized.result.usage
  addedToolNames := finalized.result.addedToolNames
  isError := finalized.isError
  timestamp := timestamp

def createToolResultMessage (finalized : FinalizedToolCallOutcome δ) : Run σ δ (ToolResultMessage δ) :=
  Procedure.read fun w => toolResultMessage finalized (host.now w.env)

def emitToolResultMessage (message : ToolResultMessage δ) : Run σ δ Unit := do
  emit host.listeners (.message_start (.toolResult message))
  emit host.listeners (.message_end (.toolResult message))

/-- A finalized call becomes a message of the transcript. -/
def reportFinalized (finalized : FinalizedToolCallOutcome δ) : Run σ δ (ToolResultMessage δ) := do
  let message ← createToolResultMessage host finalized
  emitToolResultMessage host message
  pure message

def shouldTerminateToolBatch (finalizedCalls : List (FinalizedToolCallOutcome δ)) : Bool :=
  !finalizedCalls.isEmpty && finalizedCalls.all fun finalized => finalized.result.terminate = some true

/-- The answer to a call of a message that was cut off. -/
def truncatedToolCall (toolCall : AgentToolCall δ) : FinalizedToolCallOutcome δ :=
  ⟨toolCall, createErrorToolResult host ("Tool call \"" ++ toolCall.name ++
    "\" was not executed: the response hit the output token limit, so its arguments may be " ++
    "truncated. Re-issue the tool call with complete arguments."), true⟩

/-- `failToolCallsFromTruncatedMessage`: none of the calls is executed. -/
def failTruncated : List (AgentToolCall δ) → Run σ δ (List (ToolResultMessage δ))
  | [] => pure []
  | toolCall :: rest => do
      emitToolExecutionStart host toolCall
      let finalized := truncatedToolCall host toolCall
      emitToolExecutionEnd host finalized
      let message ← reportFinalized host finalized
      let messages ← failTruncated rest
      pure (message :: messages)

/-! ## One after another -/

/-- Execute and finalize what was prepared, if it was not answered at once. -/
def completeToolCall (toolCall : AgentToolCall δ) :
    Preparation δ → Run σ δ (FinalizedToolCallOutcome δ)
  | .immediate result isError => pure ⟨toolCall, result, isError⟩
  | .prepared prepared => do
      let executed ← executePreparedToolCall host prepared
      finalizeExecutedToolCall host assistantMessage prepared executed

/-- The finalized calls and their messages. -/
def executeToolCallsSequential :
    List (AgentToolCall δ) → Run σ δ (List (FinalizedToolCallOutcome δ) × List (ToolResultMessage δ))
  | [] => pure ([], [])
  | toolCall :: rest => do
      emitToolExecutionStart host toolCall
      let preparation ← prepareToolCall host assistantMessage toolCall
      let finalized ← completeToolCall host assistantMessage toolCall preparation
      emitToolExecutionEnd host finalized
      let message ← reportFinalized host finalized
      let aborted ← signalAborted
      if aborted then
        pure ([finalized], [message])
      else do
        let (finalizedCalls, messages) ← executeToolCallsSequential rest
        pure (finalized :: finalizedCalls, message :: messages)

/-! ## In parallel -/

/-- An entry of `finalizedCalls`: a call that is through, or how far its promise has got. -/
inductive Task (δ : Type) where
  | waiting (prepared : PreparedToolCall δ)
  | executed (prepared : PreparedToolCall δ) (outcome : ExecutedToolCallOutcome δ)
  | done (finalized : FinalizedToolCallOutcome δ)

def Task.finalized? : Task δ → Option (FinalizedToolCallOutcome δ)
  | .done finalized => some finalized
  | _ => none

/-- An answer at once is reported at once. -/
def enterTask (toolCall : AgentToolCall δ) : Preparation δ → Run σ δ (Task δ)
  | .immediate result isError => do
      emitToolExecutionEnd host ⟨toolCall, result, isError⟩
      pure (.done ⟨toolCall, result, isError⟩)
  | .prepared prepared => pure (.waiting prepared)

/-- The loop that prepares every call before any is executed. -/
def prepareToolCalls : List (AgentToolCall δ) → Run σ δ (List (Task δ))
  | [] => pure []
  | toolCall :: rest => do
      emitToolExecutionStart host toolCall
      let preparation ← prepareToolCall host assistantMessage toolCall
      let task ← enterTask host toolCall preparation
      let aborted ← signalAborted
      if aborted then
        pure [task]
      else do
        let tasks ← prepareToolCalls rest
        pure (task :: tasks)

/-- The next step of one entry. -/
def Task.advance : Task δ → Run σ δ (Task δ)
  | .waiting prepared => do
      let outcome ← executePreparedToolCall host prepared
      pure (.executed prepared outcome)
  | .executed prepared outcome => do
      let finalized ← finalizeExecutedToolCall host assistantMessage prepared outcome
      emitToolExecutionEnd host finalized
      pure (.done finalized)
  | .done finalized => pure (.done finalized)

/-- The entry whose turn it is gets on. -/
def advanceAt : List (Task δ) → Nat → Run σ δ (List (Task δ))
  | [], _ => pure []
  | task :: tasks, 0 => do
      let task ← task.advance host assistantMessage
      pure (task :: tasks)
  | task :: tasks, i + 1 => do
      let tasks ← advanceAt tasks i
      pure (task :: tasks)

/-- `Promise.all`, in the order of a schedule. An entry that throws rejects it at once. -/
def runTasks : List Nat → List (Task δ) → Run σ δ (List (Task δ))
  | [], tasks => pure tasks
  | i :: schedule, tasks => do
      let tasks ← advanceAt host assistantMessage tasks i
      runTasks schedule tasks

/-- The messages, in the order of the calls. -/
def reportAll : List (FinalizedToolCallOutcome δ) → Run σ δ (List (ToolResultMessage δ))
  | [] => pure []
  | finalized :: rest => do
      let message ← reportFinalized host finalized
      let messages ← reportAll rest
      pure (message :: messages)

/-- What is made of the entries, once all are through; `none` while one is not. -/
def reportTasks (tasks : List (Task δ)) :
    Run σ δ (Option (List (FinalizedToolCallOutcome δ) × List (ToolResultMessage δ))) :=
  match tasks.mapM Task.finalized? with
  | none => pure none
  | some finalizedCalls => do
      let messages ← reportAll host finalizedCalls
      pure (some (finalizedCalls, messages))

def executeToolCallsParallel (schedule : List Nat) (toolCalls : List (AgentToolCall δ)) :
    Run σ δ (Option (List (FinalizedToolCallOutcome δ) × List (ToolResultMessage δ))) := do
  let tasks ← prepareToolCalls host assistantMessage toolCalls
  let tasks ← runTasks host assistantMessage schedule tasks
  reportTasks host tasks

/-! ## The tool calls of a message -/

/-- A call of a tool that asks for it makes the whole batch sequential. -/
def hasSequentialToolCall (toolCalls : List (AgentToolCall δ)) : Bool :=
  toolCalls.any fun toolCall =>
    (host.tools.find? fun tool => tool.name = toolCall.name).any fun tool =>
      tool.executionMode = some .sequential

def createBatch (batch : List (FinalizedToolCallOutcome δ) × List (ToolResultMessage δ)) : ExecutedToolCallBatch δ :=
  ⟨batch.2, shouldTerminateToolBatch batch.1⟩

def executeToolCalls (schedule : List Nat) : Run σ δ (Option (ExecutedToolCallBatch δ)) :=
  let toolCalls := assistantMessage.toolCalls
  if host.toolExecution = .sequential ∨ hasSequentialToolCall host toolCalls = true then do
    let batch ← executeToolCallsSequential host assistantMessage toolCalls
    pure (some (createBatch batch))
  else do
    let batch ← executeToolCallsParallel host assistantMessage schedule toolCalls
    pure (batch.map createBatch)

/-- The loop returns after a response that ends like this, whatever it calls. -/
def EndsRun (stopReason : StopReason) : Prop := stopReason = .error ∨ stopReason = .aborted

instance (stopReason : StopReason) : Decidable (EndsRun stopReason) :=
  inferInstanceAs (Decidable (_ ∨ _))

/-- What the loop makes of the tool calls of a message: the results that it appends, and whether
there is more to do (`hasMoreToolCalls`). -/
def answerToolCalls (schedule : List Nat) : Run σ δ (Option (List (ToolResultMessage δ) × Bool)) :=
  if EndsRun assistantMessage.stopReason then
    pure (some ([], false))
  else if assistantMessage.toolCalls.isEmpty then
    pure (some ([], false))
  else if assistantMessage.stopReason = .length then do
    let messages ← failTruncated host assistantMessage.toolCalls
    pure (some (messages, true))
  else do
    let batch ← executeToolCalls host assistantMessage schedule
    pure (batch.map fun batch => (batch.messages, !batch.terminate))

end Host

end Mcpi.Agent
