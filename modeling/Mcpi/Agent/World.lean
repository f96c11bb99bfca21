import Mcpi.Lib.Procedure

/-!
# The world of an agent run

What the agent loop shares with the code around it: the agent's transcript, its two queues and
its abort signal. Whatever is awaited (tools, hooks, the model, listeners) may call the agent
while it runs, may throw, and has a state of its own; it is an `External` that says what comes
of it. The events of a run are kept in the order in which they were emitted.
-/

namespace Mcpi.Agent

-- the state of the outside, and what it hands over without the agent looking into it
variable {σ δ : Type}

inductive ToolContent where
  | text (text : String)
  | image (data mimeType : String)
  deriving DecidableEq

structure AgentToolCall (δ : Type) where
  id : String
  name : String
  arguments : δ
  deriving DecidableEq

inductive AssistantContent (δ : Type) where
  | text (text : String)
  | thinking (thinking : String)
  | toolCall (call : AgentToolCall δ)
  deriving DecidableEq

inductive StopReason where
  | stop
  | length
  | toolUse
  | error
  | aborted
  deriving DecidableEq

structure AssistantMessage (δ : Type) where
  content : List (AssistantContent δ)
  model : String
  stopReason : StopReason
  errorMessage : Option String
  timestamp : Nat
  deriving DecidableEq

structure ToolResultMessage (δ : Type) where
  toolCallId : String
  toolName : String
  content : List ToolContent
  details : Option δ
  usage : Option δ
  addedToolNames : List String
  isError : Bool
  timestamp : Nat
  deriving DecidableEq

/-- User messages and those of other kinds are not looked into. -/
inductive AgentMessage (δ : Type) where
  | user (content : δ)
  | assistant (message : AssistantMessage δ)
  | toolResult (message : ToolResultMessage δ)
  | custom (content : δ)
  deriving DecidableEq

/-- The tool calls of an assistant message, in order. -/
def AssistantMessage.toolCalls (message : AssistantMessage δ) : List (AgentToolCall δ) :=
  message.content.filterMap fun
    | .toolCall call => some call
    | _ => none

/-- Untyped tools can return results without content. -/
structure AgentToolResult (δ : Type) where
  content : Option (List ToolContent)
  details : Option δ
  usage : Option δ
  addedToolNames : List String
  terminate : Option Bool
  deriving DecidableEq

inductive AgentEvent (δ : Type) where
  | agent_start
  | agent_end (messages : List (AgentMessage δ))
  | turn_start
  | turn_end (message : AssistantMessage δ) (toolResults : List (ToolResultMessage δ))
  | message_start (message : AgentMessage δ)
  | message_update (message : AssistantMessage δ)
  | message_end (message : AgentMessage δ)
  | tool_execution_start (toolCallId toolName : String) (args : δ)
  | tool_execution_update (toolCallId toolName : String) (args : δ) (partialResult : AgentToolResult δ)
  | tool_execution_end (toolCallId toolName : String) (result : AgentToolResult δ) (isError : Bool)
  deriving DecidableEq

/-! ## Queues -/

inductive QueueMode where
  | all
  | oneAtATime
  deriving DecidableEq

structure PendingMessageQueue (δ : Type) where
  messages : List (AgentMessage δ)
  mode : QueueMode
  deriving DecidableEq

namespace PendingMessageQueue

def enqueue (queue : PendingMessageQueue δ) (message : AgentMessage δ) : PendingMessageQueue δ :=
  { queue with messages := queue.messages ++ [message] }

/-- What is taken off the queue, and the queue without it. -/
def drain (queue : PendingMessageQueue δ) : List (AgentMessage δ) × PendingMessageQueue δ :=
  match queue.mode, queue.messages with
  | .all, messages => (messages, { queue with messages := [] })
  | .oneAtATime, [] => ([], queue)
  | .oneAtATime, first :: rest => ([first], { queue with messages := rest })

def clear (queue : PendingMessageQueue δ) : PendingMessageQueue δ := { queue with messages := [] }

end PendingMessageQueue

/-! ## The world -/

/-- What other code may call while a run is going on. -/
inductive ApiCall (δ : Type) where
  | steer (message : AgentMessage δ)
  | followUp (message : AgentMessage δ)
  | clearSteeringQueue
  | clearFollowUpQueue
  | steeringMode (mode : QueueMode)
  | followUpMode (mode : QueueMode)
  | abort
  deriving DecidableEq

/-- `messages` is `state.messages`. `events` and `executed` record what has been emitted and which
tool calls have been executed. -/
structure World (σ δ : Type) where
  env : σ
  messages : List (AgentMessage δ)
  steeringQueue : PendingMessageQueue δ
  followUpQueue : PendingMessageQueue δ
  aborted : Bool
  events : List (AgentEvent δ)
  executed : List String

def World.apply (w : World σ δ) : ApiCall δ → World σ δ
  | .steer message => { w with steeringQueue := w.steeringQueue.enqueue message }
  | .followUp message => { w with followUpQueue := w.followUpQueue.enqueue message }
  | .clearSteeringQueue => { w with steeringQueue := w.steeringQueue.clear }
  | .clearFollowUpQueue => { w with followUpQueue := w.followUpQueue.clear }
  | .steeringMode mode => { w with steeringQueue := { w.steeringQueue with mode } }
  | .followUpMode mode => { w with followUpQueue := { w.followUpQueue with mode } }
  | .abort => { w with aborted := true }

/-- Something awaited: what it calls on the agent, what it returns or throws, and its new state. -/
abbrev External (σ δ α : Type) := σ → List (ApiCall δ) × Except String α × σ

/-- The code of the agent. -/
abbrev Run (σ δ α : Type) := Procedure (World σ δ) String α

/-- Await something from outside. -/
def perform {α : Type} (external : External σ δ α) : Run σ δ α := fun w =>
  let (calls, result, env) := external w.env
  (result, calls.foldl World.apply { w with env := env })

/-- `processEvents` before the listeners: the event is recorded, and a message that ends joins the
transcript. -/
def World.process (w : World σ δ) (event : AgentEvent δ) : World σ δ :=
  let w := { w with events := w.events ++ [event] }
  match event with
  | .message_end message => { w with messages := w.messages ++ [message] }
  | _ => w

/-- `processEvents`: reduce the state, then await the listeners. -/
def emit (listeners : AgentEvent δ → External σ δ Unit) (event : AgentEvent δ) : Run σ δ Unit := do
  Procedure.update fun w => w.process event
  perform (listeners event)

/-! ## What the outside can change -/

section Outside

variable {α : Type} {w : World σ δ}

@[simp] theorem apply_messages (w : World σ δ) (call : ApiCall δ) : (w.apply call).messages = w.messages := by
  cases call <;> rfl

@[simp] theorem apply_executed (w : World σ δ) (call : ApiCall δ) : (w.apply call).executed = w.executed := by
  cases call <;> rfl

theorem apply_aborted {call : ApiCall δ} (h : w.aborted = true) : (w.apply call).aborted = true := by
  cases call <;> first | exact h | rfl

/-- What every call on the agent keeps, whatever is awaited keeps. -/
theorem keeps_perform {inv : World σ δ → Prop} (external : External σ δ α)
    (hcall : ∀ w call, inv w → inv (w.apply call)) (henv : ∀ w env, inv w → inv { w with env := env }) :
    Procedure.Keeps inv (perform external) := by
  intro w hw
  have hall : ∀ (calls : List (ApiCall δ)) (w : World σ δ), inv w → inv (calls.foldl World.apply w) := by
    intro calls
    induction calls with
    | nil => exact fun _ hw => hw
    | cons call calls ih => exact fun w hw => ih _ (hcall w call hw)
  rcases hexternal : external w.env with ⟨calls, result, env⟩
  have hafter := hall calls _ (henv w env hw)
  have hperform : perform external w = (result, calls.foldl World.apply { w with env := env }) := by
    unfold perform
    rw [hexternal]
  rw [hperform]
  cases result <;> exact hafter

end Outside

end Mcpi.Agent
