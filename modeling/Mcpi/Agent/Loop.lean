import Mcpi.Lib.Transition
import Mcpi.Agent.World

/-!
# Runs of the agent

The agent and its loop as a transition system. A step is what happens between two awaits: the agent
emits the next of the events it has to emit and its listeners settle, something the loop has been
waiting for comes, or other code calls the agent. What the loop emits up to its next decision is
kept in `emits`.
-/

namespace Mcpi.AgentLoop

open Mcpi.Agent

variable {δ : Type}

/-- Where a message has come from. -/
inductive Origin where
  | steering
  | followUp
  | other
  deriving DecidableEq

/-- What the model stream delivers: its first partial message, changes of it, and its end. -/
inductive StreamEvent (δ : Type) where
  | start (message : AssistantMessage δ)
  | update (message : AssistantMessage δ)
  | done

/-- What executing tool calls emits: the progress of a call, or its result as a message. -/
inductive ToolEmit (δ : Type) where
  | start (call : AgentToolCall δ)
  | update (call : AgentToolCall δ) (partialResult : AgentToolResult δ)
  | finish (call : AgentToolCall δ) (result : AgentToolResult δ) (isError : Bool)
  | message (result : ToolResultMessage δ)

/-- What the loop does when it has emitted its events. -/
inductive Control (δ : Type) where
  | getSteeringMessages (hasMoreToolCalls : Bool)
  | streamAssistantResponse
  | executeToolCalls (message : AssistantMessage δ)
  | prepareNextTurn (hasMoreToolCalls : Bool)
  | shouldStopAfterTurn (hasMoreToolCalls : Bool)
  | getFollowUpMessages
  | failed (error : String)
  | finished
  | handled

/-- An event, and the queue that its message has come from. -/
structure Emit (δ : Type) where
  origin : Origin
  event : AgentEvent δ

/-- The active run: the variables of `runLoop`, and what is emitted next. -/
structure ActiveRun (δ : Type) where
  aborted : Bool
  skipInitialSteeringPoll : Bool
  firstTurn : Bool
  newMessages : List (AgentMessage δ)
  emits : List (Emit δ)
  control : Control δ

/-- The agent. `steered` and `followedUp` record the messages that have been queued and not cleared,
`events` what has been emitted in the last run, and `before` the messages before it. -/
structure Agent (δ : Type) where
  model : String
  messages : List (Origin × AgentMessage δ)
  steeringQueue : PendingMessageQueue δ
  followUpQueue : PendingMessageQueue δ
  activeRun : Option (ActiveRun δ)
  steered : List (AgentMessage δ)
  followedUp : List (AgentMessage δ)
  events : List (AgentEvent δ)
  before : List (AgentMessage δ)

def Agent.create (model : String) (messages : List (AgentMessage δ))
    (steeringMode followUpMode : QueueMode) : Agent δ :=
  { model
    messages := messages.map (Origin.other, ·)
    steeringQueue := ⟨[], steeringMode⟩
    followUpQueue := ⟨[], followUpMode⟩
    activeRun := none
    steered := []
    followedUp := []
    events := []
    before := [] }

/-- A clear call takes the messages that are still queued, which are the last ones. -/
def cleared (queued : List (AgentMessage δ)) (queue : PendingMessageQueue δ) : List (AgentMessage δ) :=
  queued.take (queued.length - queue.messages.length)

def Agent.apply (agent : Agent δ) : ApiCall δ → Agent δ
  | .steer message =>
    { agent with
      steeringQueue := agent.steeringQueue.enqueue message
      steered := agent.steered ++ [message] }
  | .followUp message =>
    { agent with
      followUpQueue := agent.followUpQueue.enqueue message
      followedUp := agent.followedUp ++ [message] }
  | .clearSteeringQueue =>
    { agent with
      steered := cleared agent.steered agent.steeringQueue
      steeringQueue := agent.steeringQueue.clear }
  | .clearFollowUpQueue =>
    { agent with
      followedUp := cleared agent.followedUp agent.followUpQueue
      followUpQueue := agent.followUpQueue.clear }
  | .steeringMode mode => { agent with steeringQueue := { agent.steeringQueue with mode } }
  | .followUpMode mode => { agent with followUpQueue := { agent.followUpQueue with mode } }
  | .abort => { agent with activeRun := agent.activeRun.map fun run => { run with aborted := true } }

/-! ## What is emitted -/

/-- `message_start` and `message_end` for each message. -/
def messageEvents (origin : Origin) (messages : List (AgentMessage δ)) : List (Emit δ) :=
  messages.flatMap fun message => [⟨origin, .message_start message⟩, ⟨origin, .message_end message⟩]

/-- `streamAssistantResponse`, from the first event of the stream on. `addedPartial` is set once
there is a partial message. -/
def responseEvents (finalMessage : AssistantMessage δ) :
    Bool → List (StreamEvent δ) → List (AgentEvent δ)
  | addedPartial, [] | addedPartial, .done :: _ =>
    (if addedPartial then [] else [.message_start (.assistant finalMessage)]) ++
      [.message_end (.assistant finalMessage)]
  | _, .start message :: rest =>
    .message_start (.assistant message) :: responseEvents finalMessage true rest
  | addedPartial, .update message :: rest =>
    (if addedPartial then [.message_update message] else []) ++ responseEvents finalMessage addedPartial rest

/-- What has been emitted of a stream that throws after some events. -/
def brokenEvents : Bool → List (StreamEvent δ) → List (AgentEvent δ)
  | _, [] | _, .done :: _ => []
  | _, .start message :: rest => .message_start (.assistant message) :: brokenEvents true rest
  | addedPartial, .update message :: rest =>
    (if addedPartial then [.message_update message] else []) ++ brokenEvents addedPartial rest

def ToolEmit.events : ToolEmit δ → List (AgentEvent δ)
  | .start call => [.tool_execution_start call.id call.name call.arguments]
  | .update call partialResult =>
    [.tool_execution_update call.id call.name call.arguments partialResult]
  | .finish call result isError => [.tool_execution_end call.id call.name result isError]
  | .message result => [.message_start (.toolResult result), .message_end (.toolResult result)]

/-- The messages of the batch: each result that has been emitted. -/
def toolResults (emitted : List (ToolEmit δ)) : List (ToolResultMessage δ) :=
  emitted.filterMap fun
    | .message result => some result
    | _ => none

def others (events : List (AgentEvent δ)) : List (Emit δ) := events.map fun event => ⟨.other, event⟩

/-! ## The loop -/

/-- The start of a turn, which brings the pending messages into the transcript. -/
def ActiveRun.startTurn (run : ActiveRun δ) (origin : Origin) (pendingMessages : List (AgentMessage δ)) : ActiveRun δ :=
  { run with
    emits := (if run.firstTurn then [] else others [.turn_start]) ++ messageEvents origin pendingMessages
    newMessages := run.newMessages ++ pendingMessages
    firstTurn := false
    control := .streamAssistantResponse }

def ActiveRun.endRun (run : ActiveRun δ) : ActiveRun δ :=
  { run with emits := others [.agent_end run.newMessages], control := .finished }

/-- What comes after the response has been streamed. -/
def ActiveRun.respond (run : ActiveRun δ) (streamed : List (StreamEvent δ)) :
    Except String (AssistantMessage δ) → ActiveRun δ
  | .error error => { run with emits := others (brokenEvents false streamed), control := .failed error }
  | .ok message =>
    let newMessages := run.newMessages ++ [.assistant message]
    let events := responseEvents message false streamed
    if message.stopReason = .error ∨ message.stopReason = .aborted then
      { run with
        newMessages
        emits := others (events ++ [.turn_end message [], .agent_end newMessages])
        control := .finished }
    else if message.toolCalls = [] then
      { run with
        newMessages
        emits := others (events ++ [.turn_end message []])
        control := .prepareNextTurn false }
    else { run with newMessages, emits := others events, control := .executeToolCalls message }

/-- What comes after the tool calls have been executed, which may end in `terminate`. -/
def ActiveRun.toolBatch (run : ActiveRun δ) (message : AssistantMessage δ)
    (emitted : List (ToolEmit δ)) : Except String Bool → ActiveRun δ
  | .error error =>
    { run with emits := others (emitted.flatMap ToolEmit.events), control := .failed error }
  | .ok terminate =>
    { run with
      newMessages := run.newMessages ++ (toolResults emitted).map .toolResult
      emits := others (emitted.flatMap ToolEmit.events ++ [.turn_end message (toolResults emitted)])
      control := .prepareNextTurn (!terminate) }

/-- `handleRunFailure` -/
def ActiveRun.handleRunFailure (run : ActiveRun δ) (model error : String) (now : Nat) : ActiveRun δ :=
  let failureMessage : AssistantMessage δ :=
    { content := [.text ""]
      model
      stopReason := if run.aborted then .aborted else .error
      errorMessage := some error
      timestamp := now }
  { run with
    emits := others [.message_start (.assistant failureMessage), .message_end (.assistant failureMessage),
        .turn_end failureMessage [], .agent_end [.assistant failureMessage]]
    control := .handled }

namespace Agent

/-- The start of `runAgentLoop`, with no prompts that of `runAgentLoopContinue`. -/
def startRun (agent : Agent δ) (origin : Origin) (prompts : List (AgentMessage δ))
    (skipInitialSteeringPoll : Bool) : Agent δ :=
  { agent with
    events := []
    before := agent.messages.map Prod.snd
    activeRun := some
      { aborted := false
        skipInitialSteeringPoll
        firstTurn := true
        newMessages := prompts
        emits := others [.agent_start, .turn_start] ++ messageEvents origin prompts
        control := .getSteeringMessages true } }

/-- `prompt`, which throws while a run is active. -/
def prompt (agent : Agent δ) (messages : List (AgentMessage δ)) : Agent δ :=
  match agent.activeRun with
  | some _ => agent
  | none => agent.startRun .other messages false

/-- `continue` from the last message. -/
def continueRun (agent : Agent δ) : Agent δ :=
  match agent.activeRun, agent.messages.getLast? with
  | some _, _ | none, none => agent
  | none, some (_, .assistant _) =>
    let (queuedSteering, steeringQueue) := agent.steeringQueue.drain
    if queuedSteering ≠ [] then
      { agent with steeringQueue }.startRun .steering queuedSteering true
    else
      let (queuedFollowUps, followUpQueue) := agent.followUpQueue.drain
      if queuedFollowUps ≠ [] then
        { agent with followUpQueue }.startRun .followUp queuedFollowUps false
      else agent
  | none, some _ => agent.startRun .other [] false

/-- `processEvents` before the listeners. -/
def process (agent : Agent δ) (emit : Emit δ) : Agent δ :=
  let agent := { agent with events := agent.events ++ [emit.event] }
  match emit.event with
  | .message_end message => { agent with messages := agent.messages ++ [(emit.origin, message)] }
  | _ => agent

/-- A listener has thrown: the run fails, or its failure cannot be reported. -/
def listenerThrows (agent : Agent δ) (run : ActiveRun δ) (error : String) : Agent δ :=
  match run.control with
  | .handled => { agent with activeRun := none }
  | _ => { agent with activeRun := some { run with emits := [], control := .failed error } }

/-- The next event, and what its listeners make of it. -/
def emitNext (agent : Agent δ) (run : ActiveRun δ) (emit : Emit δ) (rest : List (Emit δ)) :
    Except String Unit → Agent δ
  | .ok () => { agent.process emit with activeRun := some { run with emits := rest } }
  | .error error => (agent.process emit).listenerThrows run error

/-- `getSteeringMessages`: the messages, and the queue without them. -/
def getSteeringMessages (agent : Agent δ) (run : ActiveRun δ) : List (AgentMessage δ) × PendingMessageQueue δ :=
  if run.skipInitialSteeringPoll then ([], agent.steeringQueue) else agent.steeringQueue.drain

/-- What the loop does with the steering messages. -/
def pollSteering (agent : Agent δ) (run : ActiveRun δ) (hasMoreToolCalls : Bool) : Agent δ :=
  let (pendingMessages, steeringQueue) := agent.getSteeringMessages run
  let run := { run with skipInitialSteeringPoll := false }
  { agent with
    steeringQueue
    activeRun := some (if hasMoreToolCalls ∨ pendingMessages ≠ [] then run.startTurn .steering pendingMessages
        else { run with control := .getFollowUpMessages }) }

/-- `getFollowUpMessages` and what the loop does with them. -/
def pollFollowUps (agent : Agent δ) (run : ActiveRun δ) : Agent δ :=
  let (followUpMessages, followUpQueue) := agent.followUpQueue.drain
  { agent with
    followUpQueue
    activeRun := some (if followUpMessages ≠ [] then run.startTurn .followUp followUpMessages else run.endRun) }

end Agent

/-- What can happen. -/
inductive Step (δ : Type) where
  | call (call : ApiCall δ)
  | prompt (messages : List (AgentMessage δ))
  | continueRun
  | listeners (result : Except String Unit)
  | poll
  | response (streamed : List (StreamEvent δ)) (result : Except String (AssistantMessage δ))
  | tools (emitted : List (ToolEmit δ)) (result : Except String Bool)
  | prepared (result : Except String Unit)
  | stopDecision (result : Except String Bool)
  | failure (now : Nat)
  | finish

/-- A step of the active run, once it has emitted its events. -/
def Agent.control (agent : Agent δ) (run : ActiveRun δ) : Step δ → Option (Agent δ)
  | .poll =>
    match run.control with
    | .getSteeringMessages hasMoreToolCalls => some (agent.pollSteering run hasMoreToolCalls)
    | .getFollowUpMessages => some (agent.pollFollowUps run)
    | _ => none
  | .response streamed result =>
    match run.control with
    | .streamAssistantResponse => some { agent with activeRun := some (run.respond streamed result) }
    | _ => none
  | .tools emitted result =>
    match run.control with
    | .executeToolCalls message =>
      some { agent with activeRun := some (run.toolBatch message emitted result) }
    | _ => none
  | .prepared result =>
    match run.control, result with
    | .prepareNextTurn hasMoreToolCalls, .ok () =>
      some { agent with
        activeRun := some { run with control := .shouldStopAfterTurn hasMoreToolCalls } }
    | .prepareNextTurn _, .error error =>
      some { agent with activeRun := some { run with control := .failed error } }
    | _, _ => none
  | .stopDecision result =>
    match run.control, result with
    | .shouldStopAfterTurn _, .ok true => some { agent with activeRun := some run.endRun }
    | .shouldStopAfterTurn hasMoreToolCalls, .ok false =>
      some { agent with
        activeRun := some { run with control := .getSteeringMessages hasMoreToolCalls } }
    | .shouldStopAfterTurn _, .error error =>
      some { agent with activeRun := some { run with control := .failed error } }
    | _, _ => none
  | .failure now =>
    match run.control with
    | .failed error =>
      some { agent with activeRun := some (run.handleRunFailure agent.model error now) }
    | _ => none
  | .finish =>
    match run.control with
    | .finished | .handled => some { agent with activeRun := none }
    | _ => none
  | _ => none

/-- The transition system. -/
def step (agent : Agent δ) : Step δ → Option (Agent δ)
  | .call call => some (agent.apply call)
  | .prompt messages => some (agent.prompt messages)
  | .continueRun => some agent.continueRun
  | .listeners result =>
    match agent.activeRun with
    | some run =>
      match run.emits with
      | emit :: rest => some (agent.emitNext run emit rest result)
      | [] => none
    | none => none
  | event =>
    match agent.activeRun with
    | some run => if run.emits.isEmpty then agent.control run event else none
    | none => none

end Mcpi.AgentLoop
