import Mathlib.Algebra.Ring.Nat
import Mcpi.Agent.World
import Mcpi.Lib.Transition

/-!
# What follows a run

After a run `AgentSession` retries, compacts or goes on with what is queued, and then calls
`agent.continue()`. A message is an assistant message or one of another role; `path` has the messages that
the session has persisted, which a compaction rebuilds the transcript from. The loop of the agent is followed
from one message to the next.
-/

namespace Mcpi.CodingAgent.PostRun

open Mcpi.Agent (QueueMode)

/-! ## Messages and settings -/

inductive Role
  | user
  | custom
  | toolResult
  | bashExecution
  | branchSummary
  | compactionSummary
  deriving DecidableEq

structure Usage where
  input : Nat
  cacheRead : Nat
  output : Nat
  deriving DecidableEq

structure AssistantMessage where
  provider : String
  model : String
  stopReason : Mcpi.Agent.StopReason
  errorMessage : Option String
  usage : Usage
  deriving DecidableEq

inductive Message
  | assistant (message : AssistantMessage)
  | other (role : Role)
  deriving DecidableEq

structure Model where
  provider : String
  id : String
  contextWindow : Nat
  maxTokens : Nat
  deriving DecidableEq

/-- The patterns of error messages: those of an overflow that are not exempt, and those that can be retried. -/
structure Patterns where
  overflow : String → Bool
  retryable : String → Bool

/-- What a check reads besides the session: settings, the model, whether the response is older than the
latest compaction, and whether the estimated context is over the threshold. -/
structure Settings where
  retryEnabled : Bool
  maxRetries : Nat
  compactionEnabled : Bool
  model : Option Model
  fromBeforeCompaction : Bool
  overThreshold : Bool
  deriving DecidableEq

/-! ## The session -/

/-- Where the session is. `continuing` is after `_handlePostAgentRun` has returned true, for a retry that has been
announced or for what is queued. -/
inductive Phase
  | idle
  | injecting (pending : List Role) (poll : Bool)
  | responding
  | toolResults (remaining : Nat)
  | turnEnd (hasMoreToolCalls : Bool)
  | ending
  | posted
  | sleeping (message : AssistantMessage)
  | compacting (willRetry : Bool)
  | continuing (retry : Bool)
  deriving DecidableEq

structure AgentSession where
  messages : List Message
  path : List Message
  steeringQueue : List Role
  followUpQueue : List Role
  steeringMode : QueueMode
  followUpMode : QueueMode
  lastAssistantMessage : Option AssistantMessage
  retryAttempt : Nat
  overflowRecoveryAttempted : Bool
  phase : Phase
  deriving DecidableEq

def AgentSession.create (steeringMode followUpMode : QueueMode) : AgentSession :=
  { messages := []
    path := []
    steeringQueue := []
    followUpQueue := []
    steeringMode
    followUpMode
    lastAssistantMessage := none
    retryAttempt := 0
    overflowRecoveryAttempted := false
    phase := .idle }

def drain (mode : QueueMode) (queue : List Role) : List Role × List Role :=
  match mode with
  | .all => (queue, [])
  | .oneAtATime => (queue.take 1, queue.drop 1)

/-! ## Checks -/

section Checks

variable (patterns : Patterns)

def isContextOverflow (message : AssistantMessage) (contextWindow : Nat) : Bool :=
  let inputTokens := message.usage.input + message.usage.cacheRead
  (message.stopReason = .error && message.errorMessage.any patterns.overflow) ||
    (contextWindow > 0 && message.stopReason = .stop && inputTokens > contextWindow) ||
      (contextWindow > 0 && message.stopReason = .length && message.usage.output = 0 &&
        100 * inputTokens ≥ 99 * contextWindow)

def isRecoverableLength (message : AssistantMessage) (desiredMaxOutput : Nat) : Bool :=
  message.stopReason = .length && desiredMaxOutput > 0 && message.usage.output < desiredMaxOutput

def isRetryableAssistantError (message : AssistantMessage) : Bool :=
  message.stopReason = .error && message.errorMessage.any patterns.retryable

/-- `_isRetryableError` -/
def isRetryableError (model : Option Model) (message : AssistantMessage) : Bool :=
  !isContextOverflow patterns message ((model.map Model.contextWindow).getD 0) &&
    isRetryableAssistantError patterns message

end Checks

/-- `messages.slice(0, -1)`, if the last one is an assistant message -/
def popAssistant (messages : List Message) : List Message :=
  match messages.getLast? with
  | some (.assistant _) => messages.dropLast
  | _ => messages

namespace AgentSession

/-- A message comes into the transcript and is persisted. -/
def append (s : AgentSession) (message : Message) : AgentSession :=
  { s with messages := s.messages ++ [message], path := s.path ++ [message] }

def hasQueuedMessages (s : AgentSession) : Bool := s.steeringQueue ≠ [] || s.followUpQueue ≠ []

/-- The end of `_handlePostAgentRun`: continue for what is queued. -/
def finish (s : AgentSession) : AgentSession :=
  { s with phase := if s.hasQueuedMessages then .continuing false else .idle }

/-- `_handleAgentEvent` at the end of an assistant message -/
def assistantEnd (s : AgentSession) (message : AssistantMessage) : AgentSession :=
  { s.append (.assistant message) with
    lastAssistantMessage := some message
    overflowRecoveryAttempted :=
      if message.stopReason ≠ .error ∧ message.stopReason ≠ .length then false
      else s.overflowRecoveryAttempted
    retryAttempt := if message.stopReason ≠ .error then 0 else s.retryAttempt }

/-- `_checkCompaction`, up to the compaction -/
def checkCompaction (patterns : Patterns) (s : AgentSession) (settings : Settings)
    (message : AssistantMessage) : AgentSession :=
  if settings.compactionEnabled = false then s.finish
  else if message.stopReason = .aborted then s.finish
  else if settings.fromBeforeCompaction then s.finish
  else
    let sameModel := settings.model.any fun model =>
      message.provider = model.provider && message.model = model.id
    let contextWindow := (settings.model.map Model.contextWindow).getD 0
    let maxTokens := (settings.model.map Model.maxTokens).getD 0
    if sameModel && (isContextOverflow patterns message contextWindow || isRecoverableLength message maxTokens) then
      if message.stopReason = .stop then { s with phase := .compacting false }
      else if s.overflowRecoveryAttempted then s.finish
      else
        { s with
          overflowRecoveryAttempted := true
          messages := popAssistant s.messages
          phase := .compacting true }
    else if settings.overThreshold then { s with phase := .compacting false }
    else s.finish

/-- What `_handlePostAgentRun` does when it does not retry. -/
def afterRetry (patterns : Patterns) (s : AgentSession) (settings : Settings)
    (message : AssistantMessage) : AgentSession :=
  let s := if message.stopReason = .error then { s with retryAttempt := 0 } else s
  s.checkCompaction patterns settings message

/-- `_handlePostAgentRun`, up to the sleep of `_prepareRetry` -/
def handlePostAgentRun (patterns : Patterns) (s : AgentSession) (settings : Settings) : AgentSession :=
  match s.lastAssistantMessage with
  | none => { s with phase := .idle }
  | some message =>
    let s := { s with lastAssistantMessage := none }
    if isRetryableError patterns settings.model message && settings.retryEnabled &&
        s.retryAttempt + 1 ≤ settings.maxRetries then
      { s with
        retryAttempt := s.retryAttempt + 1
        messages := popAssistant s.messages
        phase := .sleeping message }
    else s.afterRetry patterns settings message

/-- The end of `_runAutoCompaction`. The transcript is rebuilt from the summary and what has been kept. -/
def compacted (s : AgentSession) (willRetry : Bool) (firstKept : Nat) : AgentSession :=
  let s := { s with messages := .other .compactionSummary :: s.path.drop firstKept }
  if willRetry then
    { s with
      messages := match s.messages.getLast? with
        | some (.assistant message) =>
          if message.stopReason = .error ∨ message.stopReason = .length then s.messages.dropLast
          else s.messages
        | _ => s.messages
      phase := .continuing true }
  else s.finish

end AgentSession

/-! ## Events -/

/-- What can happen. `edit` is anything that changes the transcript of an idle session; `fails` is a run in
which a listener or a hook throws, perhaps before the last message of the transcript has been persisted;
`compacted none` is a compaction that comes to nothing. -/
inductive Event
  | edit (messages path : List Message)
  | prompt (messages : List Role)
  | append (role : Role)
  | steer (role : Role)
  | followUp (role : Role)
  | clearQueue
  | messageStart
  | poll
  | respond (message : AssistantMessage) (toolCalls : Nat)
  | toolResult (terminate : Bool)
  | turn (shouldStop : Bool)
  | endRun
  | fails (unpersisted : Option Message) (failure : AssistantMessage)
  | crash
  | handle (settings : Settings)
  | slept (completed : Bool) (settings : Settings)
  | compacted (firstKept : Option Nat)
  | continue_
  deriving DecidableEq

/-- A run is going on. -/
def Phase.running : Phase → Bool
  | .injecting _ _ => true
  | .responding => true
  | .toolResults _ => true
  | .turnEnd _ => true
  | .ending => true
  | _ => false

/-- `_handlePostAgentRun` has returned true. -/
def Phase.continues : Phase → Bool
  | .continuing _ => true
  | _ => false

/-! ## Steps -/

section Steps

variable (patterns : Patterns)

/-- The next pending message, or the response to them. -/
def messageStart (s : AgentSession) : Option AgentSession :=
  match s.phase with
  | .injecting (role :: pending) poll =>
    some { s.append (.other role) with
      overflowRecoveryAttempted := if role = .user then false else s.overflowRecoveryAttempted
      phase := .injecting pending poll }
  | .injecting [] false => some { s with phase := .responding }
  | _ => none

/-- The steering messages at the start of a run -/
def poll (s : AgentSession) : Option AgentSession :=
  match s.phase with
  | .injecting [] true =>
    let (pending, steeringQueue) := drain s.steeringMode s.steeringQueue
    some { s with steeringQueue, phase := .injecting pending false }
  | _ => none

def respond (s : AgentSession) (message : AssistantMessage) (toolCalls : Nat) : Option AgentSession :=
  match s.phase with
  | .responding =>
    let s := s.assistantEnd message
    if message.stopReason = .error ∨ message.stopReason = .aborted then
      some { s with phase := .ending }
    else if toolCalls = 0 then some { s with phase := .turnEnd false }
    else some { s with phase := .toolResults (toolCalls - 1) }
  | _ => none

/-- A tool result. Where all results of the message ask for it the run is to end. -/
def toolResult (s : AgentSession) (terminate : Bool) : Option AgentSession :=
  match s.phase with
  | .toolResults remaining =>
    some { s.append (.other .toolResult) with
      phase := if remaining = 0 then .turnEnd (!terminate) else .toolResults (remaining - 1) }
  | _ => none

/-- The end of a turn: stop, or go on with steering messages, more tool calls or follow-ups. -/
def turn (s : AgentSession) (shouldStop : Bool) : Option AgentSession :=
  match s.phase with
  | .turnEnd hasMoreToolCalls =>
    if shouldStop then some { s with phase := .ending }
    else
      let (pending, steeringQueue) := drain s.steeringMode s.steeringQueue
      let s := { s with steeringQueue }
      if hasMoreToolCalls ∨ pending ≠ [] then some { s with phase := .injecting pending false }
      else
        let (pending, followUpQueue) := drain s.followUpMode s.followUpQueue
        let s := { s with followUpQueue }
        if pending ≠ [] then some { s with phase := .injecting pending false }
        else some { s with phase := .ending }
  | _ => none

/-- `handleRunFailure` -/
def fails (s : AgentSession) (unpersisted : Option Message) (failure : AssistantMessage) : Option AgentSession :=
  if s.phase.running ∧ (failure.stopReason = .error ∨ failure.stopReason = .aborted) then
    some { { s with messages := s.messages ++ unpersisted.toList }.assistantEnd failure with
      phase := .posted }
  else none

/-- `agent.continue()` -/
def continue_ (s : AgentSession) : Option AgentSession :=
  match s.phase with
  | .continuing _ =>
    match s.messages.getLast? with
    | none => some { s with phase := .idle }
    | some (.other _) => some { s with phase := .injecting [] true }
    | some (.assistant _) =>
      let (queuedSteering, steeringQueue) := drain s.steeringMode s.steeringQueue
      if queuedSteering ≠ [] then
        some { s with steeringQueue, phase := .injecting queuedSteering false }
      else
        let (queuedFollowUps, followUpQueue) := drain s.followUpMode s.followUpQueue
        if queuedFollowUps ≠ [] then
          some { s with followUpQueue, phase := .injecting queuedFollowUps true }
        else some { s with phase := .idle }
  | _ => none

def step (s : AgentSession) : Event → Option AgentSession
  | .edit messages path => if s.phase = .idle then some { s with messages, path } else none
  | .prompt messages =>
    if s.phase = .idle ∧ messages ≠ [] then some { s with phase := .injecting messages true } else none
  | .append role => if s.phase.continues then none else some (s.append (.other role))
  | .steer role =>
    if s.phase.continues then none else some { s with steeringQueue := s.steeringQueue ++ [role] }
  | .followUp role =>
    if s.phase.continues then none else some { s with followUpQueue := s.followUpQueue ++ [role] }
  | .clearQueue =>
    if s.phase.continues then none else some { s with steeringQueue := [], followUpQueue := [] }
  | .messageStart => messageStart s
  | .poll => poll s
  | .respond message toolCalls => respond s message toolCalls
  | .toolResult terminate => toolResult s terminate
  | .turn shouldStop => turn s shouldStop
  | .endRun => if s.phase = .ending then some { s with phase := .posted } else none
  | .fails unpersisted failure => fails s unpersisted failure
  | .crash => if s.phase.running then some { s with phase := .idle } else none
  | .handle settings =>
    if s.phase = .posted then some (s.handlePostAgentRun patterns settings) else none
  | .slept completed settings =>
    match s.phase with
    | .sleeping message =>
      if completed then some { s with phase := .continuing true }
      else some ({ s with retryAttempt := 0 }.afterRetry patterns settings message)
    | _ => none
  | .compacted firstKept =>
    match s.phase with
    | .compacting willRetry =>
      match firstKept with
      | none => some s.finish
      | some firstKept => some (s.compacted willRetry firstKept)
    | _ => none
  | .continue_ => continue_ s

end Steps

end Mcpi.CodingAgent.PostRun
