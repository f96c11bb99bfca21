import Mcpi.Lib.Transition

/-!
# Overlapping prompts

A prompt of `AgentSession` goes through several awaits before its run starts, and other calls come in between.
Calls and custom messages are numbered in the order in which they are made. What the run of the agent does is
its own matter: here it takes its messages into the transcript, ends or fails, and is continued. An abort shows
in how a run ends.
-/

namespace Mcpi.CodingAgent.Prompting

/-! ## Calls -/

inductive Kind
  | prompt
  | custom
  deriving DecidableEq

inductive StreamingBehavior
  | steer
  | followUp
  deriving DecidableEq

inductive DeliverAs
  | steer
  | followUp
  | nextTurn
  deriving DecidableEq

/-- The user message of a prompt, a custom message, and the messages of the `before_agent_start` handlers. -/
inductive Message
  | user (call : Nat)
  | custom (id : Nat)
  | nextTurn (id : Nat)
  | extension (call : Nat)
  deriving DecidableEq

/-- A call that is handled has been taken over by an extension: it has no user message. -/
inductive Outcome
  | resolved
  | handled
  | rejected
  deriving DecidableEq

/-- Where a call is. `running` has the messages that are not yet in the transcript, `leaving` is before the
finally block of `_runAgentPrompt`, `settling` is while the handlers of `agent_settled` run. -/
inductive Phase
  | idle
  | command
  | input
  | auth
  | compaction
  | beforeAgentStart (messages : List Message)
  | running (messages : List Message)
  | postRun
  | leaving (rejects : Bool)
  | settling (rejects : Bool)
  | done (outcome : Outcome)
  deriving DecidableEq

structure Call where
  kind : Kind
  streamingBehavior : Option StreamingBehavior
  ran : Bool
  phase : Phase
  deriving DecidableEq

/-! ## The session -/

inductive Channel
  | extensions
  | listeners
  deriving DecidableEq

/-- `queued` has every message that has been put into a queue, `settled` the events `agent_settled` that have
been emitted, `overlapped` those among them that have been while another run was active. -/
structure AgentSession where
  isAgentRunActive : Bool
  activeRun : Option Nat
  compacting : Bool
  pendingNextTurnMessages : List Message
  calls : Nat → Call
  next : Nat
  queued : List Message
  transcript : List Message
  settled : List (Channel × Nat)
  overlapped : List (Channel × Nat)
  given : List Nat

def Call.none : Call := { kind := .custom, streamingBehavior := .none, ran := false, phase := .idle }

def AgentSession.create : AgentSession :=
  { isAgentRunActive := false
    activeRun := none
    compacting := false
    pendingNextTurnMessages := []
    calls := fun _ => .none
    next := 0
    queued := []
    transcript := []
    settled := []
    overlapped := []
    given := [] }

/-- The run of a call is active, or its continuation pending. -/
def Phase.inRun : Phase → Bool
  | .running _ => true
  | .postRun => true
  | _ => false

/-- The call is in `_runAgentPrompt`. -/
def Phase.inside : Phase → Bool
  | .running _ => true
  | .postRun => true
  | .leaving _ => true
  | .settling _ => true
  | _ => false

/-- The messages that a call has taken and not yet brought into the transcript -/
def Phase.held : Phase → List Message
  | .beforeAgentStart messages => messages
  | .running messages => messages
  | _ => []

/-! ## Steps -/

inductive Event
  | prompt (streamingBehavior : Option StreamingBehavior)
  | handled (i : Nat)
  | submit (i : Nat)
  | input (i : Nat)
  | authorized (i : Nat)
  | compacted (i : Nat)
  | rejects (i : Nat)
  | start (i : Nat) (extensionMessages : Nat)
  | sendCustomMessage (deliverAs : Option DeliverAs) (triggerTurn : Option Bool)
  | messageEnd (i : Nat)
  | runEnds (i : Nat)
  | runFails (i : Nat)
  | continues (i : Nat)
  | throws (i : Nat)
  | finishes (i : Nat)
  | settle (i : Nat) (flushFails : Bool)
  | settled (i : Nat) (throws : Bool)
  | compact (starts : Bool)
  deriving DecidableEq

namespace AgentSession

def set (s : AgentSession) (i : Nat) (call : Call) : AgentSession :=
  { s with calls := fun j => if j = i then call else s.calls j }

def goto (s : AgentSession) (i : Nat) (phase : Phase) : AgentSession :=
  s.set i { s.calls i with phase }

/-- The run of another call is active. -/
def otherActive (s : AgentSession) (i : Nat) : Bool :=
  (List.range s.next).any fun j => j ≠ i && (s.calls j).phase.inRun

def emitSettled (s : AgentSession) (channel : Channel) (i : Nat) : AgentSession :=
  { s with
    settled := s.settled ++ [(channel, i)]
    overlapped := if s.otherActive i then s.overlapped ++ [(channel, i)] else s.overlapped }

/-- `_runAgentPrompt`, up to the run of the agent -/
def runAgentPrompt (s : AgentSession) (i : Nat) (call : Call) (messages : List Message) : AgentSession :=
  match s.activeRun with
  | none =>
    { s with isAgentRunActive := true, activeRun := some i }.set i
      { call with ran := true, phase := .running messages }
  | some _ => { s with isAgentRunActive := true }.set i { call with phase := .leaving true }

/-- A prompt behind its input handlers: queued while the session is streaming -/
def afterInput (s : AgentSession) (i : Nat) : AgentSession :=
  if s.isAgentRunActive then
    match (s.calls i).streamingBehavior with
    | none => s.goto i (.done .rejected)
    | some _ => { s with queued := s.queued ++ [Message.user i] }.goto i (.done .resolved)
  else s.goto i .auth

def sendCustomMessage (s : AgentSession) (deliverAs : Option DeliverAs) (triggerTurn : Option Bool) :
    AgentSession :=
  let id := s.next
  let s := { s with next := id + 1 }
  if deliverAs = some .nextTurn then
    { s with
      pendingNextTurnMessages := s.pendingNextTurnMessages ++ [.nextTurn id]
      given := s.given ++ [id] }
  else if s.isAgentRunActive ∧ triggerTurn ≠ some false then
    { s with queued := s.queued ++ [.custom id] }
  else if triggerTurn = some true then s.runAgentPrompt id .none [.custom id]
  else { s with transcript := s.transcript ++ [.custom id] }

end AgentSession

def step (s : AgentSession) : Event → Option AgentSession
  | .prompt streamingBehavior =>
    some ({ s with next := s.next + 1 }.set s.next
      { kind := .prompt, streamingBehavior, ran := false, phase := .command })
  | .handled i =>
    match (s.calls i).phase with
    | .command => some (s.goto i (.done .handled))
    | .input => some (s.goto i (.done .handled))
    | _ => none
  | .submit i =>
    match (s.calls i).phase with
    | .command => some (s.goto i (if s.compacting then .done .rejected else .input))
    | _ => none
  | .input i =>
    match (s.calls i).phase with
    | .input => some (s.afterInput i)
    | _ => none
  | .authorized i =>
    match (s.calls i).phase with
    | .auth => some (s.goto i .compaction)
    | _ => none
  | .compacted i =>
    match (s.calls i).phase with
    | .compaction =>
      some ({ s with pendingNextTurnMessages := [] }.goto i (.beforeAgentStart (.user i :: s.pendingNextTurnMessages)))
    | _ => none
  | .rejects i =>
    match (s.calls i).phase with
    | .auth => some (s.goto i (.done .rejected))
    | .compaction => some (s.goto i (.done .rejected))
    | .beforeAgentStart _ => some (s.goto i (.done .rejected))
    | _ => none
  | .start i extensionMessages =>
    match (s.calls i).phase with
    | .beforeAgentStart messages =>
      some (s.runAgentPrompt i (s.calls i) (messages ++ List.replicate extensionMessages (.extension i)))
    | _ => none
  | .sendCustomMessage deliverAs triggerTurn => some (s.sendCustomMessage deliverAs triggerTurn)
  | .messageEnd i =>
    match (s.calls i).phase with
    | .running (message :: messages) =>
      some ({ s with transcript := s.transcript ++ [message] }.goto i (.running messages))
    | _ => none
  | .runEnds i =>
    match (s.calls i).phase with
    | .running [] => some ({ s with activeRun := none }.goto i .postRun)
    | _ => none
  | .runFails i =>
    match (s.calls i).phase with
    | .running _ => some ({ s with activeRun := none }.goto i .postRun)
    | _ => none
  | .continues i =>
    match (s.calls i).phase with
    | .postRun =>
      match s.activeRun with
      | none => some ({ s with activeRun := some i }.goto i (.running []))
      | some _ => some (s.goto i (.leaving true))
    | _ => none
  | .throws i =>
    match (s.calls i).phase with
    | .postRun => some (s.goto i (.leaving true))
    | _ => none
  | .finishes i =>
    match (s.calls i).phase with
    | .postRun => some (s.goto i (.leaving false))
    | _ => none
  | .settle i flushFails =>
    match (s.calls i).phase with
    | .leaving rejects =>
      if flushFails then some (s.goto i (.done .rejected))
      else some ({ s.emitSettled .extensions i with isAgentRunActive := false }.goto i (.settling rejects))
    | _ => none
  | .settled i throws =>
    match (s.calls i).phase with
    | .settling rejects =>
      some ((s.emitSettled .listeners i).goto i (.done (if rejects || throws then .rejected else .resolved)))
    | _ => none
  | .compact starts => some { s with compacting := starts }

end Mcpi.CodingAgent.Prompting
