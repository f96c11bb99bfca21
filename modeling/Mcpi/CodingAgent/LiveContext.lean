import Mathlib.Data.List.Chain
import Mcpi.Agent.World
import Mcpi.Lib.Transition

/-!
# The live context and the persisted one

`agent.state.messages` and the current path of the session file get the same messages, at different moments.
A message is known by an id; a tool result also has the id of the assistant message that called the tool. A
message of the run is put into the live list first and persisted when the listeners have handled it; the run
waits for that.
-/

namespace Mcpi.CodingAgent.LiveContext

/-! ## Messages and entries -/

inductive Role
  | user
  | custom
  | bashExecution
  | branchSummary
  deriving DecidableEq

inductive Message
  | assistant (id : Nat) (stopReason : Mcpi.Agent.StopReason)
  | toolResult (assistant id : Nat)
  | compactionSummary (id : Nat)
  | other (role : Role) (id : Nat)
  deriving DecidableEq

/-- An entry of the path. A compaction keeps what is between its first kept entry and itself. -/
inductive Entry
  | message (message : Message)
  | compaction (id firstKept : Nat)
  deriving DecidableEq

/-- `sessionEntryToContextMessages` -/
def Entry.toMessage : Entry → Message
  | .message m => m
  | .compaction id _ => .compactionSummary id

/-- The latest compaction of a path, with what is before and after it. -/
def latestCompaction : List Entry → Option (List Entry × (Nat × Nat) × List Entry)
  | [] => none
  | entry :: path =>
    match latestCompaction path with
    | some (before, compaction, after) => some (entry :: before, compaction, after)
    | none =>
      match entry with
      | .compaction id firstKept => some ([], (id, firstKept), path)
      | .message _ => none

/-- `buildSessionContext` -/
def buildSessionContext (path : List Entry) : List Message :=
  match latestCompaction path with
  | none => path.map Entry.toMessage
  | some (before, (id, firstKept), after) =>
    .compactionSummary id :: (before.drop firstKept ++ after).map Entry.toMessage

/-! ## The session -/

inductive DeliverAs
  | steer
  | followUp
  | nextTurn
  deriving DecidableEq

/-- Where the session is. `running` has the assistant message whose tool results are still to come, and how
many; `postRun` is a run that may be continued. -/
inductive Phase
  | idle
  | running (tools : Option (Nat × Nat))
  | postRun
  deriving DecidableEq

/-- `waiting` is a message in the live list that has not been persisted yet, `earlier` has the paths that the
session has been on. -/
structure AgentSession where
  live : List Message
  path : List Entry
  earlier : List (List Entry)
  waiting : Option Message
  isAgentRunActive : Bool
  queued : List (Role × Nat)
  pendingNextTurnMessages : List (Role × Nat)
  pendingBashMessages : List Nat
  phase : Phase
  deriving DecidableEq

def AgentSession.create : AgentSession :=
  { live := []
    path := []
    earlier := []
    waiting := none
    isAgentRunActive := false
    queued := []
    pendingNextTurnMessages := []
    pendingBashMessages := []
    phase := .idle }

/-! ## Events -/

/-- What can happen. `takeBack` takes a failed or truncated response out of the live list, for a retry or a
compaction; `compacted` is a compaction, manual or automatic, that has succeeded; `navigate` goes to an entry
of an earlier path; `overlap` is a second prompt that comes into `_runAgentPrompt` during a run and leaves it
with an error. -/
inductive Event
  | prompt (id : Nat)
  | sendCustomMessage (id : Nat) (deliverAs : Option DeliverAs) (triggerTurn : Option Bool)
  | recordBashResult (id : Nat)
  | inject (i : Nat)
  | respond (id : Nat) (stopReason : Mcpi.Agent.StopReason) (toolCalls : Nat)
  | toolResult (id : Nat)
  | persist
  | endRun
  | runFails (id : Nat) (aborted : Bool)
  | takeBack
  | resume
  | leave
  | overlap
  | compacted (id firstKept : Nat) (willRetry : Bool)
  | navigate (i length : Nat) (summary : Option Nat)
  deriving DecidableEq

namespace AgentSession

/-- A message goes into both lists at once. -/
def record (s : AgentSession) (message : Message) : AgentSession :=
  { s with live := s.live ++ [message], path := s.path ++ [.message message] }

/-- `message_end`: the message is in the live list, and its listeners are called. -/
def push (s : AgentSession) (message : Message) : AgentSession :=
  { s with live := s.live ++ [message], waiting := some message }

def flushPendingBashMessages (s : AgentSession) : AgentSession :=
  { s with
    live := s.live ++ s.pendingBashMessages.map (.other .bashExecution)
    path := s.path ++ s.pendingBashMessages.map fun id => .message (.other .bashExecution id)
    pendingBashMessages := [] }

/-- The failed or truncated response at the end of the list -/
def takeBack (s : AgentSession) : AgentSession :=
  { s with
    live := match s.live.getLast? with
      | some (.assistant _ stopReason) =>
        if stopReason = .error ∨ stopReason = .length then s.live.dropLast else s.live
      | _ => s.live }

def sendCustomMessage (s : AgentSession) (id : Nat) (deliverAs : Option DeliverAs)
    (triggerTurn : Option Bool) : Option AgentSession :=
  if deliverAs = some .nextTurn then
    some { s with pendingNextTurnMessages := s.pendingNextTurnMessages ++ [(.custom, id)] }
  else if s.isAgentRunActive ∧ triggerTurn ≠ some false then
    some { s with queued := s.queued ++ [(.custom, id)] }
  else if triggerTurn = some true then
    if s.phase = .idle then
      some { s with
        isAgentRunActive := true, queued := s.queued ++ [(.custom, id)], phase := .running none }
    else none
  else some (s.record (.other .custom id))

def prompt (s : AgentSession) (id : Nat) : Option AgentSession :=
  if s.isAgentRunActive then some { s with queued := s.queued ++ [(.user, id)] }
  else if s.phase = .idle then
    some { s.flushPendingBashMessages with
      isAgentRunActive := true
      queued := s.queued ++ [(.user, id)] ++ s.pendingNextTurnMessages
      pendingNextTurnMessages := []
      phase := .running none }
  else none

/-- `appendCompaction`, and the live list is rebuilt -/
def compacted (s : AgentSession) (id firstKept : Nat) (willRetry : Bool) : AgentSession :=
  let path := s.path ++ [.compaction id firstKept]
  let s := { s with path, live := buildSessionContext path }
  if willRetry then s.takeBack else s

def navigate (s : AgentSession) (target : List Entry) (summary : Option Nat) : AgentSession :=
  let path := target ++ summary.toList.map fun id => .message (.other .branchSummary id)
  { s with path, live := buildSessionContext path, earlier := s.earlier ++ [s.path] }

end AgentSession

/-! ## Steps -/

def step (s : AgentSession) : Event → Option AgentSession
  | .prompt id => s.prompt id
  | .sendCustomMessage id deliverAs triggerTurn => s.sendCustomMessage id deliverAs triggerTurn
  | .recordBashResult id =>
    if s.isAgentRunActive then some { s with pendingBashMessages := s.pendingBashMessages ++ [id] }
    else some (s.record (.other .bashExecution id))
  | .inject i =>
    match s.phase, s.waiting, s.queued[i]? with
    | .running none, none, some (role, id) =>
      some ({ s with queued := s.queued.eraseIdx i }.push (.other role id))
    | _, _, _ => none
  | .respond id stopReason toolCalls =>
    match s.phase, s.waiting with
    | .running none, none =>
      some { s.push (.assistant id stopReason) with
        phase := .running (if toolCalls = 0 then none else some (id, toolCalls)) }
    | _, _ => none
  | .toolResult id =>
    match s.phase, s.waiting with
    | .running (some (assistant, toolCalls)), none =>
      some { s.push (.toolResult assistant id) with
        phase := .running (if toolCalls ≤ 1 then none else some (assistant, toolCalls - 1)) }
    | _, _ => none
  | .persist =>
    match s.waiting with
    | some message => some { s with path := s.path ++ [.message message], waiting := none }
    | none => none
  | .endRun =>
    match s.phase, s.waiting with
    | .running none, none => some { s with phase := .postRun }
    | _, _ => none
  | .runFails id aborted =>
    match s.phase with
    | .running _ =>
      some { s.push (.assistant id (if aborted then .aborted else .error)) with phase := .running none }
    | _ => none
  | .takeBack =>
    match s.phase with
    | .running _ => none
    | _ => some s.takeBack
  | .resume =>
    match s.phase with
    | .postRun => some { s with phase := .running none }
    | _ => none
  | .leave =>
    match s.phase with
    | .postRun => some { s.flushPendingBashMessages with isAgentRunActive := false, phase := .idle }
    | _ => none
  | .overlap =>
    match s.phase with
    | .running _ => some { s.flushPendingBashMessages with isAgentRunActive := false }
    | _ => none
  | .compacted id firstKept willRetry => some (s.compacted id firstKept willRetry)
  | .navigate i length summary =>
    match (s.path :: s.earlier)[i]? with
    | some target => some (s.navigate (target.take length) summary)
    | none => none

end Mcpi.CodingAgent.LiveContext
