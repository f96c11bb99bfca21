import Mcpi.Agent.Transcript

/-!
# The events of a run

What the rules of the loop give for the two things to be said of the events: that they are nested,
which a hook that throws between two turns and a stream that starts twice or breaks off can break, and
that a run starts once, ends once and carries its messages in `agent_end`, where a run that fails carries
the failure alone.
-/

namespace Mcpi.AgentLoop

open Mcpi.Agent

variable {δ : Type}

/-! ## Nested parts -/

variable {streamed : List (StreamEvent δ)}

section Parts

variable {events events' : List (AgentEvent δ)} {place place' place'' : Nesting}

/-- Some events keep to the nesting. -/
def Part (place : Nesting) (events : List (AgentEvent δ)) (place' : Nesting) : Prop :=
  Transition.run nest place events = some place'

theorem Part.append (h : Part place events place') (h' : Part place' events' place'') :
    Part place (events ++ events') place'' :=
  Transition.run_append.mpr ⟨place', h, h'⟩

end Parts

section Nested

variable {run : ActiveRun δ} {events : List (AgentEvent δ)}

end Nested

/-! ## The start and the end -/

section Stretches

/-- Some events inside a run, and the messages that end in them. -/
structure Stretch (events : List (AgentEvent δ)) (messages : List (AgentMessage δ)) : Prop where
  inner : ∀ event ∈ events, Inner event
  ended : endedMessages events = messages

variable {run : ActiveRun δ} {events events' : List (AgentEvent δ)}
  {messages messages' : List (AgentMessage δ)} {mayFail : Prop}

theorem Stretch.append (h : Stretch events messages) (h' : Stretch events' messages') :
    Stretch (events ++ events') (messages ++ messages') := by
  refine ⟨fun event hevent => ?_, ?_⟩
  · rcases List.mem_append.mp hevent with hleft | hright
    · exact h.inner event hleft
    · exact h'.inner event hright
  · rw [endedMessages_append, h.ended, h'.ended]

/-- A run that has begun. -/
def Begun (events : List (AgentEvent δ)) (messages : List (AgentMessage δ)) : Prop :=
  ∃ inner, events = .agent_start :: inner ∧ Stretch inner messages

theorem Begun.append (h : Begun events messages) (h' : Stretch events' messages') :
    Begun (events ++ events') (messages ++ messages') := by
  obtain ⟨inner, rfl, hinner⟩ := h
  exact ⟨inner ++ events', rfl, hinner.append h'⟩

theorem EndsNormally.getLast? (h : EndsNormally events) :
    events.getLast? = some (.agent_end (endedMessages events)) := by
  obtain ⟨inner, -, rfl⟩ := h
  rw [← List.cons_append, List.getLast?_concat, endedMessages_append]
  exact congrArg (fun messages => some (AgentEvent.agent_end messages)) (List.append_nil _).symm

end Stretches

/-! ## Runs -/

section Samples

def samplePrompt : Agent Nat := (Agent.create "m" [] .all .all).startRun .other [.user 0] false

def sampleAnswer : AssistantMessage Nat := ⟨[], "m", .stop, none, 0⟩

/-- The failure is reported. -/
def reported : List (Step Nat) :=
  [.failure 0, .listeners (.ok ()), .listeners (.ok ()), .listeners (.ok ()), .listeners (.ok ()), .finish]

variable {ended : List (AgentEvent Nat) → Prop} {events : List (Step Nat)}

end Samples

end Mcpi.AgentLoop
