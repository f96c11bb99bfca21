import Mcpi.Agent.Loop

/-!
# The transcript of a run

The events of a run are nested, unless a hook throws between two turns or a stream starts twice or
breaks off; `agent_end` carries the messages that have ended, unless something throws; and the transcript
is the one before the run with these messages.
-/

namespace Mcpi.AgentLoop

open Mcpi.Agent

variable {δ : Type}

/-! ## Nesting -/

/-- What is open: nothing yet, the run, a turn, a message, or nothing any more. -/
inductive Nesting where
  | start
  | agent
  | turn
  | message
  | ended
  deriving DecidableEq

/-- What an event opens or closes, where it may stand. -/
def nest : Nesting → AgentEvent δ → Option Nesting
  | .start, .agent_start => some .agent
  | .agent, .turn_start => some .turn
  | .agent, .agent_end _ => some .ended
  | .turn, .message_start _ => some .message
  | .turn, .tool_execution_start _ _ _ => some .turn
  | .turn, .tool_execution_update _ _ _ _ => some .turn
  | .turn, .tool_execution_end _ _ _ _ => some .turn
  | .turn, .turn_end _ _ => some .agent
  | .message, .message_update _ => some .message
  | .message, .message_end _ => some .turn
  | _, _ => none

/-- The messages of the `message_end` events. -/
def endedMessages (events : List (AgentEvent δ)) : List (AgentMessage δ) :=
  events.filterMap fun
    | .message_end message => some message
    | _ => none

/-- Neither the start nor the end of a run. -/
def Inner : AgentEvent δ → Prop
  | .agent_start | .agent_end _ => False
  | _ => True

/-- The events of a run that has not failed: `agent_end` carries the messages that have ended. -/
def EndsNormally (events : List (AgentEvent δ)) : Prop :=
  ∃ inner, (∀ event ∈ inner, Inner event) ∧ events = .agent_start :: (inner ++ [.agent_end (endedMessages inner)])

/-- After a run its events are as they should be, and the transcript is the one before the run with the
messages that have ended. -/
def Recorded (ended : List (AgentEvent δ) → Prop) (agent : Agent δ) : Prop :=
  agent.activeRun = none → agent.events ≠ [] →
    ended agent.events ∧ agent.messages.map Prod.snd = agent.before ++ endedMessages agent.events

/-- How often a stream starts, up to its end. -/
def starts : List (StreamEvent δ) → Nat
  | [] | .done :: _ => 0
  | .start _ :: rest => starts rest + 1
  | .update _ :: rest => starts rest

/-- No listener throws, and nothing that the loop waits for unless the run may fail. -/
def Returns (mayFail : Prop) : Step δ → Prop
  | .listeners (.error _) => False
  | .response _ (.error _) | .tools _ (.error _) | .prepared (.error _) | .stopDecision (.error _) =>
    mayFail
  | _ => True

/-- No listener throws, a stream starts at most once and does not break off after that, and the hooks
between two turns do not throw. -/
def Undisturbed : Step δ → Prop
  | .listeners (.error _) => False
  | .response streamed (.ok _) => starts streamed ≤ 1
  | .response streamed (.error _) => starts streamed = 0
  | .prepared (.error _) | .stopDecision (.error _) => False
  | _ => True

instance Returns.decide (mayFail : Prop) [Decidable mayFail] :
    ∀ event : Step δ, Decidable (Returns mayFail event)
  | .listeners (.error _) => .isFalse id
  | .response _ (.error _) | .tools _ (.error _) | .prepared (.error _) | .stopDecision (.error _) =>
    inferInstanceAs (Decidable mayFail)
  | .listeners (.ok _) | .response _ (.ok _) | .tools _ (.ok _) | .prepared (.ok _)
  | .stopDecision (.ok _) | .call _ | .prompt _ | .continueRun | .poll | .failure _ | .finish =>
    .isTrue trivial

instance Undisturbed.decide : ∀ event : Step δ, Decidable (Undisturbed event)
  | .listeners (.error _) => .isFalse id
  | .response _ (.ok _) => inferInstanceAs (Decidable (_ ≤ _))
  | .response _ (.error _) => inferInstanceAs (Decidable (_ = _))
  | .prepared (.error _) | .stopDecision (.error _) => .isFalse id
  | .listeners (.ok _) | .tools _ _ | .prepared (.ok _) | .stopDecision (.ok _) | .call _
  | .prompt _ | .continueRun | .poll | .failure _ | .finish => .isTrue trivial

theorem endedMessages_append (events events' : List (AgentEvent δ)) :
    endedMessages (events ++ events') = endedMessages events ++ endedMessages events' := by
  rw [endedMessages, List.filterMap_append]
  rfl

/-! ## Runs that keep to some rules -/

/-- What holds of the events of a run, emitted or to be emitted, by where the run is. -/
abbrev Expectation (δ : Type) :=
  Control δ → Bool → List (AgentMessage δ) → List (AgentEvent δ) → Prop

variable {expected : Expectation δ}

/-- The expectation of a run after the given events. -/
def Meets (expected : Expectation δ) (run : ActiveRun δ) (events : List (AgentEvent δ)) : Prop :=
  expected run.control run.firstTurn run.newMessages (events ++ run.emits.map Emit.event)

/-- What each part of the loop does to an expectation, and what it comes to in the end. -/
structure Rules (expected : Expectation δ) (ended : List (AgentEvent δ) → Prop)
    (clean : Agent δ → Step δ → Prop) : Prop where
  listeners : ∀ {agent error}, ¬ clean agent (.listeners (.error error))
  start : ∀ origin prompts, expected (.getSteeringMessages true) true prompts
    ([.agent_start, .turn_start] ++ (messageEvents origin prompts).map Emit.event)
  steering : ∀ {run : ActiveRun δ} {events hasMoreToolCalls} origin pendingMessages,
    expected (.getSteeringMessages hasMoreToolCalls) run.firstTurn run.newMessages events →
      Meets expected (run.startTurn origin pendingMessages) events
  noSteering : ∀ {newMessages events}, expected (.getSteeringMessages false) false newMessages events →
    expected .getFollowUpMessages false newMessages events
  followUps : ∀ {run : ActiveRun δ} {events} origin followUpMessages, run.firstTurn = false →
    expected .getFollowUpMessages false run.newMessages events →
      Meets expected (run.startTurn origin followUpMessages) events
  noFollowUps : ∀ {run : ActiveRun δ} {events}, run.firstTurn = false →
    expected .getFollowUpMessages false run.newMessages events → Meets expected run.endRun events
  respond : ∀ {agent : Agent δ} {run : ActiveRun δ} {streamed result}, run.firstTurn = false →
    expected .streamAssistantResponse false run.newMessages agent.events →
      clean agent (.response streamed result) → Meets expected (run.respond streamed result) agent.events
  toolBatch : ∀ {agent : Agent δ} {run : ActiveRun δ} {message emitted result}, run.firstTurn = false →
    expected (.executeToolCalls message) false run.newMessages agent.events → clean agent (.tools emitted result) →
        Meets expected (run.toolBatch message emitted result) agent.events
  prepared : ∀ {newMessages events hasMoreToolCalls},
    expected (.prepareNextTurn hasMoreToolCalls) false newMessages events →
      expected (.shouldStopAfterTurn hasMoreToolCalls) false newMessages events
  prepareFails : ∀ {agent : Agent δ} {newMessages hasMoreToolCalls error},
    expected (.prepareNextTurn hasMoreToolCalls) false newMessages agent.events →
      clean agent (.prepared (.error error)) → expected (.failed error) false newMessages agent.events
  stops : ∀ {run : ActiveRun δ} {events hasMoreToolCalls}, run.firstTurn = false →
    expected (.shouldStopAfterTurn hasMoreToolCalls) false run.newMessages events → Meets expected run.endRun events
  goesOn : ∀ {newMessages events hasMoreToolCalls},
    expected (.shouldStopAfterTurn hasMoreToolCalls) false newMessages events →
      expected (.getSteeringMessages hasMoreToolCalls) false newMessages events
  stopFails : ∀ {agent : Agent δ} {newMessages hasMoreToolCalls error},
    expected (.shouldStopAfterTurn hasMoreToolCalls) false newMessages agent.events →
      clean agent (.stopDecision (.error error)) → expected (.failed error) false newMessages agent.events
  failure : ∀ {run : ActiveRun δ} {events error} model now, run.firstTurn = false →
    expected (.failed error) false run.newMessages events → Meets expected (run.handleRunFailure model error now) events
  finished : ∀ {newMessages events}, expected .finished false newMessages events → ended events
  handled : ∀ {newMessages events}, expected .handled false newMessages events → ended events

structure Tracks (expected : Expectation δ) (agent : Agent δ) (run : ActiveRun δ) : Prop where
  meets : Meets expected run agent.events
  firstTurn : run.firstTurn = true → run.control = .getSteeringMessages true
  messages : agent.messages.map Prod.snd = agent.before ++ endedMessages agent.events

/-- **The invariant.** -/
def OnRecord (expected : Expectation δ) (ended : List (AgentEvent δ) → Prop) (agent : Agent δ) : Prop :=
  match agent.activeRun with
  | none => agent.events ≠ [] →
      ended agent.events ∧ agent.messages.map Prod.snd = agent.before ++ endedMessages agent.events
  | some run => Tracks expected agent run

/-! ## Steps -/

section Steps

variable {ended : List (AgentEvent δ) → Prop} {clean : Agent δ → Step δ → Prop} {agent agent' : Agent δ}
  {run run' : ActiveRun δ}

theorem OnRecord.recorded (h : OnRecord expected ended agent) : Recorded ended agent := by
  intro hidle hevents
  unfold OnRecord at h
  rw [hidle] at h
  exact h hevents

theorem OnRecord.apply (h : OnRecord expected ended agent) (call : ApiCall δ) :
    OnRecord expected ended (agent.apply call) := by
  unfold OnRecord at h ⊢
  cases hrun : agent.activeRun with
  | none =>
    rw [hrun] at h
    have hidle : (agent.apply call).activeRun = none := by
      cases call <;> first | exact hrun | (unfold Agent.apply; rw [hrun]; rfl)
    rw [hidle]
    intro hevents
    cases call <;> exact h hevents
  | some run =>
    rw [hrun] at h
    obtain ⟨run', hactive, hmeets, hfirst⟩ : ∃ run', (agent.apply call).activeRun = some run' ∧
        Meets expected run' agent.events ∧ (run'.firstTurn = true → run'.control = .getSteeringMessages true) := by
      cases call with
      | abort =>
        refine ⟨{ run with aborted := true }, ?_, h.meets, h.firstTurn⟩
        unfold Agent.apply
        rw [hrun]
        rfl
      | _ => exact ⟨run, hrun, h.meets, h.firstTurn⟩
    rw [hactive]
    refine ⟨?_, hfirst, ?_⟩
    · cases call <;> exact hmeets
    · cases call <;> exact h.messages

theorem Rules.startRun (rules : Rules expected ended clean) (agent : Agent δ) (origin : Origin)
    (prompts : List (AgentMessage δ)) (skip : Bool) :
    OnRecord expected ended (agent.startRun origin prompts skip) := by
  refine ⟨?_, fun _ => rfl, ?_⟩
  · exact rules.start origin prompts
  · exact (List.append_nil _).symm

theorem Rules.prompt (rules : Rules expected ended clean) (h : OnRecord expected ended agent)
    (messages : List (AgentMessage δ)) : OnRecord expected ended (agent.prompt messages) := by
  unfold Agent.prompt
  split
  · exact h
  · exact rules.startRun agent .other messages false

theorem Rules.continueRun (rules : Rules expected ended clean) (h : OnRecord expected ended agent) :
    OnRecord expected ended agent.continueRun := by
  unfold Agent.continueRun
  split
  · exact h
  · exact h
  · dsimp only
    split
    · exact rules.startRun _ .steering _ true
    · split
      · exact rules.startRun _ .followUp _ false
      · exact h
  · exact rules.startRun agent .other [] false

theorem Tracks.emitted (h : Tracks expected agent run) {emit : Emit δ} {rest : List (Emit δ)}
    (hemits : run.emits = emit :: rest) :
    OnRecord expected ended (agent.emitNext run emit rest (.ok ())) := by
  have hevents : (agent.process emit).events = agent.events ++ [emit.event] := by
    unfold Agent.process
    split <;> rfl
  have hbefore : (agent.process emit).before = agent.before := by
    unfold Agent.process
    split <;> rfl
  refine ⟨?_, h.firstTurn, ?_⟩
  · show expected _ _ _ ((agent.process emit).events ++ rest.map Emit.event)
    rw [hevents, List.append_assoc, List.singleton_append, ← List.map_cons, ← hemits]
    exact h.meets
  · show (agent.process emit).messages.map Prod.snd =
      (agent.process emit).before ++ endedMessages (agent.process emit).events
    rw [hevents, hbefore, endedMessages_append, ← List.append_assoc, ← h.messages]
    unfold Agent.process
    split
    next message hevent =>
      rw [hevent, List.map_append]
      rfl
    next hevent =>
      have hnone : endedMessages [emit.event] = [] := by
        cases hcase : emit.event with
        | message_end message => exact absurd hcase (hevent message)
        | _ => rfl
      rw [hnone, List.append_nil]

theorem Tracks.next (h : Tracks expected agent run) (hactive : agent'.activeRun = some run')
    (hevents : agent'.events = agent.events) (hbefore : agent'.before = agent.before)
    (hmessages : agent'.messages = agent.messages) (hmeets : Meets expected run' agent.events)
    (hfirst : run'.firstTurn = false) : OnRecord expected ended agent' := by
  unfold OnRecord
  rw [hactive]
  refine ⟨?_, fun htrue => absurd (hfirst.symm.trans htrue) nofun, ?_⟩
  · rw [hevents]
    exact hmeets
  · rw [hmessages, hbefore, hevents]
    exact h.messages

theorem Tracks.begun (h : Tracks expected agent run) (hne : run.control ≠ .getSteeringMessages true) :
    run.firstTurn = false := by
  cases hfirst : run.firstTurn with
  | false => rfl
  | true => exact absurd (h.firstTurn hfirst) hne

theorem respond_firstTurn (run : ActiveRun δ) (streamed : List (StreamEvent δ))
    (result : Except String (AssistantMessage δ)) :
    (run.respond streamed result).firstTurn = run.firstTurn := by
  unfold ActiveRun.respond
  split
  · rfl
  · split
    · rfl
    · split <;> rfl

theorem toolBatch_firstTurn (run : ActiveRun δ) (message : AssistantMessage δ)
    (emitted : List (ToolEmit δ)) (result : Except String Bool) :
    (run.toolBatch message emitted result).firstTurn = run.firstTurn := by
  unfold ActiveRun.toolBatch
  split <;> rfl

theorem Rules.pollSteering (rules : Rules expected ended clean) (h : Tracks expected agent run)
    (hemits : run.emits = []) {hasMoreToolCalls : Bool}
    (hcontrol : run.control = .getSteeringMessages hasMoreToolCalls) :
    OnRecord expected ended (agent.pollSteering run hasMoreToolCalls) := by
  have hmeets := h.meets
  rw [Meets, hemits, List.map_nil, List.append_nil, hcontrol] at hmeets
  unfold Agent.pollSteering
  dsimp only
  split
  · exact h.next rfl rfl rfl rfl (rules.steering _ _ hmeets) rfl
  next hnone =>
    have hmore : hasMoreToolCalls = false := by
      cases hasMoreToolCalls with
      | false => rfl
      | true => exact absurd (.inl rfl) hnone
    have hfirst : run.firstTurn = false := by
      apply h.begun
      rw [hcontrol, hmore]
      nofun
    rw [hfirst, hmore] at hmeets
    refine h.next rfl rfl rfl rfl ?_ hfirst
    show expected .getFollowUpMessages run.firstTurn run.newMessages (agent.events ++ List.map _ run.emits)
    rw [hfirst, hemits, List.map_nil, List.append_nil]
    exact rules.noSteering hmeets

/-- **A step of the run**, which has emitted its events. -/
theorem Rules.control (rules : Rules expected ended clean) (h : Tracks expected agent run)
    (hemits : run.emits = []) {event : Step δ} (hclean : clean agent event)
    (hstep : agent.control run event = some agent') : OnRecord expected ended agent' := by
  have hmeets := h.meets
  rw [Meets, hemits, List.map_nil, List.append_nil] at hmeets
  -- a step that emits nothing
  have hsilent : ∀ control, expected control false run.newMessages agent.events →
      run.firstTurn = false → Meets expected { run with control := control } agent.events := by
    intro control hexpected hfirst
    show expected control run.firstTurn run.newMessages (agent.events ++ List.map _ run.emits)
    rw [hfirst, hemits, List.map_nil, List.append_nil]
    exact hexpected
  unfold Agent.control at hstep
  split at hstep
  · split at hstep
    next hcontrol =>
      cases hstep
      exact rules.pollSteering h hemits hcontrol
    next hcontrol =>
      cases hstep
      have hfirst := h.begun (by rw [hcontrol]; nofun)
      rw [hcontrol, hfirst] at hmeets
      unfold Agent.pollFollowUps
      dsimp only
      split
      · exact h.next rfl rfl rfl rfl (rules.followUps _ _ hfirst hmeets) rfl
      · exact h.next rfl rfl rfl rfl (rules.noFollowUps hfirst hmeets) hfirst
    · cases hstep
  · split at hstep
    next hcontrol =>
      cases hstep
      have hfirst := h.begun (by rw [hcontrol]; nofun)
      rw [hcontrol, hfirst] at hmeets
      exact h.next rfl rfl rfl rfl (rules.respond hfirst hmeets hclean) ((respond_firstTurn _ _ _).trans hfirst)
    · cases hstep
  · split at hstep
    next hcontrol =>
      cases hstep
      have hfirst := h.begun (by rw [hcontrol]; nofun)
      rw [hcontrol, hfirst] at hmeets
      exact h.next rfl rfl rfl rfl (rules.toolBatch hfirst hmeets hclean) ((toolBatch_firstTurn _ _ _ _).trans hfirst)
    · cases hstep
  · split at hstep
    next hcontrol =>
      cases hstep
      have hfirst := h.begun (by rw [hcontrol]; nofun)
      rw [hcontrol, hfirst] at hmeets
      exact h.next rfl rfl rfl rfl (hsilent _ (rules.prepared hmeets) hfirst) hfirst
    next hcontrol =>
      cases hstep
      have hfirst := h.begun (by rw [hcontrol]; nofun)
      rw [hcontrol, hfirst] at hmeets
      exact h.next rfl rfl rfl rfl (hsilent _ (rules.prepareFails hmeets hclean) hfirst) hfirst
    · cases hstep
  · split at hstep
    next hcontrol =>
      cases hstep
      have hfirst := h.begun (by rw [hcontrol]; nofun)
      rw [hcontrol, hfirst] at hmeets
      exact h.next rfl rfl rfl rfl (rules.stops hfirst hmeets) hfirst
    next hcontrol =>
      cases hstep
      have hfirst := h.begun (by rw [hcontrol]; nofun)
      rw [hcontrol, hfirst] at hmeets
      exact h.next rfl rfl rfl rfl (hsilent _ (rules.goesOn hmeets) hfirst) hfirst
    next hcontrol =>
      cases hstep
      have hfirst := h.begun (by rw [hcontrol]; nofun)
      rw [hcontrol, hfirst] at hmeets
      exact h.next rfl rfl rfl rfl (hsilent _ (rules.stopFails hmeets hclean) hfirst) hfirst
    · cases hstep
  · split at hstep
    next hcontrol =>
      cases hstep
      have hfirst := h.begun (by rw [hcontrol]; nofun)
      rw [hcontrol, hfirst] at hmeets
      exact h.next rfl rfl rfl rfl (rules.failure _ _ hfirst hmeets) hfirst
    · cases hstep
  · split at hstep
    next hcontrol =>
      cases hstep
      rw [hcontrol, h.begun (by rw [hcontrol]; nofun)] at hmeets
      exact fun _ => ⟨rules.finished hmeets, h.messages⟩
    next hcontrol =>
      cases hstep
      rw [hcontrol, h.begun (by rw [hcontrol]; nofun)] at hmeets
      exact fun _ => ⟨rules.handled hmeets, h.messages⟩
    · cases hstep
  · cases hstep

/-- **One step.** -/
theorem Rules.step (rules : Rules expected ended clean) (h : OnRecord expected ended agent)
    {event : Step δ} (hclean : clean agent event) (hstep : AgentLoop.step agent event = some agent') :
    OnRecord expected ended agent' := by
  have htracks : ∀ run, agent.activeRun = some run → Tracks expected agent run := by
    intro run hrun
    unfold OnRecord at h
    rw [hrun] at h
    exact h
  unfold AgentLoop.step at hstep
  split at hstep
  · cases hstep
    exact h.apply _
  · cases hstep
    exact rules.prompt h _
  · cases hstep
    exact rules.continueRun h
  next result =>
    split at hstep
    next run hrun =>
      split at hstep
      next hemits =>
        cases hstep
        cases result with
        | ok done => exact (htracks run hrun).emitted hemits
        | error error => exact absurd hclean rules.listeners
      · cases hstep
    · cases hstep
  · split at hstep
    next run hrun =>
      obtain ⟨hempty, hstep⟩ := Option.ite_none_right_eq_some.mp hstep
      exact rules.control (htracks run hrun) (List.isEmpty_iff.mp hempty) hclean hstep
    · cases hstep

/-- **A whole run**, and the runs after it. -/
theorem Rules.recorded (rules : Rules expected ended clean) (agent : Agent δ) (origin : Origin)
    (prompts : List (AgentMessage δ)) (skip : Bool) {events : List (Step δ)}
    (h : Transition.Clean AgentLoop.step clean (agent.startRun origin prompts skip) events) :
    Transition.Always AgentLoop.step (Recorded ended) (agent.startRun origin prompts skip) events :=
  Transition.always_of_clean (fun _ hrecord => hrecord.recorded)
    (fun _ _ _ hrecord hclean hstep => rules.step hrecord hclean hstep)
    (rules.startRun agent origin prompts skip) h

end Steps

end Mcpi.AgentLoop
