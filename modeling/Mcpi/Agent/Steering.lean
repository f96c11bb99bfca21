import Mcpi.Agent.Loop

/-!
# Queued messages

A message that has been queued and not cleared is in its queue, or has been taken off it and waits
to be emitted, or is in the transcript. What waits is lost if a listener throws before it is its turn.
-/

namespace Mcpi.AgentLoop

open Mcpi.Agent

variable {δ : Type}

/-! ## What waits -/

/-- The message that an emit brings into the transcript, if it has come from the given queue. -/
def Emit.brings (origin : Origin) (emit : Emit δ) : Option (AgentMessage δ) :=
  match emit.event with
  | .message_end message => if emit.origin = origin then some message else none
  | _ => none

/-- The messages of a queue that some emits bring into the transcript. -/
def waiting (origin : Origin) (emits : List (Emit δ)) : List (AgentMessage δ) :=
  emits.filterMap (Emit.brings origin)

/-- The messages of a queue that are in the transcript, in order. -/
def entered (origin : Origin) (messages : List (Origin × AgentMessage δ)) : List (AgentMessage δ) :=
  (messages.filter fun m => m.1 = origin).map Prod.snd

def Agent.emits (agent : Agent δ) : List (Emit δ) :=
  match agent.activeRun with
  | some run => run.emits
  | none => []

/-- The messages of a queue are in the transcript, waiting or queued, in the order in which they have
been queued. -/
def Balanced (origin : Origin) (agent : Agent δ) (queue : PendingMessageQueue δ)
    (queued : List (AgentMessage δ)) : Prop :=
  entered origin agent.messages ++ waiting origin agent.emits ++ queue.messages = queued

structure Agent.Kept (agent : Agent δ) : Prop where
  steering : Balanced .steering agent agent.steeringQueue agent.steered
  followUp : Balanced .followUp agent agent.followUpQueue agent.followedUp

/-- No listener throws before the drained messages have all been brought into the transcript. -/
def KeepsWaiting (agent : Agent δ) : Step δ → Prop
  | .listeners (.error _) =>
    waiting .steering agent.emits.tail = [] ∧ waiting .followUp agent.emits.tail = []
  | _ => True

instance KeepsWaiting.decide [DecidableEq δ] (agent : Agent δ) :
    ∀ event : Step δ, Decidable (KeepsWaiting agent event)
  | .listeners (.error _) => inferInstanceAs (Decidable (_ ∧ _))
  | .listeners (.ok _) | .call _ | .prompt _ | .continueRun | .poll | .response _ _ | .tools _ _
  | .prepared _ | .stopDecision _ | .failure _ | .finish => .isTrue trivial

section Waiting

variable {origin : Origin} {messages : List (AgentMessage δ)} {emits emits' : List (Emit δ)}

theorem waiting_append : waiting origin (emits ++ emits') = waiting origin emits ++ waiting origin emits' := by
  rw [waiting, List.filterMap_append]
  rfl

theorem waiting_others (h : origin ≠ .other) (events : List (AgentEvent δ)) : waiting origin (others events) = [] := by
  rw [waiting, List.filterMap_eq_nil_iff]
  intro emit hemit
  obtain ⟨event, -, rfl⟩ := List.mem_map.mp hemit
  unfold Emit.brings
  split
  · exact if_neg h.symm
  · rfl

theorem waiting_pair (origin' : Origin) (message : AgentMessage δ) :
    waiting origin [⟨origin', .message_start message⟩, ⟨origin', .message_end message⟩] =
      if origin' = origin then [message] else [] := by
  have hend : Emit.brings origin ⟨origin', .message_end message⟩ =
      if origin' = origin then some message else none := rfl
  unfold waiting
  rw [List.filterMap_cons_none rfl]
  by_cases h : origin' = origin
  · rw [if_pos h] at hend ⊢
    rw [List.filterMap_cons_some hend]
    rfl
  · rw [if_neg h] at hend ⊢
    rw [List.filterMap_cons_none hend]
    rfl

theorem waiting_messageEvents (origin' : Origin) (messages : List (AgentMessage δ)) :
    waiting origin (messageEvents origin' messages) = if origin' = origin then messages else [] := by
  induction messages with
  | nil => simp [messageEvents, waiting]
  | cons message messages ih =>
    have hcons : messageEvents origin' (message :: messages) =
        [⟨origin', .message_start message⟩, ⟨origin', .message_end message⟩] ++ messageEvents origin' messages := rfl
    rw [hcons, waiting_append, ih, waiting_pair]
    by_cases h : origin' = origin <;> simp [h]

theorem entered_concat (transcript : List (Origin × AgentMessage δ)) (origin' : Origin)
    (message : AgentMessage δ) : entered origin (transcript ++ [(origin', message)]) =
      entered origin transcript ++ if origin' = origin then [message] else [] := by
  unfold entered
  rw [List.filter_append, List.map_append]
  by_cases h : origin' = origin <;> simp [h]

end Waiting

theorem drain_append (queue : PendingMessageQueue δ) : queue.drain.1 ++ queue.drain.2.messages = queue.messages := by
  unfold PendingMessageQueue.drain
  split
  · exact List.append_nil _
  · rfl
  next heq => exact heq.symm

/-! ## Steps -/

section Steps

variable {agent : Agent δ} {run run' : ActiveRun δ} {origin : Origin}
  {queue : PendingMessageQueue δ} {queued : List (AgentMessage δ)}

theorem Balanced.enqueue (h : Balanced origin agent queue queued) (message : AgentMessage δ) :
    Balanced origin agent (queue.enqueue message) (queued ++ [message]) := by
  rw [← h]
  exact (List.append_assoc _ _ _).symm

theorem Balanced.clear (h : Balanced origin agent queue queued) :
    Balanced origin agent queue.clear (cleared queued queue) := by
  unfold Balanced cleared PendingMessageQueue.clear at *
  rw [← h, List.length_append, Nat.add_sub_cancel, List.take_left, List.append_nil]

theorem Agent.Kept.apply (h : agent.Kept) (call : ApiCall δ) : (agent.apply call).Kept := by
  obtain ⟨hsteering, hfollowUp⟩ := h
  cases call with
  | steer message => exact ⟨hsteering.enqueue message, hfollowUp⟩
  | followUp message => exact ⟨hsteering, hfollowUp.enqueue message⟩
  | clearSteeringQueue => exact ⟨hsteering.clear, hfollowUp⟩
  | clearFollowUpQueue => exact ⟨hsteering, hfollowUp.clear⟩
  | steeringMode mode => exact ⟨hsteering, hfollowUp⟩
  | followUpMode mode => exact ⟨hsteering, hfollowUp⟩
  | abort =>
    have hemits : (agent.apply .abort).emits = agent.emits := by
      unfold Agent.apply Agent.emits
      cases agent.activeRun <;> rfl
    refine ⟨?_, ?_⟩
    · unfold Balanced at hsteering ⊢
      rw [hemits]
      exact hsteering
    · unfold Balanced at hfollowUp ⊢
      rw [hemits]
      exact hfollowUp

/-- Nothing waits, and the next events are the loop's own. -/
theorem Agent.Kept.others (h : agent.Kept) (hidle : agent.emits = []) (events : List (AgentEvent δ))
    (hemits : run'.emits = others events) : ({ agent with activeRun := some run' } : Agent δ).Kept := by
  obtain ⟨hsteering, hfollowUp⟩ := h
  unfold Balanced at hsteering hfollowUp
  rw [hidle] at hsteering hfollowUp
  refine ⟨?_, ?_⟩
  · unfold Balanced
    rw [show ({ agent with activeRun := some run' } : Agent δ).emits = run'.emits from rfl, hemits,
      waiting_others (by decide)]
    exact hsteering
  · unfold Balanced
    rw [show ({ agent with activeRun := some run' } : Agent δ).emits = run'.emits from rfl, hemits,
      waiting_others (by decide)]
    exact hfollowUp

variable {agent' : Agent δ}

theorem Balanced.drain (h : Balanced origin agent queue queued) (hidle : agent.emits = [])
    (hmessages : agent'.messages = agent.messages)
    (hemits : waiting origin agent'.emits = queue.drain.1) :
    Balanced origin agent' queue.drain.2 queued := by
  unfold Balanced at h ⊢
  rw [hidle] at h
  rw [hmessages, hemits, List.append_assoc, drain_append, ← h]
  simp [waiting]

theorem Balanced.same (h : Balanced origin agent queue queued) (hidle : agent.emits = [])
    (hmessages : agent'.messages = agent.messages)
    (hemits : waiting origin agent'.emits = []) : Balanced origin agent' queue queued := by
  unfold Balanced at h ⊢
  rw [hidle] at h
  rw [hmessages, hemits, ← h]
  simp [waiting]

theorem waiting_startTurn (run : ActiveRun δ) (origin origin' : Origin) (h : origin ≠ .other)
    (messages : List (AgentMessage δ)) : waiting origin (run.startTurn origin' messages).emits =
      if origin' = origin then messages else [] := by
  unfold ActiveRun.startTurn
  rw [waiting_append, waiting_messageEvents]
  split
  · rfl
  · rw [waiting_others h]
    rfl

theorem Agent.Kept.startRun (h : agent.Kept) (hidle : agent.activeRun = none)
    (prompts : List (AgentMessage δ)) (skip : Bool) : (agent.startRun .other prompts skip).Kept := by
  have hemits : agent.emits = [] := by
    rw [Agent.emits, hidle]
  refine ⟨h.steering.same hemits rfl ?_, h.followUp.same hemits rfl ?_⟩
  · show waiting _ (_ ++ _) = _
    rw [waiting_append, waiting_others (by decide), waiting_messageEvents]
    rfl
  · show waiting _ (_ ++ _) = _
    rw [waiting_append, waiting_others (by decide), waiting_messageEvents]
    rfl

theorem Agent.Kept.prompt (h : agent.Kept) (messages : List (AgentMessage δ)) : (agent.prompt messages).Kept := by
  unfold Agent.prompt
  split
  · exact h
  next hidle => exact h.startRun hidle messages false

theorem Agent.Kept.continueRun (h : agent.Kept) : agent.continueRun.Kept := by
  unfold Agent.continueRun
  split
  · exact h
  · exact h
  next hidle _ =>
    have hemits : agent.emits = [] := by
      rw [Agent.emits, hidle]
    dsimp only
    split
    · refine ⟨h.steering.drain hemits rfl ?_, h.followUp.same hemits rfl ?_⟩
      · show waiting _ (_ ++ _) = _
        rw [waiting_append, waiting_others (by decide), waiting_messageEvents]
        rfl
      · show waiting _ (_ ++ _) = _
        rw [waiting_append, waiting_others (by decide), waiting_messageEvents]
        rfl
    · split
      · refine ⟨h.steering.same hemits rfl ?_, h.followUp.drain hemits rfl ?_⟩
        · show waiting _ (_ ++ _) = _
          rw [waiting_append, waiting_others (by decide), waiting_messageEvents]
          rfl
        · show waiting _ (_ ++ _) = _
          rw [waiting_append, waiting_others (by decide), waiting_messageEvents]
          rfl
      · exact h
  next hidle _ => exact h.startRun hidle [] false

variable {rest : List (Emit δ)}

/-- An event is emitted, and what it brings is in the transcript. -/
theorem Balanced.emitted {emit : Emit δ} (h : Balanced origin agent queue queued) (hemits : agent.emits = emit :: rest)
    (hmessages : agent'.messages = (agent.process emit).messages)
    (hrest : waiting origin agent'.emits = waiting origin rest) :
    Balanced origin agent' queue queued := by
  unfold Balanced at h ⊢
  rw [hemits] at h
  rw [hmessages, hrest, ← h]
  unfold Agent.process
  have hcons : waiting origin ([emit] ++ rest) = waiting origin [emit] ++ waiting origin rest :=
    waiting_append
  rw [List.singleton_append] at hcons
  rw [hcons]
  split
  next message hevent =>
    have hone : waiting origin [emit] = if emit.origin = origin then [message] else [] := by
      unfold waiting Emit.brings
      by_cases horigin : emit.origin = origin <;> simp [hevent, horigin]
    rw [hone, entered_concat]
    simp only [List.append_assoc]
  next hevent =>
    have hnone : waiting origin [emit] = [] := by
      have hbrings : emit.brings origin = none := by
        unfold Emit.brings
        split
        next message hmessage => exact absurd hmessage (hevent message)
        · rfl
      exact List.filterMap_cons_none hbrings
    rw [hnone, List.nil_append]

theorem process_queues (agent : Agent δ) (emit : Emit δ) :
    (agent.process emit).steeringQueue = agent.steeringQueue ∧
      (agent.process emit).followUpQueue = agent.followUpQueue ∧
      (agent.process emit).steered = agent.steered ∧
      (agent.process emit).followedUp = agent.followedUp := by
  unfold Agent.process
  split <;> exact ⟨rfl, rfl, rfl, rfl⟩

theorem Agent.Kept.emitted {emit : Emit δ} (h : agent.Kept)
    (hemits : agent.emits = emit :: rest) {active : Option (ActiveRun δ)}
    (hsteering : waiting .steering ({ agent.process emit with activeRun := active } : Agent δ).emits =
      waiting .steering rest)
    (hfollowUp : waiting .followUp ({ agent.process emit with activeRun := active } : Agent δ).emits =
      waiting .followUp rest) : ({ agent.process emit with activeRun := active } : Agent δ).Kept := by
  obtain ⟨h₁, h₂, h₃, h₄⟩ := process_queues agent emit
  refine ⟨?_, ?_⟩
  · show Balanced _ _ (agent.process emit).steeringQueue (agent.process emit).steered
    rw [h₁, h₃]
    exact h.steering.emitted hemits rfl hsteering
  · show Balanced _ _ (agent.process emit).followUpQueue (agent.process emit).followedUp
    rw [h₂, h₄]
    exact h.followUp.emitted hemits rfl hfollowUp

/-- **The listeners settle.** Nothing is lost if nothing waits behind an event whose listener throws. -/
theorem Agent.Kept.emitNext {emit : Emit δ} (h : agent.Kept)
    (hrun : agent.activeRun = some run) (hemits : run.emits = emit :: rest)
    (result : Except String Unit) (hkeeps : KeepsWaiting agent (.listeners result)) :
    (agent.emitNext run emit rest result).Kept := by
  have hagent : agent.emits = emit :: rest := by
    rw [Agent.emits, hrun]
    exact hemits
  cases result with
  | ok done => exact h.emitted hagent rfl rfl
  | error error =>
    obtain ⟨hsteering, hfollowUp⟩ := hkeeps
    rw [hagent] at hsteering hfollowUp
    have hnone : ∀ origin, waiting origin ([] : List (Emit δ)) = [] := fun _ => rfl
    show ((agent.process emit).listenerThrows run error).Kept
    unfold Agent.listenerThrows
    split
    · exact h.emitted hagent ((hnone _).trans hsteering.symm) ((hnone _).trans hfollowUp.symm)
    · exact h.emitted hagent ((hnone _).trans hsteering.symm) ((hnone _).trans hfollowUp.symm)

theorem Agent.Kept.pollSteering (h : agent.Kept) (hidle : agent.emits = []) (hrun : run.emits = [])
    (hasMoreToolCalls : Bool) : (agent.pollSteering run hasMoreToolCalls).Kept := by
  unfold Agent.pollSteering Agent.getSteeringMessages
  dsimp only
  split <;> split
  · refine ⟨h.steering.same hidle rfl ?_, h.followUp.same hidle rfl ?_⟩
    · exact waiting_startTurn _ _ _ (by decide) _
    · exact waiting_startTurn _ _ _ (by decide) _
  · exact h.others hidle [] hrun
  · refine ⟨h.steering.drain hidle rfl ?_, h.followUp.same hidle rfl ?_⟩
    · exact waiting_startTurn _ _ _ (by decide) _
    · exact waiting_startTurn _ _ _ (by decide) _
  next hnone =>
    have hdrained : agent.steeringQueue.drain.1 = [] := by
      by_contra hne
      exact hnone (.inr hne)
    refine ⟨h.steering.drain hidle rfl ?_, h.followUp.same hidle rfl ?_⟩
    · rw [hdrained]
      exact congrArg (waiting _) hrun
    · exact congrArg (waiting _) hrun

theorem Agent.Kept.pollFollowUps (h : agent.Kept) (hidle : agent.emits = []) : (agent.pollFollowUps run).Kept := by
  unfold Agent.pollFollowUps
  dsimp only
  split
  · refine ⟨h.steering.same hidle rfl ?_, h.followUp.drain hidle rfl ?_⟩
    · exact waiting_startTurn _ _ _ (by decide) _
    · exact waiting_startTurn _ _ _ (by decide) _
  next hnone =>
    have hdrained : agent.followUpQueue.drain.1 = [] := not_not.mp hnone
    refine ⟨h.steering.same hidle rfl ?_, h.followUp.drain hidle rfl ?_⟩
    · exact waiting_others (by decide) _
    · rw [hdrained]
      exact waiting_others (by decide) _

theorem respond_emits (run : ActiveRun δ) (streamed : List (StreamEvent δ))
    (result : Except String (AssistantMessage δ)) :
    ∃ events, (run.respond streamed result).emits = others events := by
  unfold ActiveRun.respond
  split
  · exact ⟨_, rfl⟩
  · dsimp only
    split
    · exact ⟨_, rfl⟩
    · split <;> exact ⟨_, rfl⟩

theorem toolBatch_emits (run : ActiveRun δ) (message : AssistantMessage δ)
    (emitted : List (ToolEmit δ)) (result : Except String Bool) :
    ∃ events, (run.toolBatch message emitted result).emits = others events := by
  unfold ActiveRun.toolBatch
  split <;> exact ⟨_, rfl⟩

/-- **A step of the run**, which has emitted its events. -/
theorem Agent.Kept.control (h : agent.Kept) (hrun : agent.activeRun = some run)
    (hemits : run.emits = []) {event : Step δ} (hstep : agent.control run event = some agent') :
    agent'.Kept := by
  have hidle : agent.emits = [] := by
    rw [Agent.emits, hrun]
    exact hemits
  unfold Agent.control at hstep
  split at hstep
  · split at hstep
    · cases hstep
      exact h.pollSteering hidle hemits _
    · cases hstep
      exact h.pollFollowUps hidle
    · cases hstep
  · split at hstep
    · cases hstep
      obtain ⟨events, hevents⟩ := respond_emits run _ _
      exact h.others hidle events hevents
    · cases hstep
  · split at hstep
    · cases hstep
      obtain ⟨events, hevents⟩ := toolBatch_emits run _ _ _
      exact h.others hidle events hevents
    · cases hstep
  · split at hstep <;> cases hstep
    · exact h.others hidle [] hemits
    · exact h.others hidle [] hemits
  · split at hstep <;> cases hstep
    · exact h.others hidle _ rfl
    · exact h.others hidle [] hemits
    · exact h.others hidle [] hemits
  · split at hstep <;> cases hstep
    exact h.others hidle _ rfl
  · split at hstep <;> cases hstep
    · exact ⟨h.steering.same hidle rfl rfl, h.followUp.same hidle rfl rfl⟩
    · exact ⟨h.steering.same hidle rfl rfl, h.followUp.same hidle rfl rfl⟩
  · cases hstep

/-- **One step.** -/
theorem Agent.Kept.step (h : agent.Kept) {event : Step δ}
    (hkeeps : KeepsWaiting agent event) (hstep : AgentLoop.step agent event = some agent') :
    agent'.Kept := by
  unfold AgentLoop.step at hstep
  split at hstep
  · cases hstep
    exact h.apply _
  · cases hstep
    exact h.prompt _
  · cases hstep
    exact h.continueRun
  · split at hstep
    next hrun =>
      split at hstep
      next hemits =>
        cases hstep
        exact h.emitNext hrun hemits _ hkeeps
      · cases hstep
    · cases hstep
  · split at hstep
    next run hrun =>
      obtain ⟨hempty, hstep⟩ := Option.ite_none_right_eq_some.mp hstep
      exact h.control hrun (List.isEmpty_iff.mp hempty) hstep
    · cases hstep

end Steps

/-! ## Runs -/

/-- At a quiescent point each message that has been queued and not cleared is once in the transcript
or once in its queue, in order. -/
def NothingLost (agent : Agent δ) : Prop :=
  agent.activeRun = none → entered .steering agent.messages ++ agent.steeringQueue.messages = agent.steered ∧
      entered .followUp agent.messages ++ agent.followUpQueue.messages = agent.followedUp

theorem Agent.Kept.nothingLost {agent : Agent δ} (h : agent.Kept) : NothingLost agent := by
  intro hidle
  have hemits : agent.emits = [] := by
    rw [Agent.emits, hidle]
  obtain ⟨hsteering, hfollowUp⟩ := h
  unfold Balanced at hsteering hfollowUp
  rw [hemits] at hsteering hfollowUp
  simpa [waiting] using And.intro hsteering hfollowUp

theorem kept_create (model : String) (messages : List (AgentMessage δ)) (steeringMode followUpMode : QueueMode) :
    (Agent.create model messages steeringMode followUpMode).Kept := by
  have hentered : ∀ origin, origin ≠ .other → entered origin (messages.map (Origin.other, ·)) = [] := by
    intro origin horigin
    unfold entered
    rw [List.map_eq_nil_iff, List.filter_eq_nil_iff]
    intro m hm
    obtain ⟨message, -, rfl⟩ := List.mem_map.mp hm
    simpa using horigin.symm
  refine ⟨?_, ?_⟩
  · show entered _ (messages.map _) ++ [] ++ [] = []
    rw [hentered .steering (by decide)]
    rfl
  · show entered _ (messages.map _) ++ [] ++ [] = []
    rw [hentered .followUp (by decide)]
    rfl

/-- **No queued message is lost** in a run in which no listener throws while drained messages wait. -/
theorem queued_messages_kept (model : String) (messages : List (AgentMessage δ))
    (steeringMode followUpMode : QueueMode) (events : List (Step δ))
    (h : Transition.Clean step KeepsWaiting (Agent.create model messages steeringMode followUpMode) events) :
    Transition.Always step NothingLost (Agent.create model messages steeringMode followUpMode)
      events :=
  Transition.always_of_clean (fun _ hkept => hkept.nothingLost)
    (fun _ _ _ hkept hkeeps hstep => hkept.step hkeeps hstep) (kept_create _ _ _ _) h

/-- A steering message that comes into the transcript. -/
theorem queued_messages_kept_steer :
    Transition.Always step NothingLost (Agent.create (δ := Nat) "m" [] .all .oneAtATime)
      [.call (.steer (.user 1)), .prompt [.user 0], .listeners (.ok ()), .listeners (.ok ()),
        .listeners (.ok ()), .listeners (.ok ()), .poll, .listeners (.ok ()),
        .listeners (.error "fails")] :=
  queued_messages_kept "m" [] .all .oneAtATime _ (by decide +kernel)

/-- A listener throws when a steering message starts, and the message is lost. -/
theorem drained_message_lost :
    ¬ ∀ (model : String) (messages : List (AgentMessage Nat)) (steeringMode followUpMode : QueueMode)
      (events : List (Step Nat)),
      Transition.Always step NothingLost (Agent.create model messages steeringMode followUpMode)
        events := by
  intro h
  let events : List (Step Nat) :=
    [.call (.steer (.user 1)), .prompt [.user 0], .listeners (.ok ()), .listeners (.ok ()),
      .listeners (.ok ()), .listeners (.ok ()), .poll, .listeners (.error "fails"), .failure 0,
      .listeners (.ok ()), .listeners (.ok ()), .listeners (.ok ()), .listeners (.ok ()), .finish]
  have hend : (Transition.run step (Agent.create "m" [] .all .oneAtATime) events).map
      (fun agent => (agent.activeRun.isNone,
        entered .steering agent.messages ++ agent.steeringQueue.messages, agent.steered)) =
      some (true, [], [.user 1]) := by
    decide +kernel
  cases hrun : Transition.run step (Agent.create "m" [] .all .oneAtATime) events with
  | none =>
    rw [hrun] at hend
    cases hend
  | some agent =>
    rw [hrun, Option.map_some] at hend
    obtain ⟨hidle, hplaces, hsteered⟩ := Prod.mk.inj (Option.some.inj hend) |>.imp id Prod.mk.inj
    have hkept := h "m" [] .all .oneAtATime events events (List.prefix_refl _) agent hrun
      (Option.isNone_iff_eq_none.mp hidle)
    rw [hplaces, hsteered] at hkept
    cases hkept.1

end Mcpi.AgentLoop
