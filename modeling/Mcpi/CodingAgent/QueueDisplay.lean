import Mcpi.Agent.World
import Mcpi.Lib.Transition

/-!
# The displayed queue

`AgentSession` lists the texts of the messages that it has queued, next to the queues of the agent. A text
leaves its list when a user message with that text starts. The lists are the queues as long as each message
that starts can be found by its text, and is the one that is found.
-/

namespace Mcpi.CodingAgent.QueueDisplay

open Mcpi.Agent

/-- The content of a user message: its texts joined, and its images. -/
structure UserContent where
  text : String
  images : List String
  deriving DecidableEq

abbrev Message := Agent.AgentMessage UserContent

def userText : Message → Option String
  | .user content => some content.text
  | _ => none

/-- The texts of the user messages. -/
def texts (messages : List Message) : List String := messages.filterMap userText

/-! ## The session -/

/-- Where the messages come from that a run is starting. -/
inductive Origin
  | prompt
  | steering
  | followUp
  deriving DecidableEq

/-- `delivering` are the messages of a prompt, or those drained off a queue, that have not started yet.
`listed` records whether the lists still have their texts. -/
structure AgentSession where
  steeringMessages : List String
  followUpMessages : List String
  steeringQueue : PendingMessageQueue UserContent
  followUpQueue : PendingMessageQueue UserContent
  origin : Origin
  delivering : List Message
  listed : Bool
  deriving DecidableEq

namespace AgentSession

def create (steeringMode followUpMode : QueueMode) : AgentSession :=
  { steeringMessages := []
    followUpMessages := []
    steeringQueue := ⟨[], steeringMode⟩
    followUpQueue := ⟨[], followUpMode⟩
    origin := .prompt
    delivering := []
    listed := false }

/-- `_queueSteer` -/
def queueSteer (s : AgentSession) (text : String) (images : List String) : AgentSession :=
  { s with
    steeringMessages := s.steeringMessages ++ [text]
    steeringQueue := s.steeringQueue.enqueue (.user ⟨text, images⟩) }

/-- `_queueFollowUp` -/
def queueFollowUp (s : AgentSession) (text : String) (images : List String) : AgentSession :=
  { s with
    followUpMessages := s.followUpMessages ++ [text]
    followUpQueue := s.followUpQueue.enqueue (.user ⟨text, images⟩) }

/-- `_handleAgentEvent` when a message starts -/
def handleMessageStart (s : AgentSession) (message : Message) : AgentSession :=
  match userText message with
  | none => s
  | some messageText =>
    if messageText = "" then s
    else if messageText ∈ s.steeringMessages then
      { s with steeringMessages := s.steeringMessages.erase messageText }
    else { s with followUpMessages := s.followUpMessages.erase messageText }

def clearQueue (s : AgentSession) : (List String × List String) × AgentSession :=
  ((s.steeringMessages, s.followUpMessages),
    { s with
      steeringMessages := []
      followUpMessages := []
      steeringQueue := s.steeringQueue.clear
      followUpQueue := s.followUpQueue.clear
      listed := false })

def pendingMessageCount (s : AgentSession) : Nat :=
  s.steeringMessages.length + s.followUpMessages.length

end AgentSession

/-- What can happen. `steer` and `followUp` come from `prompt`, `sendUserMessage`, `steer` and `followUp`;
`fails` is a run that ends before all messages have started. -/
inductive Event
  | steer (text : String) (images : List String)
  | followUp (text : String) (images : List String)
  | steerCustom (content : UserContent)
  | followUpCustom (content : UserContent)
  | prompt (messages : List Message)
  | drainSteering
  | drainFollowUps
  | messageStart
  | fails
  | clearQueue
  | steeringMode (mode : QueueMode)
  | followUpMode (mode : QueueMode)
  deriving DecidableEq

def step (s : AgentSession) : Event → Option AgentSession
  | .steer text images => some (s.queueSteer text images)
  | .followUp text images => some (s.queueFollowUp text images)
  | .steerCustom content =>
    some { s with steeringQueue := s.steeringQueue.enqueue (.custom content) }
  | .followUpCustom content =>
    some { s with followUpQueue := s.followUpQueue.enqueue (.custom content) }
  | .prompt messages =>
    if s.delivering = [] then
      some { s with origin := .prompt, delivering := messages, listed := false }
    else none
  | .drainSteering =>
    if s.delivering = [] then
      some { s with
        origin := .steering
        delivering := s.steeringQueue.drain.1
        steeringQueue := s.steeringQueue.drain.2
        listed := true }
    else none
  | .drainFollowUps =>
    if s.delivering = [] then
      some { s with
        origin := .followUp
        delivering := s.followUpQueue.drain.1
        followUpQueue := s.followUpQueue.drain.2
        listed := true }
    else none
  | .messageStart =>
    match s.delivering with
    | [] => none
    | message :: rest => some { s.handleMessageStart message with delivering := rest }
  | .fails => some { s with delivering := [] }
  | .clearQueue => some s.clearQueue.2
  | .steeringMode mode => some { s with steeringQueue := { s.steeringQueue with mode } }
  | .followUpMode mode => some { s with followUpQueue := { s.followUpQueue with mode } }

/-! ## The invariant -/

/-- The texts of the drained messages that the lists still have. -/
def AgentSession.stillListed (s : AgentSession) (origin : Origin) : List String :=
  if s.listed ∧ s.origin = origin then texts s.delivering else []

/-- **The invariant**: each list has the texts of the messages drained off its queue, then those of the
messages in it. -/
structure Listed (s : AgentSession) : Prop where
  steering : s.steeringMessages = s.stillListed .steering ++ texts s.steeringQueue.messages
  followUp : s.followUpMessages = s.stillListed .followUp ++ texts s.followUpQueue.messages
  prompt : s.origin = .prompt → s.listed = false

/-- The message that starts is found by its text, and no other one is. A run does not end before the
messages that it has drained have started. -/
def Found (s : AgentSession) : Event → Prop
  | .messageStart =>
    ∀ message ∈ s.delivering.head?, ∀ text ∈ userText message,
      if s.listed then text ≠ "" ∧ (s.origin = .followUp → text ∉ s.steeringMessages)
      else text = "" ∨ text ∉ s.steeringMessages ∧ text ∉ s.followUpMessages
  | .fails => s.listed = true → texts s.delivering = []
  | _ => True

instance (s : AgentSession) (event : Event) : Decidable (Found s event) := by
  unfold Found
  split <;> infer_instance

theorem texts_append (xs ys : List Message) : texts (xs ++ ys) = texts xs ++ texts ys :=
  List.filterMap_append

theorem texts_drain (queue : PendingMessageQueue UserContent) :
    texts queue.drain.1 ++ texts queue.drain.2.messages = texts queue.messages := by
  obtain ⟨messages, mode⟩ := queue
  cases mode with
  | all => exact List.append_nil _
  | oneAtATime =>
    cases messages with
    | nil => rfl
    | cons first rest => exact (texts_append [first] rest).symm

/-! ## Steps -/

section Steps

variable {s : AgentSession}

theorem stillListed_nil (h : s.delivering = []) (origin : Origin) : s.stillListed origin = [] := by
  unfold AgentSession.stillListed
  rw [h]
  split <;> rfl

theorem Listed.queueSteer (h : Listed s) (text : String) (images : List String) :
    Listed (s.queueSteer text images) := by
  refine ⟨?_, h.followUp, h.prompt⟩
  show s.steeringMessages ++ [text] = s.stillListed .steering ++ texts (_ ++ [_])
  rw [texts_append, ← List.append_assoc, ← h.steering]
  rfl

theorem Listed.queueFollowUp (h : Listed s) (text : String) (images : List String) :
    Listed (s.queueFollowUp text images) := by
  refine ⟨h.steering, ?_, h.prompt⟩
  show s.followUpMessages ++ [text] = s.stillListed .followUp ++ texts (_ ++ [_])
  rw [texts_append, ← List.append_assoc, ← h.followUp]
  rfl

theorem Listed.drainSteering (h : Listed s) (hidle : s.delivering = []) :
    Listed { s with
      origin := .steering
      delivering := s.steeringQueue.drain.1
      steeringQueue := s.steeringQueue.drain.2
      listed := true } := by
  refine ⟨?_, ?_, nofun⟩
  · show s.steeringMessages = texts _ ++ texts _
    rw [texts_drain, h.steering, stillListed_nil hidle, List.nil_append]
  · show s.followUpMessages = [] ++ _
    rw [h.followUp, stillListed_nil hidle]

theorem Listed.drainFollowUps (h : Listed s) (hidle : s.delivering = []) :
    Listed { s with
      origin := .followUp
      delivering := s.followUpQueue.drain.1
      followUpQueue := s.followUpQueue.drain.2
      listed := true } := by
  refine ⟨?_, ?_, nofun⟩
  · show s.steeringMessages = [] ++ _
    rw [h.steering, stillListed_nil hidle]
  · show s.followUpMessages = texts _ ++ texts _
    rw [texts_drain, h.followUp, stillListed_nil hidle, List.nil_append]

theorem Listed.started (h : Listed s) {message : Message} {rest : List Message}
    (hdelivering : s.delivering = message :: rest)
    (hnone : s.listed = true → userText message = none) :
    Listed { s with delivering := rest } := by
  have hlisted : ∀ origin, AgentSession.stillListed { s with delivering := rest } origin = s.stillListed origin := by
    intro origin
    unfold AgentSession.stillListed
    split
    next hboth =>
      rw [hdelivering]
      unfold texts
      rw [List.filterMap_cons, hnone hboth.1]
    · rfl
  refine ⟨?_, ?_, h.prompt⟩
  · rw [hlisted]
    exact h.steering
  · rw [hlisted]
    exact h.followUp

/-- **A message starts**, and its text leaves its list. -/
theorem Listed.messageStart (h : Listed s) {message : Message} {rest : List Message}
    (hdelivering : s.delivering = message :: rest) (hfound : Found s .messageStart) :
    Listed { s.handleMessageStart message with delivering := rest } := by
  have hfound := hfound message (by rw [hdelivering]; rfl)
  unfold AgentSession.handleMessageStart
  cases htext : userText message with
  | none => exact h.started hdelivering fun _ => htext
  | some text =>
    have hfound := hfound text htext
    dsimp only
    cases hlisted : s.listed with
    | false =>
      -- the message is in no list, and no list has its text
      rw [hlisted, if_neg Bool.false_ne_true] at hfound
      have hstarted := h.started hdelivering fun hsome => by
        rw [hlisted] at hsome
        cases hsome
      rw [← hlisted]
      rcases hfound with hempty | ⟨hsteering, hfollowUp⟩
      · rw [if_pos hempty]
        exact hstarted
      · by_cases hempty : text = ""
        · rw [if_pos hempty]
          exact hstarted
        · rw [if_neg hempty, if_neg hsteering, List.erase_of_not_mem hfollowUp]
          exact hstarted
    | true =>
      rw [hlisted, if_pos rfl] at hfound
      obtain ⟨hnonempty, hother⟩ := hfound
      rw [if_neg hnonempty]
      have hsteering := h.steering
      have hfollowUp := h.followUp
      unfold AgentSession.stillListed at hsteering hfollowUp
      have htexts : texts (message :: rest) = text :: texts rest := by
        unfold texts
        rw [List.filterMap_cons, htext]
      rw [hlisted, hdelivering, htexts] at hsteering hfollowUp
      cases horigin : s.origin with
      | prompt =>
        rw [h.prompt horigin] at hlisted
        cases hlisted
      | steering =>
        rw [horigin, if_pos ⟨rfl, rfl⟩] at hsteering
        rw [horigin, if_neg nofun] at hfollowUp
        rw [if_pos (by rw [hsteering]; exact List.mem_cons_self)]
        refine ⟨?_, ?_, nofun⟩
        · show s.steeringMessages.erase text = texts rest ++ _
          rw [hsteering]
          exact List.erase_cons_head _ _
        · exact hfollowUp
      | followUp =>
        rw [horigin, if_neg nofun] at hsteering
        rw [horigin, if_pos ⟨rfl, rfl⟩] at hfollowUp
        rw [if_neg (hother horigin)]
        refine ⟨hsteering, ?_, nofun⟩
        show s.followUpMessages.erase text = texts rest ++ _
        rw [hfollowUp]
        exact List.erase_cons_head _ _

theorem Listed.fails (h : Listed s) (hfound : Found s .fails) : Listed { s with delivering := [] } := by
  have hlisted : ∀ origin, AgentSession.stillListed { s with delivering := [] } origin = s.stillListed origin := by
    intro origin
    unfold AgentSession.stillListed
    split
    next hboth => exact (hfound hboth.1).symm
    · rfl
  refine ⟨?_, ?_, h.prompt⟩
  · rw [hlisted]
    exact h.steering
  · rw [hlisted]
    exact h.followUp

theorem Listed.clearQueue : Listed s.clearQueue.2 := ⟨rfl, rfl, fun _ => rfl⟩

theorem Listed.step {s' : AgentSession} {event : Event} (h : Listed s) (hfound : Found s event)
    (hstep : QueueDisplay.step s event = some s') : Listed s' := by
  cases event with
  | steer text images =>
    cases hstep
    exact h.queueSteer text images
  | followUp text images =>
    cases hstep
    exact h.queueFollowUp text images
  | steerCustom content =>
    cases hstep
    refine ⟨?_, h.followUp, h.prompt⟩
    show s.steeringMessages = s.stillListed .steering ++ texts (_ ++ [_])
    rw [texts_append, ← List.append_assoc, ← h.steering]
    exact (List.append_nil _).symm
  | followUpCustom content =>
    cases hstep
    refine ⟨h.steering, ?_, h.prompt⟩
    show s.followUpMessages = s.stillListed .followUp ++ texts (_ ++ [_])
    rw [texts_append, ← List.append_assoc, ← h.followUp]
    exact (List.append_nil _).symm
  | prompt messages =>
    -- no run starts while messages are being delivered
    by_cases hidle : s.delivering = []
    · rw [QueueDisplay.step, if_pos hidle] at hstep
      cases hstep
      refine ⟨?_, ?_, fun _ => rfl⟩
      · show s.steeringMessages = [] ++ _
        rw [h.steering, stillListed_nil hidle]
      · show s.followUpMessages = [] ++ _
        rw [h.followUp, stillListed_nil hidle]
    · rw [QueueDisplay.step, if_neg hidle] at hstep
      cases hstep
  | drainSteering =>
    by_cases hidle : s.delivering = []
    · rw [QueueDisplay.step, if_pos hidle] at hstep
      cases hstep
      exact h.drainSteering hidle
    · rw [QueueDisplay.step, if_neg hidle] at hstep
      cases hstep
  | drainFollowUps =>
    by_cases hidle : s.delivering = []
    · rw [QueueDisplay.step, if_pos hidle] at hstep
      cases hstep
      exact h.drainFollowUps hidle
    · rw [QueueDisplay.step, if_neg hidle] at hstep
      cases hstep
  | messageStart =>
    cases hdelivering : s.delivering with
    | nil =>
      rw [QueueDisplay.step, hdelivering] at hstep
      cases hstep
    | cons message rest =>
      rw [QueueDisplay.step, hdelivering] at hstep
      cases hstep
      exact h.messageStart hdelivering hfound
  | fails =>
    cases hstep
    exact h.fails hfound
  | clearQueue =>
    cases hstep
    exact Listed.clearQueue
  | steeringMode mode =>
    cases hstep
    exact ⟨h.steering, h.followUp, h.prompt⟩
  | followUpMode mode =>
    cases hstep
    exact ⟨h.steering, h.followUp, h.prompt⟩

end Steps

/-! ## Runs -/

/-- **The displayed queue is the real queue**, where no messages are on their way: the lists have the texts
of the queued user messages in order, the count is zero when there are none, and clearing returns them. -/
def Displayed (s : AgentSession) : Prop :=
  s.delivering = [] → s.steeringMessages = texts s.steeringQueue.messages ∧
      s.followUpMessages = texts s.followUpQueue.messages ∧ (s.pendingMessageCount = 0 ↔
          ∀ message ∈ s.steeringQueue.messages ++ s.followUpQueue.messages, userText message = none) ∧
          s.clearQueue.1 = (texts s.steeringQueue.messages, texts s.followUpQueue.messages)

theorem Listed.displayed {s : AgentSession} (h : Listed s) : Displayed s := by
  intro hidle
  have hsteering := h.steering
  have hfollowUp := h.followUp
  rw [stillListed_nil hidle, List.nil_append] at hsteering hfollowUp
  refine ⟨hsteering, hfollowUp, ?_, ?_⟩
  · unfold AgentSession.pendingMessageCount
    rw [hsteering, hfollowUp, ← List.length_append, ← texts_append, List.length_eq_zero_iff]
    exact List.filterMap_eq_nil_iff
  · unfold AgentSession.clearQueue
    rw [hsteering, hfollowUp]

/-- **Runs in which each message that starts is found.** -/
theorem queue_displayed (steeringMode followUpMode : QueueMode) (events : List Event)
    (h : Transition.Clean step Found (.create steeringMode followUpMode) events) :
    Transition.Always step Displayed (.create steeringMode followUpMode) events :=
  Transition.always_of_clean (fun _ hlisted => Listed.displayed hlisted)
    (fun _ _ _ hlisted hfound hstep => hlisted.step hfound hstep) ⟨rfl, rfl, fun _ => rfl⟩ h

/-- A prompt, two messages with the same text that are delivered one at a time, and a follow-up. -/
theorem queue_displayed_repeated :
    Transition.Always step Displayed (.create .oneAtATime .all)
      [.prompt [.user ⟨"go", []⟩], .messageStart, .steer "x" [], .steer "x" ["image"],
        .followUp "y" [], .drainSteering, .messageStart, .drainSteering, .messageStart,
        .drainFollowUps, .messageStart] :=
  queue_displayed .oneAtATime .all _ (by decide)

/-- A message with an image and no text stays in the list when it has been delivered. -/
theorem image_stays_listed : ∃ events, ¬ Transition.Always step Displayed (.create .oneAtATime .all) events := by
  refine ⟨[.prompt [.user ⟨"go", []⟩], .messageStart, .steer "" ["image"], .drainSteering,
    .messageStart], fun h => ?_⟩
  have hdisplayed := (h _ (List.prefix_refl _) _ rfl rfl).1
  revert hdisplayed
  decide

end Mcpi.CodingAgent.QueueDisplay
