import Mcpi.CodingAgent.PostRun

/-!
# Continuations

`agent.continue()` throws at a transcript that ends with an assistant message, unless something is queued. A
response that is retried is removed first, and the message before it is not an assistant message: the loop
never has two of them in a row. Two ways lead to it all the same, a run that fails behind an assistant
message, and a compaction that brings back the earlier responses of a turn that has been retried.
-/

namespace Mcpi.CodingAgent.PostRun

open Mcpi.Agent (QueueMode)

/-! ## Transcripts -/

/-- The last message is not an assistant message. -/
def endsOpen (messages : List Message) : Bool :=
  match messages.getLast? with
  | some (.other _) => true
  | _ => false

/-- So is the last one without an assistant message at the end. -/
def opensWithout (messages : List Message) : Bool := endsOpen (popAssistant messages)

/-- The last message, if it is an assistant message, is one of these. -/
def LastAssistant (p : AssistantMessage → Prop) (path : List Message) : Prop :=
  ∀ message, path.getLast? = some (.assistant message) → p message

theorem endsOpen_append (messages : List Message) (role : Role) : endsOpen (messages ++ [.other role]) = true := by
  unfold endsOpen
  rw [List.getLast?_append]
  rfl

variable {messages : List Message}

theorem opensWithout_of_endsOpen (h : endsOpen messages = true) : opensWithout messages = true := by
  unfold opensWithout popAssistant
  unfold endsOpen at h
  split
  next hlast =>
    rw [hlast] at h
    cases h
  · unfold endsOpen
    exact h

theorem opensWithout_append (messages : List Message) (role : Role) : opensWithout (messages ++ [.other role]) = true :=
  opensWithout_of_endsOpen (endsOpen_append messages role)

theorem opensWithout_assistant (h : endsOpen messages = true)
    (message : AssistantMessage) : opensWithout (messages ++ [.assistant message]) = true := by
  unfold opensWithout popAssistant
  rw [List.getLast?_append, List.dropLast_concat]
  exact h

theorem ne_nil_of_opensWithout (h : opensWithout messages = true) : messages ≠ [] := by
  rintro rfl
  cases h

theorem lastAssistant_append (p : AssistantMessage → Prop) (path : List Message) (role : Role) :
    LastAssistant p (path ++ [.other role]) := by
  intro message hlast
  rw [List.getLast?_append] at hlast
  cases hlast

variable {message : AssistantMessage}

theorem LastAssistant.single {p : AssistantMessage → Prop} {path : List Message}
    (h : p message) : LastAssistant p (path ++ [.assistant message]) := by
  intro message' hlast
  rw [List.getLast?_append] at hlast
  cases hlast
  exact h

/-! ## The invariant -/

/-- A response that may be taken back: an error that can be retried or is an overflow, or a truncated one. -/
def takenBack (patterns : Patterns) (message : AssistantMessage) : Bool :=
  message.stopReason = .length || (message.stopReason = .error &&
      (message.errorMessage.any patterns.retryable || message.errorMessage.any patterns.overflow))

/-- `agent.continue()` does not throw. -/
def AgentSession.Continuable (s : AgentSession) : Prop :=
  s.messages ≠ [] ∧ (endsOpen s.messages = true ∨ s.hasQueuedMessages = true)

/-- **The invariant**, phase by phase. -/
def Inv (patterns : Patterns) (s : AgentSession) : Prop :=
  match s.phase with
  | .idle => True
  | .injecting pending _ => pending ≠ [] ∨ endsOpen s.messages = true
  | .responding => endsOpen s.messages = true
  | .toolResults _ =>
    s.messages ≠ [] ∧ LastAssistant (s.lastAssistantMessage = some ·) s.path
  | .turnEnd hasMoreToolCalls =>
    (hasMoreToolCalls = true → endsOpen s.messages = true) ∧ opensWithout s.messages = true ∧
      LastAssistant (s.lastAssistantMessage = some ·) s.path
  | .ending =>
    opensWithout s.messages = true ∧ LastAssistant (s.lastAssistantMessage = some ·) s.path
  | .posted =>
    s.messages ≠ [] ∧ LastAssistant (s.lastAssistantMessage = some ·) s.path ∧
      ∀ message ∈ s.lastAssistantMessage, takenBack patterns message = true → opensWithout s.messages = true
  | .sleeping message => endsOpen s.messages = true ∧ LastAssistant (message = ·) s.path
  | .compacting willRetry =>
    s.messages ≠ [] ∧ (willRetry = true →
      LastAssistant (fun message => message.stopReason = .error ∨ message.stopReason = .length) s.path)
  | .continuing retry => s.Continuable ∧ (retry = true → endsOpen s.messages = true)

/-- A run does not fail behind an assistant message with an error that is taken back, and a compaction after
which a response is taken back has not kept another response right before it. -/
def Legal (patterns : Patterns) (s : AgentSession) : Event → Prop
  | .fails unpersisted failure =>
    takenBack patterns failure = true → endsOpen (s.messages ++ unpersisted.toList) = true
  | .compacted (some firstKept) =>
    s.phase = .compacting true → endsOpen s.path = false → firstKept + 1 < s.path.length → opensWithout s.path = true
  | _ => True

instance (patterns : Patterns) (s : AgentSession) (event : Event) : Decidable (Legal patterns s event) := by
  unfold Legal
  split <;> infer_instance

section Steps

variable {patterns : Patterns} {s s' : AgentSession}

theorem inv_finish (h : s.messages ≠ []) : Inv patterns s.finish := by
  unfold AgentSession.finish
  cases hqueued : s.hasQueuedMessages with
  | true => exact ⟨⟨h, .inr hqueued⟩, nofun⟩
  | false => exact trivial

theorem isContextOverflow_cases {contextWindow : Nat}
    (h : isContextOverflow patterns message contextWindow = true) (hstop : message.stopReason ≠ .stop) :
    (message.stopReason = .error ∨ message.stopReason = .length) ∧ takenBack patterns message = true := by
  unfold isContextOverflow at h
  unfold takenBack
  simp only [Bool.or_eq_true, Bool.and_eq_true, decide_eq_true_eq] at h ⊢
  rcases h with (⟨herror, hpattern⟩ | ⟨⟨-, hsame⟩, -⟩) | ⟨⟨⟨-, hlength⟩, -⟩, -⟩
  · exact ⟨.inl herror, .inr ⟨herror, .inr hpattern⟩⟩
  · exact absurd hsame hstop
  · exact ⟨.inr hlength, .inl hlength⟩

theorem isRecoverableLength_cases {desiredMaxOutput : Nat}
    (h : isRecoverableLength message desiredMaxOutput = true) : message.stopReason = .length := by
  unfold isRecoverableLength at h
  simp only [Bool.and_eq_true, decide_eq_true_eq] at h
  exact h.1.1

variable {settings : Settings}

/-- **The check for a compaction.** -/
theorem inv_checkCompaction (hne : s.messages ≠ []) (hlast : LastAssistant (message = ·) s.path)
    (hback : takenBack patterns message = true → opensWithout s.messages = true) :
    Inv patterns (s.checkCompaction patterns settings message) := by
  unfold AgentSession.checkCompaction
  split
  · exact inv_finish hne
  · split
    · exact inv_finish hne
    · split
      · exact inv_finish hne
      · dsimp only
        split
        next hrecover =>
          split
          · exact ⟨hne, nofun⟩
          next hstop =>
            split
            · exact inv_finish hne
            · rw [Bool.and_eq_true, Bool.or_eq_true] at hrecover
              have hkind : (message.stopReason = .error ∨ message.stopReason = .length) ∧
                  takenBack patterns message = true := by
                rcases hrecover.2 with hoverflow | hlength
                · exact isContextOverflow_cases hoverflow hstop
                · have hstopped := isRecoverableLength_cases hlength
                  refine ⟨.inr hstopped, ?_⟩
                  unfold takenBack
                  rw [hstopped]
                  rfl
              refine ⟨?_, fun _ message' hmessage => ?_⟩
              · have hopen := hback hkind.2
                intro hnil
                unfold opensWithout at hopen
                change popAssistant s.messages = [] at hnil
                rw [hnil] at hopen
                cases hopen
              · obtain rfl := hlast message' hmessage
                exact hkind.1
        · split
          · exact ⟨hne, nofun⟩
          · exact inv_finish hne

theorem inv_afterRetry (hne : s.messages ≠ []) (hlast : LastAssistant (message = ·) s.path)
    (hback : takenBack patterns message = true → opensWithout s.messages = true) :
    Inv patterns (s.afterRetry patterns settings message) := by
  unfold AgentSession.afterRetry
  dsimp only
  split
  · exact inv_checkCompaction hne hlast hback
  · exact inv_checkCompaction hne hlast hback

/-- **A run has ended.** -/
theorem inv_handle (h : Inv patterns s) (hphase : s.phase = .posted) :
    Inv patterns (s.handlePostAgentRun patterns settings) := by
  unfold Inv at h
  rw [hphase] at h
  obtain ⟨hne, hlast, hback⟩ := h
  unfold AgentSession.handlePostAgentRun
  split
  · exact trivial
  next message hmessage =>
    have hlast' : LastAssistant (message = ·) s.path := by
      intro message' hmessage'
      have hsame := hlast message' hmessage'
      rw [hmessage] at hsame
      exact Option.some.inj hsame
    have hback' := hback message (Option.mem_def.mpr hmessage)
    dsimp only
    split
    next hretry =>
      refine ⟨?_, hlast'⟩
      rw [Bool.and_eq_true, Bool.and_eq_true] at hretry
      have herror := hretry.1.1
      unfold isRetryableError isRetryableAssistantError at herror
      rw [Bool.and_eq_true, Bool.and_eq_true] at herror
      have htaken : takenBack patterns message = true := by
        unfold takenBack
        rw [herror.2.1, herror.2.2]
        exact Bool.or_true _
      exact hback' htaken
    · exact inv_afterRetry hne hlast' hback'

/-- The transcript after a compaction: the summary, and what has been kept. -/
theorem getLast?_kept (firstKept : Nat) (init : List Message) (message : Message) :
    (Message.other .compactionSummary :: (init ++ [message]).drop firstKept).getLast? =
      if firstKept ≤ init.length then some message else some (.other .compactionSummary) := by
  split
  next hle =>
    rw [List.drop_append_of_le_length hle, ← List.cons_append, List.getLast?_append]
    rfl
  next hgt =>
    rw [List.drop_eq_nil_of_le (by
      rw [List.length_append, List.length_singleton]
      omega)]
    rfl

/-- The end of what has been kept is the end of the path. -/
theorem endsOpen_kept {firstKept : Nat} {path : List Message} (h : firstKept < path.length → endsOpen path = true) :
    endsOpen (.other .compactionSummary :: path.drop firstKept) = true := by
  rcases Nat.lt_or_ge firstKept path.length with hlt | hge
  · have hopen := h hlt
    obtain ⟨init, message, rfl⟩ : ∃ init message, path = init ++ [message] :=
      ⟨path.dropLast, path.getLast (List.length_pos_iff.mp (by omega)), (List.dropLast_append_getLast _).symm⟩
    rw [List.length_append, List.length_singleton] at hlt
    unfold endsOpen at hopen ⊢
    rw [getLast?_kept, if_pos (by omega)]
    rw [List.getLast?_append] at hopen
    exact hopen
  · rw [List.drop_eq_nil_of_le hge]
    rfl

/-- **A compaction has succeeded.** -/
theorem inv_compacted {firstKept : Nat} {willRetry : Bool} (h : Inv patterns s)
    (hphase : s.phase = .compacting willRetry)
    (hlegal : Legal patterns s (.compacted (some firstKept))) :
    Inv patterns (s.compacted willRetry firstKept) := by
  unfold Inv at h
  rw [hphase] at h
  obtain ⟨-, hlast⟩ := h
  unfold AgentSession.compacted
  dsimp only
  cases willRetry with
  | false => exact inv_finish (List.cons_ne_nil _ _)
  | true =>
    have hkind := hlast rfl
    have hlegal := hlegal hphase
    rw [if_pos rfl]
    have hopen : ∀ messages, endsOpen messages = true →
        Inv patterns { s with messages, phase := .continuing true } := by
      intro messages hmessages
      refine ⟨⟨?_, .inl hmessages⟩, fun _ => hmessages⟩
      rintro rfl
      cases hmessages
    refine hopen _ ?_
    by_cases hends : endsOpen s.path = true
    · have hkept := endsOpen_kept fun (_ : firstKept < s.path.length) => hends
      split
      next hget =>
        unfold endsOpen at hkept
        rw [hget] at hkept
        cases hkept
      · exact hkept
    · rcases List.eq_nil_or_concat s.path with hnil | ⟨init, message, hpath⟩
      · rw [hnil, List.drop_nil]
        rfl
      · rw [List.concat_eq_append] at hpath
        have hlastPath : s.path.getLast? = some message := by
          rw [hpath, List.getLast?_append]
          rfl
        cases message with
        | other role =>
          unfold endsOpen at hends
          rw [hlastPath] at hends
          exact absurd rfl hends
        | assistant message =>
          have hstopped := hkind message hlastPath
          rw [hpath, getLast?_kept]
          by_cases hle : firstKept ≤ init.length
          · -- the response is kept, and taken back
            rw [if_pos hle]
            dsimp only
            rw [if_pos hstopped, List.drop_append_of_le_length hle, ← List.cons_append, List.dropLast_concat]
            refine endsOpen_kept fun hlt => ?_
            have hwithout := hlegal (Bool.eq_false_iff.mpr hends) (by
              rw [hpath, List.length_append, List.length_singleton]
              omega)
            unfold opensWithout popAssistant at hwithout
            rw [hlastPath] at hwithout
            dsimp only at hwithout
            rwa [hpath, List.dropLast_concat] at hwithout
          · rw [if_neg hle]
            dsimp only
            rw [List.drop_eq_nil_of_le (by
              rw [List.length_append, List.length_singleton]
              omega)]
            rfl

theorem inv_append (hphase : ¬ s.phase.continues = true) (role : Role) : Inv patterns (s.append (.other role)) := by
  have hne : s.messages ++ [.other role] ≠ [] := by simp
  have hopen := endsOpen_append s.messages role
  have hwithout := opensWithout_append s.messages role
  have hsame : (s.append (.other role)).phase = s.phase := rfl
  unfold Inv
  rw [hsame]
  cases hcase : s.phase with
  | idle => trivial
  | injecting pending poll => exact .inr hopen
  | responding => exact hopen
  | toolResults remaining => exact ⟨hne, lastAssistant_append _ _ _⟩
  | turnEnd more => exact ⟨fun _ => hopen, hwithout, lastAssistant_append _ _ _⟩
  | ending => exact ⟨hwithout, lastAssistant_append _ _ _⟩
  | posted => exact ⟨hne, lastAssistant_append _ _ _, fun _ _ _ => hwithout⟩
  | sleeping message => exact ⟨hopen, lastAssistant_append _ _ _⟩
  | compacting willRetry => exact ⟨hne, fun _ => lastAssistant_append _ _ _⟩
  | continuing retry => exact absurd (congrArg Phase.continues hcase) hphase

/-- The queues matter where the session continues only. -/
theorem inv_queues (h : Inv patterns s) (hphase : ¬ s.phase.continues = true) (steering followUp : List Role) :
    Inv patterns { s with steeringQueue := steering, followUpQueue := followUp } := by
  unfold Inv at h ⊢
  dsimp only
  cases hcase : s.phase with
  | continuing retry => exact absurd (congrArg Phase.continues hcase) hphase
  | idle | injecting _ _ | responding | toolResults _ | turnEnd _ | ending | posted | sleeping _
  | compacting _ =>
    rw [hcase] at h
    exact h

theorem inv_messageStart (h : Inv patterns s) (hstep : messageStart s = some s') : Inv patterns s' := by
  unfold Inv at h
  unfold messageStart at hstep
  split at hstep
  · cases hstep
    exact .inr (endsOpen_append _ _)
  next hphase =>
    rw [hphase] at h
    cases hstep
    rcases h with hpending | hopen
    · exact absurd rfl hpending
    · exact hopen
  · cases hstep

theorem inv_poll (h : Inv patterns s) (hstep : poll s = some s') : Inv patterns s' := by
  unfold Inv at h
  unfold poll at hstep
  split at hstep
  next hphase =>
    rw [hphase] at h
    cases hstep
    rcases h with hpending | hopen
    · exact absurd rfl hpending
    · exact .inr hopen
  · cases hstep

theorem inv_respond {toolCalls : Nat} (h : Inv patterns s)
    (hstep : respond s message toolCalls = some s') : Inv patterns s' := by
  unfold Inv at h
  unfold respond at hstep
  split at hstep
  next hphase =>
    rw [hphase] at h
    have hwithout := opensWithout_assistant h message
    have hlast : LastAssistant (fun message' => some message = some message')
        (s.path ++ [.assistant message]) := LastAssistant.single rfl
    dsimp only at hstep
    split at hstep
    · cases hstep
      exact ⟨hwithout, hlast⟩
    · split at hstep
      · cases hstep
        exact ⟨nofun, hwithout, hlast⟩
      · cases hstep
        exact ⟨ne_nil_of_opensWithout hwithout, hlast⟩
  · cases hstep

theorem inv_toolResult {terminate : Bool} (hstep : toolResult s terminate = some s') : Inv patterns s' := by
  unfold toolResult at hstep
  split at hstep
  next remaining _ =>
    cases hstep
    have hlast := lastAssistant_append (fun message => s.lastAssistantMessage = some message) s.path
      .toolResult
    by_cases hzero : remaining = 0
    · rw [if_pos hzero]
      exact ⟨fun _ => endsOpen_append _ _, opensWithout_append _ _, hlast⟩
    · rw [if_neg hzero]
      refine ⟨?_, hlast⟩
      show s.messages ++ [_] ≠ []
      simp
  · cases hstep

theorem inv_turn {shouldStop : Bool} (h : Inv patterns s) (hstep : turn s shouldStop = some s') : Inv patterns s' := by
  unfold Inv at h
  unfold turn at hstep
  split at hstep
  next hasMore hphase =>
    rw [hphase] at h
    obtain ⟨hmore, hwithout, hlast⟩ := h
    split at hstep
    · cases hstep
      exact ⟨hwithout, hlast⟩
    · dsimp only at hstep
      split at hstep
      next hgoes =>
        cases hstep
        rcases hgoes with hcalls | hpending
        · exact .inr (hmore hcalls)
        · exact .inl hpending
      · split at hstep
        next hpending =>
          cases hstep
          exact .inl hpending
        · cases hstep
          exact ⟨hwithout, hlast⟩
  · cases hstep

theorem inv_fails {unpersisted : Option Message} {failure : AssistantMessage}
    (hlegal : Legal patterns s (.fails unpersisted failure))
    (hstep : fails s unpersisted failure = some s') : Inv patterns s' := by
  obtain ⟨-, ⟨⟩⟩ := Option.ite_none_right_eq_some.mp hstep
  refine ⟨?_, LastAssistant.single rfl, fun message hmessage htaken => ?_⟩
  · show _ ++ [_] ≠ []
    simp
  · cases hmessage
    exact opensWithout_assistant (hlegal htaken) failure

theorem inv_continue (hstep : continue_ s = some s') : Inv patterns s' := by
  unfold continue_ at hstep
  split at hstep
  · split at hstep
    · cases hstep
      exact trivial
    next hlast =>
      cases hstep
      refine .inr ?_
      show endsOpen s.messages = true
      unfold endsOpen
      rw [hlast]
    · dsimp only at hstep
      split at hstep
      next hpending =>
        cases hstep
        exact .inl hpending
      · split at hstep
        next hpending =>
          cases hstep
          exact .inl hpending
        · cases hstep
          exact trivial
  · cases hstep

/-- **One step.** -/
theorem inv_step {event : Event} (h : Inv patterns s) (hlegal : Legal patterns s event)
    (hstep : step patterns s event = some s') : Inv patterns s' := by
  unfold step at hstep
  cases event with
  | edit messages path =>
    obtain ⟨hphase, ⟨⟩⟩ := Option.ite_none_right_eq_some.mp hstep
    unfold Inv
    dsimp only
    rw [hphase]
    trivial
  | prompt messages =>
    obtain ⟨hprompt, ⟨⟩⟩ := Option.ite_none_right_eq_some.mp hstep
    exact .inl hprompt.2
  | append role =>
    obtain ⟨hphase, ⟨⟩⟩ := Option.ite_none_left_eq_some.mp hstep
    exact inv_append hphase role
  | steer role =>
    obtain ⟨hphase, ⟨⟩⟩ := Option.ite_none_left_eq_some.mp hstep
    exact inv_queues h hphase _ s.followUpQueue
  | followUp role =>
    obtain ⟨hphase, ⟨⟩⟩ := Option.ite_none_left_eq_some.mp hstep
    exact inv_queues h hphase s.steeringQueue _
  | clearQueue =>
    obtain ⟨hphase, ⟨⟩⟩ := Option.ite_none_left_eq_some.mp hstep
    exact inv_queues h hphase [] []
  | messageStart => exact inv_messageStart h hstep
  | poll => exact inv_poll h hstep
  | respond message toolCalls => exact inv_respond h hstep
  | toolResult terminate => exact inv_toolResult hstep
  | turn shouldStop => exact inv_turn h hstep
  | endRun =>
    obtain ⟨hphase, ⟨⟩⟩ := Option.ite_none_right_eq_some.mp hstep
    unfold Inv at h
    rw [hphase] at h
    exact ⟨ne_nil_of_opensWithout h.1, h.2, fun _ _ _ => h.1⟩
  | fails unpersisted failure => exact inv_fails hlegal hstep
  | crash =>
    obtain ⟨-, ⟨⟩⟩ := Option.ite_none_right_eq_some.mp hstep
    exact trivial
  | handle settings =>
    obtain ⟨hphase, ⟨⟩⟩ := Option.ite_none_right_eq_some.mp hstep
    exact inv_handle h hphase
  | slept completed settings =>
    dsimp only at hstep
    split at hstep
    next message hphase =>
      unfold Inv at h
      rw [hphase] at h
      -- the transcript is open, whether the sleep was completed or cut off
      have hne : s.messages ≠ [] := ne_nil_of_opensWithout (opensWithout_of_endsOpen h.1)
      split at hstep
      · cases hstep
        exact ⟨⟨hne, .inl h.1⟩, fun _ => h.1⟩
      · cases hstep
        refine inv_afterRetry ?_ h.2 fun _ => opensWithout_of_endsOpen h.1
        exact hne
    · cases hstep
  | compacted firstKept =>
    dsimp only at hstep
    split at hstep
    next willRetry hphase =>
      cases firstKept with
      | none =>
        cases hstep
        unfold Inv at h
        rw [hphase] at h
        exact inv_finish h.1
      | some firstKept =>
        cases hstep
        exact inv_compacted h hphase hlegal
    · cases hstep
  | continue_ => exact inv_continue hstep

end Steps

/-! ## Runs -/

/-- Whenever `_handlePostAgentRun` has returned true, `agent.continue()` does not throw, and a retry that has been
announced continues from a transcript that does not end with an assistant message. -/
def Continues (s : AgentSession) : Prop :=
  ∀ retry, s.phase = .continuing retry → s.Continuable ∧ (retry = true → endsOpen s.messages = true)

/-- **Every continuation is legal** along the runs that do not fail behind an assistant message and do not
bring back a response before one that is retried. -/
theorem continuations_legal (patterns : Patterns) (steeringMode followUpMode : QueueMode) (events : List Event)
    (h : Transition.Clean (step patterns) (Legal patterns) (.create steeringMode followUpMode) events) :
    Transition.Always (step patterns) Continues (.create steeringMode followUpMode) events := by
  have hstart : Inv patterns (.create steeringMode followUpMode) := trivial
  refine Transition.always_of_clean (fun s hinv retry hphase => ?_)
    (fun _ _ _ hinv hlegal hstep => inv_step hinv hlegal hstep) hstart h
  unfold Inv at hinv
  rw [hphase] at hinv
  exact hinv

/-- All errors that say so can be retried, or are overflows. -/
def samplePatterns : Patterns :=
  { overflow := fun message => message = "prompt is too long"
    retryable := fun message => message = "overloaded" }

def sampleSettings : Settings :=
  { retryEnabled := true
    maxRetries := 3
    compactionEnabled := true
    model := some ⟨"p", "m", 1000, 100⟩
    fromBeforeCompaction := false
    overThreshold := false }

def errorMessage (errorMessage : String) : AssistantMessage :=
  { provider := "p", model := "m", stopReason := .error, errorMessage := some errorMessage
    usage := ⟨0, 0, 0⟩ }

/-- A prompt whose response is an overflow. The transcript is compacted, and the response retried. -/
theorem continuations_legal_overflow :
    Transition.Always (step samplePatterns) Continues (.create .all .all)
      [.prompt [.user], .messageStart, .poll, .messageStart, .respond (errorMessage "prompt is too long") 0,
        .endRun, .handle sampleSettings, .compacted (some 0), .continue_] :=
  continuations_legal samplePatterns .all .all _ (by decide)

/-- The response is retried once, and then an overflow: the compaction brings back both. -/
theorem retried_error_kept : ∃ patterns events,
    ¬ Transition.Always (step patterns) Continues (.create .all .all) events := by
  refine ⟨samplePatterns, [.prompt [.user], .messageStart, .poll, .messageStart,
    .respond (errorMessage "overloaded") 0, .endRun, .handle sampleSettings,
    .slept true sampleSettings, .continue_, .poll, .messageStart,
    .respond (errorMessage "prompt is too long") 0, .endRun, .handle sampleSettings,
    .compacted (some 0)], fun h => ?_⟩
  have hlegal := (h _ (List.prefix_refl _) _ rfl true rfl).1.2
  revert hlegal
  decide

end Mcpi.CodingAgent.PostRun
