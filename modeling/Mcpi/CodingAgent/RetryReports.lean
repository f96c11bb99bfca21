import Mcpi.CodingAgent.Continuations

/-!
# Reports of retries

Both retry loops say what they do: a retry is scheduled, a series of retries has finished, and at the end of
a run whether it is retried. What they say is watched together with what the calls come to. A series that is
open is closed by one report, which says what the last call came to.
-/

namespace Mcpi.CodingAgent.PostRun

open Mcpi.Agent (QueueMode)

structure RetryPolicy where
  enabled : Bool
  maxRetries : Nat
  baseDelayMs : Nat

def RetryPolicy.maxAttempts (policy : RetryPolicy) : Nat := if policy.enabled then policy.maxRetries else 0

def RetryPolicy.delayMs (policy : RetryPolicy) (attempt : Nat) : Nat :=
  policy.baseDelayMs * 2 ^ (attempt - 1)

/-- What a call comes to, and what is said: `auto_retry_start` or `onRetryScheduled`, `auto_retry_end` or
`onRetryFinished`, and `agent_end`. -/
inductive Report
  | outcome (message : AssistantMessage)
  | scheduled (attempt maxAttempts delayMs : Nat) (errorMessage : String)
  | finished (success : Bool) (attempt : Nat) (finalError : Option String)
  | agentEnd (willRetry : Bool)

/-- `message.errorMessage || "Unknown error"` -/
def errorText (message : AssistantMessage) : String :=
  match message.errorMessage with
  | some text => if text = "" then "Unknown error" else text
  | none => "Unknown error"

/-! ## The watch -/

/-- The retries of the series that is open, what the last call has come to, and what the last `agent_end`
has said. -/
structure Watch where
  attempt : Nat
  last : Option AssistantMessage
  announced : Option Bool

def Watch.start : Watch := ⟨0, none, none⟩

/-- No series is open and no retry is due. -/
def Watch.Settled (w : Watch) : Prop := w.attempt = 0 ∧ w.announced ≠ some true

def completed (message : AssistantMessage) : Bool :=
  message.stopReason ≠ .error && message.stopReason ≠ .aborted

section Watching

variable (patterns : Patterns) (policy : RetryPolicy) (announces : Bool)

/-- What may be said. `announces` is where `agent_end` says before whether a retry follows. -/
def observe (w : Watch) : Report → Option Watch
  | .outcome message =>
    if w.attempt = 0 ∨ w.last.all (fun last => !completed last) then some { w with last := some message }
    else none
  | .scheduled attempt _ _ _ =>
    if attempt = w.attempt + 1 ∧ attempt ≤ policy.maxAttempts ∧
        w.last.any (isRetryableAssistantError patterns) ∧ (announces → w.announced = some true) then
      some { w with attempt, announced := none }
    else none
  | .finished success attempt _ =>
    if 0 < attempt ∧ attempt = w.attempt ∧ w.last.any (fun last => completed last = success) then
      some { w with attempt := 0 }
    else none
  | .agentEnd willRetry =>
    if w.announced = some true then none else some { w with announced := some willRetry }

def observeAll (w : Watch) (reports : List Report) : Option Watch :=
  reports.foldlM (observe patterns policy announces) w

end Watching

/-! ## The helper -/

section Helper

variable (patterns : Patterns) (policy : RetryPolicy) (calls : Nat → Option AssistantMessage) (sleeps : Nat → Bool)

/-- The loop of `retryAssistantCall`. A call may throw, and a sleep be aborted. -/
def retryLoop : (remaining attempt : Nat) → (lastRetry : Option (Nat × String)) → List Report × Option AssistantMessage
  | remaining, attempt, lastRetry =>
    match calls attempt with
    | none => ([], none)
    | some response =>
      let finished (success : Bool) (finalError : Option String) : List Report :=
        lastRetry.toList.map fun retry => .finished success retry.1 finalError
      if response.stopReason = .aborted then
        (.outcome response :: finished false none, some response)
      else if response.stopReason ≠ .error then
        (.outcome response :: finished true none, some response)
      else
        match remaining with
        | 0 => (.outcome response :: finished false response.errorMessage, some response)
        | remaining + 1 =>
          if isRetryableAssistantError patterns response then
            let text := errorText response
            let scheduled : Report :=
              .scheduled (attempt + 1) policy.maxAttempts (policy.delayMs (attempt + 1)) text
            if sleeps (attempt + 1) then
              let rest := retryLoop remaining (attempt + 1) (some (attempt + 1, text))
              (.outcome response :: scheduled :: rest.1, rest.2)
            else
              ([.outcome response, scheduled, .finished false (attempt + 1) (some text)],
                some { response with stopReason := .aborted, errorMessage := none })
          else (.outcome response :: finished false response.errorMessage, some response)

def retryAssistantCall : List Report × Option AssistantMessage :=
  retryLoop patterns policy calls sleeps policy.maxAttempts 0 none

end Helper

/-! ## The session -/

section Session

variable (patterns : Patterns)

/-- What a step finds: whether a listener of `agent_end` throws, the settings of retries, and the model. -/
structure Found where
  throws : Bool
  policy : RetryPolicy
  model : Option Model

/-- `_willRetryAfterAgentEnd`. The last assistant message of the run is the last that the handler has seen. -/
def willRetryAfterAgentEnd (found : Found) (s : AgentSession) : Bool :=
  found.policy.enabled && s.retryAttempt < found.policy.maxRetries &&
    s.lastAssistantMessage.any (isRetryableError patterns found.model)

def retryEnd (s : AgentSession) (success : Bool) (finalError : Option String) : List Report :=
  if 0 < s.retryAttempt then [.finished success s.retryAttempt finalError] else []

/-- What `_handleAgentEvent` says at the end of an assistant message. -/
def assistantReports (s : AgentSession) (message : AssistantMessage) : List Report :=
  .outcome message :: if message.stopReason ≠ .error then retryEnd s true none else []

/-- The settings of retries in a step. The step behind a run has been given its settings. -/
def policyAt (found : Found) : Event → RetryPolicy
  | .handle settings => { found.policy with enabled := settings.retryEnabled, maxRetries := settings.maxRetries }
  | _ => found.policy

/-- What is said in a step. -/
def reports (s : AgentSession) (found : Found) : Event → List Report
  | .respond message _ => assistantReports s message
  | .endRun => [.agentEnd (willRetryAfterAgentEnd patterns found s)]
  | .fails _ failure =>
    (if found.throws ∧ s.phase = .ending then [.agentEnd (willRetryAfterAgentEnd patterns found s)] else []) ++
      (assistantReports s failure ++
        [.agentEnd (willRetryAfterAgentEnd patterns found (s.assistantEnd failure))])
  | .handle settings =>
    match s.lastAssistantMessage with
    | none => []
    | some message =>
      if isRetryableError patterns settings.model message && settings.retryEnabled &&
          s.retryAttempt + 1 ≤ settings.maxRetries then
        [.scheduled (s.retryAttempt + 1) settings.maxRetries (found.policy.delayMs (s.retryAttempt + 1))
          (errorText message)]
      else if message.stopReason = .error then retryEnd s false message.errorMessage
      else []
  | .slept false _ => [.finished false s.retryAttempt (some "Retry cancelled")]
  | _ => []

/-- The session, what the last `agent_end` has found, and the watch, which is gone where something was said
that may not be. -/
structure WatchedSession where
  session : AgentSession
  atEnd : Found
  watch : Option Watch

/-- What the last `agent_end` has found, behind a step -/
def lastFound (atEnd found : Found) : Event → Found
  | .endRun => found
  | .fails _ _ => found
  | _ => atEnd

/-- A step, with what it finds -/
def watchedStep (ws : WatchedSession) (e : Event × Found) : Option WatchedSession :=
  (step patterns ws.session e.1).map fun s =>
    ⟨s, lastFound ws.atEnd e.2 e.1, ws.watch.bind fun w =>
      observeAll patterns (policyAt e.2 e.1) true w (reports patterns ws.session e.2 e.1)⟩

/-- What is said is true, and nothing is left to say when the session is idle. -/
def Truthful (ws : WatchedSession) : Prop :=
  ∃ w, ws.watch = some w ∧ (ws.session.phase = .idle → w.Settled)

/-- The settings allow another attempt. -/
def RetryPolicy.Allows (policy : RetryPolicy) (attempt : Nat) : Prop :=
  policy.enabled = true ∧ attempt < policy.maxRetries

/-- Behind a run the settings allow another attempt as they did at its `agent_end`. No call of an open series
is aborted, and no run of it ends without an assistant message; no listener throws at an `agent_end` that
announces a retry. -/
def Reported (ws : WatchedSession) (e : Event × Found) : Prop :=
  let s := ws.session
  match e.1 with
  | .respond message _ => message.stopReason = .aborted → s.retryAttempt = 0
  | .fails _ failure =>
    (failure.stopReason = .aborted → s.retryAttempt = 0) ∧
      (e.2.throws = true → s.phase = .ending → willRetryAfterAgentEnd patterns e.2 s = false)
  | .crash => s.retryAttempt = 0
  | .continue_ => s.retryAttempt = 0 ∨ s.Continuable
  | .handle settings =>
    (policyAt e.2 (.handle settings)).Allows s.retryAttempt ↔ ws.atEnd.policy.Allows s.retryAttempt
  | _ => True

instance (s : AgentSession) : Decidable s.Continuable :=
  inferInstanceAs (Decidable (s.messages ≠ [] ∧ (endsOpen s.messages = true ∨ s.hasQueuedMessages = true)))

instance (policy : RetryPolicy) (attempt : Nat) : Decidable (policy.Allows attempt) :=
  inferInstanceAs (Decidable (_ ∧ _))

instance (ws : WatchedSession) (e : Event × Found) : Decidable (Reported patterns ws e) := by
  unfold Reported
  split <;> infer_instance

end Session

section Proofs

variable {patterns : Patterns} {policy : RetryPolicy} {atEnd found : Found} {announces : Bool}
  {calls : Nat → Option AssistantMessage} {sleeps : Nat → Bool} {s s' : AgentSession} {w : Watch}
  {message : AssistantMessage}

/-! ## What may be said -/

theorem observeAll_cons (report : Report) (reports : List Report) :
    observeAll patterns policy announces w (report :: reports) = (observe patterns policy announces w report).bind
        fun w => observeAll patterns policy announces w reports :=
  List.foldlM_cons

theorem observeAll_append (first second : List Report) :
    observeAll patterns policy announces w (first ++ second) = (observeAll patterns policy announces w first).bind
        fun w => observeAll patterns policy announces w second :=
  List.foldlM_append

/-- In an open series the last call has failed. -/
def Watch.Failing (w : Watch) : Prop :=
  0 < w.attempt → ∃ message, w.last = some message ∧ message.stopReason = .error

theorem not_completed (h : message.stopReason = .error) : completed message = false := by
  rw [completed, h]
  rfl

theorem observe_outcome (h : w.Failing) (message : AssistantMessage) :
    observe patterns policy announces w (.outcome message) = some { w with last := some message } := by
  refine if_pos ?_
  rcases Nat.eq_zero_or_pos w.attempt with hzero | hpos
  · exact .inl hzero
  · obtain ⟨last, hlast, herror⟩ := h hpos
    right
    rw [hlast, Option.all_some, not_completed herror]
    rfl

theorem observe_finished (hpos : 0 < w.attempt) (hlast : w.last = some message) (success : Bool)
    (hsuccess : completed message = success) (finalError : Option String) :
    observe patterns policy announces w (.finished success w.attempt finalError) = some { w with attempt := 0 } := by
  refine if_pos ⟨hpos, rfl, ?_⟩
  rw [hlast, Option.any_some, hsuccess]
  exact decide_eq_true rfl

theorem observeAll_finished (hpos : 0 < w.attempt) (hlast : w.last = some message) (success : Bool)
    (hsuccess : completed message = success) (finalError : Option String) :
    observeAll patterns policy announces w [.finished success w.attempt finalError] = some { w with attempt := 0 } := by
  rw [observeAll_cons, observe_finished hpos hlast success hsuccess]
  rfl

theorem observe_scheduled (hlast : w.last = some message)
    (hretryable : isRetryableAssistantError patterns message = true)
    (hmax : w.attempt + 1 ≤ policy.maxAttempts) (hannounced : announces = true → w.announced = some true)
    (maxAttempts delayMs : Nat) (text : String) :
    observe patterns policy announces w (.scheduled (w.attempt + 1) maxAttempts delayMs text) =
      some { w with attempt := w.attempt + 1, announced := none } := by
  refine if_pos ⟨rfl, hmax, ?_, hannounced⟩
  rw [hlast]
  exact hretryable

theorem error_of_retryable (h : isRetryableAssistantError patterns message = true) : message.stopReason = .error := by
  rw [isRetryableAssistantError, Bool.and_eq_true, decide_eq_true_eq] at h
  exact h.1

/-! ## The loop of the helper -/

/-- The loop between two calls -/
structure Between (w : Watch) (attempt : Nat) (lastRetry : Option (Nat × String)) : Prop where
  same : w.attempt = attempt
  failing : w.Failing
  announced : w.announced = none
  retry : ∀ retry ∈ lastRetry, retry.1 = attempt ∧ 0 < attempt
  first : lastRetry = none → attempt = 0

variable {lastRetry : Option (Nat × String)}

/-- The report at the end of the loop, behind the outcome of the last call -/
theorem Between.finish {attempt : Nat} (h : Between w attempt lastRetry)
    (success : Bool) (hsuccess : completed message = success) (finalError : Option String) :
    ∃ w', observeAll patterns policy announces w (.outcome message ::
      lastRetry.toList.map fun retry => .finished success retry.1 finalError) = some w' ∧ w'.Settled := by
  rw [observeAll_cons, observe_outcome h.failing, Option.bind_some]
  cases hretry : lastRetry with
  | none =>
    refine ⟨_, rfl, h.same.trans (h.first hretry), ?_⟩
    show w.announced ≠ _
    rw [h.announced]
    nofun
  | some retry =>
    obtain ⟨heq, hpos⟩ := h.retry retry hretry
    have hattempt : retry.1 = w.attempt := heq.trans h.same.symm
    refine ⟨{ w with last := some message, attempt := 0 }, ?_, rfl, ?_⟩
    · show observeAll patterns policy announces _ [.finished success retry.1 finalError] = _
      rw [hattempt]
      exact @observeAll_finished patterns policy announces { w with last := some message } message
        (h.same.symm ▸ hpos) rfl success hsuccess finalError
    · show w.announced ≠ _
      rw [h.announced]
      nofun

/-- Nothing is reported where the first call throws. -/
theorem Between.unreported {attempt : Nat} (h : Between w attempt lastRetry)
    (hzero : attempt = 0) : ∃ w', observeAll patterns policy announces w [] = some w' ∧ w'.Settled := by
  refine ⟨w, rfl, h.same.trans hzero, ?_⟩
  rw [h.announced]
  nofun

/-- **The loop closes its series.** -/
theorem observeAll_retryLoop (hcalls : ∀ n, 0 < n → calls n ≠ none) {remaining attempt : Nat}
    (hmax : attempt + remaining = policy.maxAttempts)
    (h : Between w attempt lastRetry) :
    ∃ w', observeAll patterns policy false w
      (retryLoop patterns policy calls sleeps remaining attempt lastRetry).1 = some w' ∧ w'.Settled := by
  have hzero : ∀ attempt, calls attempt = none → attempt = 0 := by
    intro attempt hcall
    by_contra hne
    exact hcalls attempt (Nat.pos_of_ne_zero hne) hcall
  induction remaining generalizing attempt lastRetry w with
  | zero =>
    unfold retryLoop
    cases hcall : calls attempt with
    | none => exact h.unreported (hzero attempt hcall)
    | some response =>
      dsimp only
      split
      next haborted => exact h.finish false (by rw [completed, haborted]; rfl) none
      next haborted =>
        split
        next herror => exact h.finish true (by simp [completed, herror, haborted]) none
        next herror =>
          exact h.finish false (not_completed (not_not.mp herror)) response.errorMessage
  | succ remaining ih =>
    unfold retryLoop
    cases hcall : calls attempt with
    | none => exact h.unreported (hzero attempt hcall)
    | some response =>
      dsimp only
      split
      next haborted => exact h.finish false (by rw [completed, haborted]; rfl) none
      next haborted =>
        split
        next herror => exact h.finish true (by simp [completed, herror, haborted]) none
        next herror =>
          have herror : response.stopReason = .error := not_not.mp herror
          split
          next hretryable =>
            -- The series goes on: the retry is scheduled, and its call made or its sleep aborted.
            have hscheduled : observe patterns policy false { w with last := some response }
                (.scheduled (attempt + 1) policy.maxAttempts (policy.delayMs (attempt + 1)) (errorText response)) =
                some ⟨attempt + 1, some response, none⟩ := by
              rw [← h.same]
              refine @observe_scheduled patterns policy false { w with last := some response } response
                rfl hretryable ?_ nofun _ _ _
              show w.attempt + 1 ≤ _
              rw [h.same]
              omega
            split
            next =>
              rw [observeAll_cons, observe_outcome h.failing, Option.bind_some, observeAll_cons,
                hscheduled, Option.bind_some]
              apply ih (by omega)
              refine ⟨rfl, fun _ => ⟨response, rfl, herror⟩, rfl, ?_, nofun⟩
              rintro retry ⟨⟩
              exact ⟨rfl, Nat.succ_pos attempt⟩
            next =>
              rw [observeAll_cons, observe_outcome h.failing, Option.bind_some, observeAll_cons,
                hscheduled, Option.bind_some]
              exact ⟨⟨0, some response, none⟩, @observeAll_finished patterns policy false
                ⟨attempt + 1, some response, none⟩ response (Nat.succ_pos attempt) rfl false
                (not_completed herror) _, rfl, nofun⟩
          next => exact h.finish false (not_completed herror) response.errorMessage

/-- **The helper's reports are true** where no retried call throws. -/
theorem observeAll_retryAssistantCall (hcalls : ∀ n, 0 < n → calls n ≠ none) :
    ∃ w, observeAll patterns policy false .start (retryAssistantCall patterns policy calls sleeps).1 =
      some w ∧ w.Settled :=
  observeAll_retryLoop hcalls (Nat.zero_add _) ⟨rfl, nofun, rfl, nofun, fun _ => rfl⟩

/-! ## The invariant of the session -/

/-- A run has had its last response. -/
def Ended (s : AgentSession) (w : Watch) : Prop :=
  ∃ message, s.lastAssistantMessage = some message ∧ w.last = some message ∧
    (message.stopReason ≠ .error → s.retryAttempt = 0)

/-- What holds of the watch, phase by phase. -/
def PhaseWatched (patterns : Patterns) (atEnd : Found) (s : AgentSession)
    (w : Watch) : Prop :=
  match s.phase with
  | .idle => s.retryAttempt = 0
  | .toolResults _ => Ended s w
  | .turnEnd _ => Ended s w
  | .ending => Ended s w
  | .posted => Ended s w ∧ w.announced = some (willRetryAfterAgentEnd patterns atEnd s)
  | .sleeping message => 0 < s.retryAttempt ∧ w.last = some message ∧ message.stopReason = .error
  | .compacting _ => s.retryAttempt = 0
  | _ => True

/-- **The watch follows the session.** -/
structure Watched (patterns : Patterns) (atEnd : Found) (s : AgentSession)
    (w : Watch) : Prop where
  attempt : w.attempt = s.retryAttempt
  failing : w.Failing
  announced : s.phase ≠ .posted → w.announced ≠ some true
  phase : PhaseWatched patterns atEnd s w

theorem Watched.quiet (h : Watched patterns atEnd s w) (hattempt : s'.retryAttempt = s.retryAttempt)
    (hposted : s.phase ≠ .posted) (hphase : PhaseWatched patterns atEnd s' w) :
    Watched patterns atEnd s' w :=
  ⟨h.attempt.trans hattempt.symm, h.failing, fun _ => h.announced hposted, hphase⟩

theorem Watched.same (h : Watched patterns atEnd s w) (hattempt : s'.retryAttempt = s.retryAttempt)
    (hlast : s'.lastAssistantMessage = s.lastAssistantMessage) (hphase : s'.phase = s.phase) :
    Watched patterns atEnd s' w := by
  refine ⟨h.attempt.trans hattempt.symm, h.failing, hphase ▸ h.announced, ?_⟩
  have hwatched := h.phase
  unfold PhaseWatched Ended willRetryAfterAgentEnd at hwatched ⊢
  rw [hphase, hattempt, hlast]
  exact hwatched

/-- A session without retries goes on, is compacted or becomes idle. -/
structure Settling (s : AgentSession) : Prop where
  attempt : s.retryAttempt = 0
  phase : s.phase = .idle ∨ (∃ retry, s.phase = .continuing retry) ∨ ∃ willRetry, s.phase = .compacting willRetry

theorem Settling.watched (h : Settling s) (hattempt : w.attempt = 0) (hannounced : w.announced ≠ some true) :
    Watched patterns atEnd s w := by
  refine ⟨hattempt.trans h.attempt.symm, fun hpos => absurd hpos (by omega), fun _ => hannounced, ?_⟩
  unfold PhaseWatched
  rcases h.phase with hphase | ⟨retry, hphase⟩ | ⟨willRetry, hphase⟩
  · rw [hphase]
    exact h.attempt
  · rw [hphase]
    trivial
  · rw [hphase]
    exact h.attempt

theorem settling_finish (h : s.retryAttempt = 0) : Settling s.finish := by
  refine ⟨h, ?_⟩
  unfold AgentSession.finish
  cases hqueued : s.hasQueuedMessages with
  | true => exact .inr (.inl ⟨_, rfl⟩)
  | false => exact .inl rfl

theorem settling_checkCompaction (h : s.retryAttempt = 0) (settings : Settings)
    (message : AssistantMessage) : Settling (s.checkCompaction patterns settings message) := by
  unfold AgentSession.checkCompaction
  split
  · exact settling_finish h
  · split
    · exact settling_finish h
    · split
      · exact settling_finish h
      · dsimp only
        split
        · split
          · exact ⟨h, .inr (.inr ⟨_, rfl⟩)⟩
          · split
            · exact settling_finish h
            · exact ⟨h, .inr (.inr ⟨_, rfl⟩)⟩
        · split
          · exact ⟨h, .inr (.inr ⟨_, rfl⟩)⟩
          · exact settling_finish h

theorem settling_afterRetry (h : message.stopReason ≠ .error → s.retryAttempt = 0) (settings : Settings) :
    Settling (s.afterRetry patterns settings message) := by
  unfold AgentSession.afterRetry
  apply settling_checkCompaction
  split
  next => rfl
  next herror => exact h herror

theorem settling_compacted (h : s.retryAttempt = 0) (willRetry : Bool) (firstKept : Nat) :
    Settling (s.compacted willRetry firstKept) := by
  unfold AgentSession.compacted
  split
  · exact ⟨h, .inr (.inl ⟨_, rfl⟩)⟩
  · exact settling_finish h

/-! ## Steps that report -/

/-- The context window plays no part: a response that can be retried is an error. -/
theorem isRetryableError_eq (model : Option Model) (message : AssistantMessage) :
    isRetryableError patterns model message =
      (!message.errorMessage.any patterns.overflow && isRetryableAssistantError patterns message) := by
  unfold isRetryableError isContextOverflow isRetryableAssistantError
  by_cases herror : message.stopReason = .error
  · simp [herror]
  · simp [herror]

theorem observeAll_assistant (h : Watched patterns atEnd s w)
    (haborted : message.stopReason = .aborted → s.retryAttempt = 0) :
    ∃ w', observeAll patterns policy true w (assistantReports s message) = some w' ∧
      w'.attempt = (s.assistantEnd message).retryAttempt ∧ w'.last = some message ∧ w'.announced = w.announced := by
  have hend : (s.assistantEnd message).retryAttempt =
      if message.stopReason ≠ .error then 0 else s.retryAttempt := rfl
  rw [assistantReports, observeAll_cons, observe_outcome h.failing, Option.bind_some, hend]
  split
  next herror =>
    unfold retryEnd
    split
    next hpos =>
      have hcompleted : completed message = true := by
        have hnot : message.stopReason ≠ .aborted := fun hab => absurd (haborted hab) (by omega)
        simp [completed, herror, hnot]
      rw [← h.attempt] at hpos ⊢
      exact ⟨_, @observeAll_finished patterns policy true { w with last := some message } message hpos rfl
        true hcompleted none, rfl, rfl, rfl⟩
    next hpos => exact ⟨_, rfl, h.attempt.trans (by omega), rfl, rfl⟩
  next => exact ⟨_, rfl, h.attempt, rfl, rfl⟩

theorem ended_assistant (hattempt : w.attempt = (s.assistantEnd message).retryAttempt)
    (hlast : w.last = some message) : w.Failing ∧ Ended (s.assistantEnd message) w := by
  have hend : (s.assistantEnd message).retryAttempt =
      if message.stopReason ≠ .error then 0 else s.retryAttempt := rfl
  constructor
  · intro hpos
    refine ⟨message, hlast, ?_⟩
    by_contra herror
    rw [hattempt, hend, if_pos herror] at hpos
    exact absurd hpos (Nat.lt_irrefl 0)
  · exact ⟨message, rfl, hlast, fun herror => by rw [hend, if_pos herror]⟩

theorem watched_respond {toolCalls : Nat} (h : Watched patterns atEnd s w)
    (haborted : message.stopReason = .aborted → s.retryAttempt = 0)
    (hstep : respond s message toolCalls = some s') :
    ∃ w', observeAll patterns policy true w (assistantReports s message) = some w' ∧
      Watched patterns atEnd s' w' := by
  obtain ⟨w', hobserve, hattempt, hlast, hannounced⟩ := observeAll_assistant h haborted
  obtain ⟨hfailing, hended⟩ := ended_assistant hattempt hlast
  refine ⟨w', hobserve, ?_⟩
  unfold respond at hstep
  split at hstep
  next hphase =>
    have hannounced : w'.announced ≠ some true := by
      rw [hannounced]
      exact h.announced (by rw [hphase]; nofun)
    split at hstep
    · cases hstep
      exact ⟨hattempt, hfailing, fun _ => hannounced, hended⟩
    · split at hstep
      · cases hstep
        exact ⟨hattempt, hfailing, fun _ => hannounced, hended⟩
      · cases hstep
        exact ⟨hattempt, hfailing, fun _ => hannounced, hended⟩
  next => cases hstep

theorem observeAll_agentEnd (hannounced : w.announced ≠ some true) (willRetry : Bool) :
    observeAll patterns policy true w [.agentEnd willRetry] = some { w with announced := some willRetry } :=
  congrArg (Option.bind · some) (if_neg hannounced)

theorem watched_fails {unpersisted : Option Message} (h : Watched patterns atEnd s w)
    (hreported : Reported patterns ⟨s, atEnd, some w⟩ (.fails unpersisted message, found))
    (hstep : fails s unpersisted message = some s') :
    ∃ w', observeAll patterns policy true w
      (reports patterns s found (.fails unpersisted message)) = some w' ∧
      Watched patterns found s' w' := by
  obtain ⟨haborted, hsent⟩ := hreported
  obtain ⟨hrunning, ⟨⟩⟩ := Option.ite_none_right_eq_some.mp hstep
  have hannounced : w.announced ≠ some true := h.announced fun hphase => by
    rw [hphase] at hrunning
    exact absurd hrunning.1 (by decide)
  -- What has been sent before the exception says that no retry follows.
  obtain ⟨w₁, hfirst, hwatched, hannounced⟩ : ∃ w₁, observeAll patterns policy true w
      (if found.throws = true ∧ s.phase = .ending then
        [.agentEnd (willRetryAfterAgentEnd patterns found s)] else []) = some w₁ ∧
      Watched patterns atEnd s w₁ ∧ w₁.announced ≠ some true := by
    split
    next hending =>
      refine ⟨_, observeAll_agentEnd hannounced _, ?_, ?_⟩
      · refine ⟨h.attempt, h.failing, fun _ => ?_, ?_⟩
        · show some _ ≠ _
          rw [hsent hending.1 hending.2]
          nofun
        · have hphase := h.phase
          unfold PhaseWatched at hphase ⊢
          rw [hending.2] at hphase ⊢
          exact hphase
      · show some _ ≠ _
        rw [hsent hending.1 hending.2]
        nofun
    next => exact ⟨w, rfl, h, hannounced⟩
  obtain ⟨w', hobserve, hattempt, hlast, hsame⟩ := observeAll_assistant hwatched haborted
  obtain ⟨hfailing, hended⟩ := ended_assistant hattempt hlast
  rw [reports, observeAll_append, hfirst, Option.bind_some, observeAll_append, hobserve, Option.bind_some,
    observeAll_agentEnd (hsame ▸ hannounced)]
  exact ⟨_, rfl, hattempt, hfailing, fun hnot => absurd rfl hnot, hended, rfl⟩

theorem watched_endRun (h : Watched patterns atEnd s w) (hphase : s.phase = .ending) :
    ∃ w', observeAll patterns policy true w [.agentEnd (willRetryAfterAgentEnd patterns found s)] = some w' ∧
      Watched patterns found { s with phase := .posted } w' := by
  have hended := h.phase
  unfold PhaseWatched at hended
  rw [hphase] at hended
  rw [observeAll_agentEnd (h.announced (by rw [hphase]; nofun))]
  exact ⟨_, rfl, h.attempt, h.failing, fun hnot => absurd rfl hnot, hended, rfl⟩

/-- `_handlePostAgentRun` does what `agent_end` has said. -/
theorem watched_handle {settings : Settings} (h : Watched patterns atEnd s w)
    (hallows : (policyAt found (.handle settings)).Allows s.retryAttempt ↔ atEnd.policy.Allows s.retryAttempt)
    (hphase : s.phase = .posted) :
    ∃ w', observeAll patterns (policyAt found (.handle settings)) true w
        (reports patterns s found (.handle settings)) = some w' ∧
      Watched patterns atEnd (s.handlePostAgentRun patterns settings) w' := by
  have hposted := h.phase
  unfold PhaseWatched at hposted
  rw [hphase] at hposted
  obtain ⟨⟨message, hmessage, hlast, hreset⟩, hannounced⟩ := hposted
  have hallowed : (atEnd.policy.enabled && decide (s.retryAttempt < atEnd.policy.maxRetries)) =
      (settings.retryEnabled && decide (s.retryAttempt < settings.maxRetries)) := by
    rw [Bool.eq_iff_iff, Bool.and_eq_true, Bool.and_eq_true, decide_eq_true_eq, decide_eq_true_eq]
    exact hallows.symm
  rw [willRetryAfterAgentEnd, hmessage, Option.any_some, hallowed] at hannounced
  unfold reports AgentSession.handlePostAgentRun
  rw [hmessage]
  dsimp only
  split
  next hretry =>
    -- The retry that has been announced is scheduled.
    simp only [Bool.and_eq_true, decide_eq_true_eq] at hretry
    obtain ⟨⟨hretryable, henabled⟩, hmax⟩ := hretry
    have hassistant : isRetryableAssistantError patterns message = true := by
      rw [isRetryableError_eq, Bool.and_eq_true] at hretryable
      exact hretryable.2
    have hwill : w.announced = some true := by
      rw [hannounced, henabled, isRetryableError_eq, ← @isRetryableError_eq patterns settings.model, hretryable]
      simp only [Bool.true_and, Bool.and_true, Option.some.injEq, decide_eq_true_eq]
      omega
    have hmaxAttempts : w.attempt + 1 ≤ (policyAt found (.handle settings)).maxAttempts := by
      rw [RetryPolicy.maxAttempts, policyAt, henabled, if_pos rfl, h.attempt]
      exact hmax
    have hscheduled := observe_scheduled hlast hassistant hmaxAttempts (fun _ : true = true => hwill)
      settings.maxRetries (found.policy.delayMs (w.attempt + 1)) (errorText message)
    rw [h.attempt] at hscheduled
    rw [observeAll_cons, hscheduled]
    refine ⟨_, rfl, rfl, ?_, fun _ => nofun, ?_⟩
    · exact fun _ => ⟨message, hlast, error_of_retryable hassistant⟩
    · exact ⟨Nat.succ_pos _, hlast, error_of_retryable hassistant⟩
  next hretry =>
    have hwill : w.announced ≠ some true := by
      rw [hannounced, isRetryableError_eq, ← @isRetryableError_eq patterns settings.model]
      intro htrue
      apply hretry
      simp only [Option.some.injEq, Bool.and_eq_true, decide_eq_true_eq] at htrue ⊢
      exact ⟨⟨htrue.2, htrue.1.1⟩, htrue.1.2⟩
    have hsettling : Settling (AgentSession.afterRetry patterns { s with lastAssistantMessage := none }
        settings message) := by
      apply settling_afterRetry
      exact hreset
    split
    next herror =>
      unfold retryEnd
      split
      next hpos =>
        have hfinished := @observeAll_finished patterns (policyAt found (.handle settings)) true
          w message (h.attempt ▸ hpos) hlast false
          (not_completed herror) message.errorMessage
        rw [h.attempt] at hfinished
        exact ⟨_, hfinished, hsettling.watched rfl hwill⟩
      next hpos => exact ⟨w, rfl, hsettling.watched (h.attempt.trans (by omega)) hwill⟩
    next herror => exact ⟨w, rfl, hsettling.watched (h.attempt.trans (hreset herror)) hwill⟩

theorem watched_slept {settings : Settings} {completed : Bool} (h : Watched patterns atEnd s w)
    (hphase : s.phase = .sleeping message) :
    ∃ w', observeAll patterns policy true w
      (reports patterns s found (.slept completed settings)) = some w' ∧
      Watched patterns atEnd (if completed then { s with phase := .continuing true }
          else { s with retryAttempt := 0 }.afterRetry patterns settings message) w' := by
  have hsleeping := h.phase
  unfold PhaseWatched at hsleeping
  rw [hphase] at hsleeping
  obtain ⟨hpos, hlast, herror⟩ := hsleeping
  have hposted : s.phase ≠ .posted := by
    rw [hphase]
    nofun
  cases completed with
  | true => exact ⟨w, rfl, h.quiet rfl hposted trivial⟩
  | false =>
    rw [reports, ← h.attempt]
    rw [← h.attempt] at hpos
    rw [observeAll_finished hpos hlast false (not_completed herror)]
    exact ⟨_, rfl, (settling_afterRetry (fun _ => rfl) settings).watched rfl (h.announced hposted)⟩

/-! ## Steps that do not report -/

theorem watched_turn {shouldStop : Bool} (h : Watched patterns atEnd s w)
    (hstep : turn s shouldStop = some s') : Watched patterns atEnd s' w := by
  unfold turn at hstep
  split at hstep
  next hasMore hphase =>
    have hposted : s.phase ≠ .posted := by
      rw [hphase]
      nofun
    have hended : Ended s w := by
      have hwatched := h.phase
      unfold PhaseWatched at hwatched
      rw [hphase] at hwatched
      exact hwatched
    split at hstep
    · cases hstep
      exact h.quiet rfl hposted hended
    · dsimp only at hstep
      split at hstep
      · cases hstep
        exact h.quiet rfl hposted trivial
      · split at hstep
        · cases hstep
          exact h.quiet rfl hposted trivial
        · cases hstep
          exact h.quiet rfl hposted hended
  next => cases hstep

theorem watched_messageStart (h : Watched patterns atEnd s w) (hstep : messageStart s = some s') :
    Watched patterns atEnd s' w := by
  unfold messageStart at hstep
  split at hstep
  next hphase =>
    cases hstep
    exact h.quiet rfl (by rw [hphase]; nofun) trivial
  next hphase =>
    cases hstep
    exact h.quiet rfl (by rw [hphase]; nofun) trivial
  next => cases hstep

theorem watched_poll (h : Watched patterns atEnd s w) (hstep : poll s = some s') :
    Watched patterns atEnd s' w := by
  unfold poll at hstep
  split at hstep
  next hphase =>
    cases hstep
    exact h.quiet rfl (by rw [hphase]; nofun) trivial
  next => cases hstep

theorem watched_toolResult {terminate : Bool} (h : Watched patterns atEnd s w)
    (hstep : toolResult s terminate = some s') : Watched patterns atEnd s' w := by
  unfold toolResult at hstep
  split at hstep
  next remaining hphase =>
    cases hstep
    have hended : Ended s w := by
      have hwatched := h.phase
      unfold PhaseWatched at hwatched
      rw [hphase] at hwatched
      exact hwatched
    refine h.quiet rfl (by rw [hphase]; nofun) ?_
    by_cases hzero : remaining = 0
    · rw [if_pos hzero]
      exact hended
    · rw [if_neg hzero]
      exact hended
  next => cases hstep

theorem drain_ne_nil {mode : QueueMode} {queue : List Role} (h : queue ≠ []) : (drain mode queue).1 ≠ [] := by
  cases queue with
  | nil => exact absurd rfl h
  | cons role queue =>
    cases mode with
    | all => exact h
    | oneAtATime => exact List.cons_ne_nil _ _

theorem watched_continue (h : Watched patterns atEnd s w)
    (hcontinue : s.retryAttempt = 0 ∨ s.Continuable) (hstep : continue_ s = some s') :
    Watched patterns atEnd s' w := by
  unfold continue_ at hstep
  split at hstep
  next hphase =>
    have hposted : s.phase ≠ .posted := by
      rw [hphase]
      nofun
    split at hstep
    next hlast =>
      cases hstep
      refine h.quiet rfl hposted (hcontinue.resolve_right fun hable => hable.1 ?_)
      exact List.getLast?_eq_none_iff.mp hlast
    next =>
      cases hstep
      exact h.quiet rfl hposted trivial
    next hlast =>
      dsimp only at hstep
      split at hstep
      · cases hstep
        exact h.quiet rfl hposted trivial
      next hsteering =>
        split at hstep
        · cases hstep
          exact h.quiet rfl hposted trivial
        next hfollowUp =>
          cases hstep
          refine h.quiet rfl hposted (hcontinue.resolve_right fun hable => ?_)
          rcases hable.2 with hopen | hqueued
          · rw [endsOpen, hlast] at hopen
            cases hopen
          · rw [AgentSession.hasQueuedMessages, Bool.or_eq_true, decide_eq_true_eq, decide_eq_true_eq] at hqueued
            rcases hqueued with hne | hne
            · exact hsteering (drain_ne_nil hne)
            · exact hfollowUp (drain_ne_nil hne)
  next => cases hstep

/-- **One step.** -/
theorem watched_step {event : Event} (h : Watched patterns atEnd s w)
    (hreported : Reported patterns ⟨s, atEnd, some w⟩ (event, found)) (hstep : step patterns s event = some s') :
    ∃ w', observeAll patterns (policyAt found event) true w (reports patterns s found event) = some w' ∧
      Watched patterns (lastFound atEnd found event) s' w' := by
  have hphase := h.phase
  unfold PhaseWatched at hphase
  unfold step at hstep
  cases event with
  | edit messages path =>
    obtain ⟨-, ⟨⟩⟩ := Option.ite_none_right_eq_some.mp hstep
    exact ⟨w, rfl, h.same rfl rfl rfl⟩
  | prompt messages =>
    obtain ⟨hidle, ⟨⟩⟩ := Option.ite_none_right_eq_some.mp hstep
    exact ⟨w, rfl, h.quiet rfl (by rw [hidle.1]; nofun) trivial⟩
  | append role =>
    obtain ⟨-, ⟨⟩⟩ := Option.ite_none_left_eq_some.mp hstep
    exact ⟨w, rfl, h.same rfl rfl rfl⟩
  | steer role =>
    obtain ⟨-, ⟨⟩⟩ := Option.ite_none_left_eq_some.mp hstep
    exact ⟨w, rfl, h.same rfl rfl rfl⟩
  | followUp role =>
    obtain ⟨-, ⟨⟩⟩ := Option.ite_none_left_eq_some.mp hstep
    exact ⟨w, rfl, h.same rfl rfl rfl⟩
  | clearQueue =>
    obtain ⟨-, ⟨⟩⟩ := Option.ite_none_left_eq_some.mp hstep
    exact ⟨w, rfl, h.same rfl rfl rfl⟩
  | messageStart => exact ⟨w, rfl, watched_messageStart h hstep⟩
  | poll => exact ⟨w, rfl, watched_poll h hstep⟩
  | respond message toolCalls => exact watched_respond h hreported hstep
  | toolResult terminate => exact ⟨w, rfl, watched_toolResult h hstep⟩
  | turn shouldStop => exact ⟨w, rfl, watched_turn h hstep⟩
  | endRun =>
    obtain ⟨hending, ⟨⟩⟩ := Option.ite_none_right_eq_some.mp hstep
    exact watched_endRun h hending
  | fails unpersisted failure => exact watched_fails h hreported hstep
  | crash =>
    obtain ⟨hrunning, ⟨⟩⟩ := Option.ite_none_right_eq_some.mp hstep
    -- a crash comes in a run, not behind it
    have hposted : s.phase ≠ .posted := by
      intro hposted
      rw [hposted] at hrunning
      exact absurd hrunning (by decide)
    exact ⟨w, rfl, h.quiet rfl hposted hreported⟩
  | handle settings =>
    obtain ⟨hposted, ⟨⟩⟩ := Option.ite_none_right_eq_some.mp hstep
    exact watched_handle h hreported hposted
  | slept completed settings =>
    dsimp only at hstep
    split at hstep
    next message hsleeping =>
      obtain ⟨w', hobserve, hwatched⟩ := watched_slept h hsleeping
      refine ⟨w', hobserve, ?_⟩
      cases completed with
      | true =>
        cases hstep
        exact hwatched
      | false =>
        cases hstep
        exact hwatched
    next => cases hstep
  | compacted firstKept =>
    dsimp only at hstep
    split at hstep
    next willRetry hcompacting =>
      rw [hcompacting] at hphase
      -- what compacts has settled its retries
      have hannounced := h.announced (by rw [hcompacting]; nofun)
      have hattempt := h.attempt.trans hphase
      cases firstKept with
      | none =>
        cases hstep
        exact ⟨w, rfl, (settling_finish hphase).watched hattempt hannounced⟩
      | some firstKept =>
        cases hstep
        exact ⟨w, rfl, (settling_compacted hphase willRetry firstKept).watched hattempt hannounced⟩
    next => cases hstep
  | continue_ => exact ⟨w, rfl, watched_continue h hreported hstep⟩

/-! ## Runs -/

/-- **Both loops report their retries truly**: the session in every run in which no call of an open series is
aborted and none of its runs ends without an assistant message, the helper where no retried call throws. -/
theorem retries_reported (patterns : Patterns) (policy : RetryPolicy) (found : Found)
    (steeringMode followUpMode : QueueMode) (events : List (Event × Found))
    (calls : Nat → Option AssistantMessage) (sleeps : Nat → Bool)
    (hreported : Transition.Clean (watchedStep patterns) (Reported patterns)
      ⟨.create steeringMode followUpMode, found, some .start⟩ events)
    (hcalls : ∀ n, 0 < n → calls n ≠ none) :
    Transition.Always (watchedStep patterns) Truthful ⟨.create steeringMode followUpMode, found, some .start⟩ events ∧
      ∃ w, observeAll patterns policy false .start (retryAssistantCall patterns policy calls sleeps).1 =
        some w ∧ w.Settled := by
  refine ⟨?_, observeAll_retryAssistantCall hcalls⟩
  let inv (ws : WatchedSession) : Prop := ∃ w, ws.watch = some w ∧ Watched patterns ws.atEnd ws.session w
  have hstart : inv ⟨.create steeringMode followUpMode, found, some .start⟩ :=
    ⟨.start, rfl, rfl, nofun, fun _ => nofun, rfl⟩
  refine Transition.always_of_clean ?_ ?_ hstart hreported
  · rintro ⟨s, atEnd, watch⟩ ⟨w, rfl, h⟩
    refine ⟨w, rfl, fun hidle => ?_⟩
    have hphase := h.phase
    unfold PhaseWatched at hphase
    rw [show s.phase = .idle from hidle] at hphase
    exact ⟨h.attempt.trans hphase, h.announced (by rw [show s.phase = .idle from hidle]; nofun)⟩
  · rintro ⟨s, atEnd, watch⟩ ⟨event, found⟩ ws' ⟨w, rfl, h⟩ hclean hstep
    obtain ⟨s'', hs, rfl⟩ := Option.map_eq_some_iff.mp hstep
    obtain ⟨w', hobserve, hwatched⟩ := watched_step h hclean hs
    exact ⟨w', hobserve, hwatched⟩

end Proofs

def samplePolicy : RetryPolicy := { enabled := true, maxRetries := 3, baseDelayMs := 2000 }

def sampleFound : Found := ⟨false, samplePolicy, none⟩

/-- A call that fails and is retried, up to the end of the retried call. Before it, and behind the run, there
are other settings. -/
def retried (message : AssistantMessage) : List (Event × Found) :=
  [(.prompt [.user], { sampleFound with policy := ⟨false, 0, 0⟩ }), (.messageStart, sampleFound),
    (.poll, sampleFound), (.messageStart, sampleFound), (.respond (errorMessage "overloaded") 0, sampleFound),
    (.endRun, { sampleFound with policy := ⟨true, 1, 0⟩ }), (.handle sampleSettings, sampleFound),
    (.slept true sampleSettings, sampleFound), (.continue_, sampleFound), (.poll, sampleFound),
    (.messageStart, sampleFound), (.respond message 0, sampleFound)]

theorem retries_reported_retried :
    Transition.Always (watchedStep samplePatterns) Truthful
        ⟨.create .all .all, sampleFound, some .start⟩ (retried { errorMessage "" with stopReason := .stop }) ∧
      ∃ w, observeAll samplePatterns samplePolicy false .start
        (retryAssistantCall samplePatterns samplePolicy (fun _ => some (errorMessage "overloaded"))
          fun _ => true).1 = some w ∧ w.Settled :=
  retries_reported samplePatterns samplePolicy sampleFound .all .all _ _ _ (by decide) nofun

/-- A retried call that is aborted is reported as a success, and one that throws is not reported. -/
theorem aborted_retry_succeeds :
    ¬ Transition.Always (watchedStep samplePatterns) Truthful
        ⟨.create .all .all, sampleFound, some .start⟩ (retried { errorMessage "" with stopReason := .aborted }) ∧
      ¬ ∃ w, observeAll samplePatterns samplePolicy false .start (retryAssistantCall samplePatterns samplePolicy
          (fun n => if n = 0 then some (errorMessage "overloaded") else none) fun _ => true).1 = some w ∧
        w.Settled := by
  constructor
  · intro h
    obtain ⟨w, hw, -⟩ := h _ (List.prefix_refl _) _ rfl
    cases hw
  · rintro ⟨w, hw, hsettled⟩
    cases hw
    exact absurd hsettled.1 (by decide)

end Mcpi.CodingAgent.PostRun
