import Mathlib.Data.List.Forall2
import Mcpi.Lib.Outcome
import Mcpi.Agent.ToolCalls

/-!
# The results of tool calls

Every call of a message gets one result, in the order of the calls, whichever way the calls are
run. What a call comes to is described once (`Answered`), as what its preparation, its execution
and its finalization return; both modes put the same three together.
-/

namespace Mcpi.Agent

open Procedure (Keeps Spec Sound Yields Settled Determined)

variable {σ δ : Type}

/-! ## What a run leaves alone -/

/-- A property that neither the outside nor an event short of `message_end` changes. -/
structure Steady (inv : World σ δ → Prop) : Prop where
  call : ∀ w c, inv w → inv (World.apply w c)
  env : ∀ w env, inv w → inv { w with env := env }
  event : ∀ w event, (∀ message, event ≠ .message_end message) → inv w → inv (World.process w event)

/-- A listener can throw this. -/
def ListenerThrows (host : ToolHost σ δ) (e : String) : Prop :=
  ∃ event env, (host.listeners event env).2.1 = .error e

/-- The procedure keeps the property, and throws only what a listener threw. -/
def Quiet (host : ToolHost σ δ) (inv : World σ δ → Prop) {α : Type} (x : Run σ δ α) : Prop :=
  Spec inv x (fun _ => inv) fun e w => ListenerThrows host e ∧ inv w

section Quiet

variable {α β : Type} {host : ToolHost σ δ} {assistantMessage : AssistantMessage δ}
  {inv : World σ δ → Prop} {x : Run σ δ α} {f : α → Run σ δ β}

theorem Steady.perform (h : Steady inv) (external : External σ δ α) : Keeps inv (perform external) :=
  keeps_perform external h.call h.env

theorem Quiet.keeps (h : Quiet host inv x) : Keeps inv x :=
  Procedure.spec_consequence h (fun _ hw => hw) (fun _ _ hw => hw) fun _ _ hw => hw.2

theorem Quiet.bind (hx : Quiet host inv x) (hf : ∀ a, Quiet host inv (f a)) : Quiet host inv (x >>= f) :=
  Procedure.spec_bind hx hf

theorem quiet_pure (a : α) : Quiet host inv (pure a : Run σ δ α) := fun _ hw => hw

theorem quiet_read (g : World σ δ → α) : Quiet host inv (Procedure.read g) := fun _ hw => hw

theorem quiet_rescue {g : String → α} (hx : Keeps inv x) : Quiet host inv (Procedure.rescue x fun e => pure (g e)) :=
  Procedure.spec_rescue hx fun _ _ hw => hw

theorem quiet_listeners (h : Steady inv) (event : AgentEvent δ) : Quiet host inv (perform (host.listeners event)) := by
  intro w hw
  have hkeeps := h.perform (host.listeners event) w hw
  rcases hlistener : host.listeners event w.env with ⟨calls, result, env⟩
  have hperform : perform (host.listeners event) w = (result, calls.foldl World.apply { w with env := env }) := by
    unfold perform
    rw [hlistener]
  rw [hperform] at hkeeps ⊢
  cases result with
  | ok _ => exact hkeeps
  | error e => exact ⟨⟨event, w.env, by rw [hlistener]⟩, hkeeps⟩

theorem quiet_emit_of (h : Steady inv) (event : AgentEvent δ) (hevent : ∀ w, inv w → inv (World.process w event)) :
    Quiet host inv (emit host.listeners event) :=
  Quiet.bind (fun w hw => hevent w hw) fun _ => quiet_listeners h event

theorem quiet_emit (h : Steady inv) (event : AgentEvent δ) (hevent : ∀ message, event ≠ .message_end message) :
    Quiet host inv (emit host.listeners event) :=
  quiet_emit_of h event fun w hw => h.event w event hevent hw

theorem quiet_forEach {g : α → Run σ δ Unit} (l : List α) (hg : ∀ a, Quiet host inv (g a)) :
    Quiet host inv (Procedure.forEach g l) :=
  Procedure.spec_forEach l fun a _ => hg a

section

variable (h : Steady inv)
include h

theorem keeps_before (toolCall : AgentToolCall δ) (args : δ) :
    Keeps inv (runBeforeToolCall host assistantMessage toolCall args) := by
  unfold runBeforeToolCall
  split
  · exact Procedure.keeps_pure _
  · exact h.perform _

theorem quiet_prepare (toolCall : AgentToolCall δ) :
    Quiet host inv (prepareToolCall host assistantMessage toolCall) := by
  unfold prepareToolCall
  split
  · exact quiet_pure _
  · apply quiet_rescue
    refine Procedure.keeps_bind (h.perform _) fun _ => ?_
    refine Procedure.keeps_bind (h.perform _) fun _ => ?_
    refine Procedure.keeps_bind (keeps_before h _ _) fun _ => ?_
    exact Procedure.keeps_bind (Procedure.keeps_read _) fun _ => Procedure.keeps_pure _

theorem quiet_execute (hexecuted : ∀ w id, inv w → inv { w with executed := w.executed ++ [id] })
    (prepared : PreparedToolCall δ) : Quiet host inv (executePreparedToolCall host prepared) := by
  refine Quiet.bind (fun w hw => hexecuted w _ hw) fun _ => ?_
  refine Quiet.bind (quiet_rescue (h.perform _)) fun answer => ?_
  exact Quiet.bind (quiet_forEach _ fun _ => quiet_emit h _ nofun) fun _ => quiet_pure _

theorem quiet_after (prepared : PreparedToolCall δ) (executed : ExecutedToolCallOutcome δ) :
    Quiet host inv (runAfterToolCall host assistantMessage prepared executed) := by
  unfold runAfterToolCall
  split
  · exact quiet_pure _
  · exact quiet_rescue (Procedure.keeps_bind (h.perform _) fun _ => Procedure.keeps_pure _)

theorem quiet_finalize (prepared : PreparedToolCall δ) (executed : ExecutedToolCallOutcome δ) :
    Quiet host inv (finalizeExecutedToolCall host assistantMessage prepared executed) := by
  exact Quiet.bind (quiet_after h prepared executed) fun _ => quiet_pure _

theorem quiet_complete (hexecuted : ∀ w id, inv w → inv { w with executed := w.executed ++ [id] })
    (toolCall : AgentToolCall δ) (preparation : Preparation δ) :
    Quiet host inv (completeToolCall host assistantMessage toolCall preparation) := by
  cases preparation with
  | immediate result isError => exact quiet_pure _
  | prepared prepared =>
    exact Quiet.bind (quiet_execute h hexecuted prepared) fun _ => quiet_finalize h prepared _

theorem quiet_start (toolCall : AgentToolCall δ) :
    Quiet host inv (emitToolExecutionStart host toolCall) :=
  quiet_emit h _ nofun

theorem quiet_end (finalized : FinalizedToolCallOutcome δ) :
    Quiet host inv (emitToolExecutionEnd host finalized) :=
  quiet_emit h _ nofun

theorem quiet_enter (toolCall : AgentToolCall δ) (preparation : Preparation δ) :
    Quiet host inv (enterTask host toolCall preparation) := by
  cases preparation with
  | immediate result isError => exact Quiet.bind (quiet_end h _) fun _ => quiet_pure _
  | prepared prepared => exact quiet_pure _

theorem quiet_prepareAll (toolCalls : List (AgentToolCall δ)) :
    Quiet host inv (prepareToolCalls host assistantMessage toolCalls) := by
  induction toolCalls with
  | nil => exact quiet_pure _
  | cons toolCall rest ih =>
    refine Quiet.bind (quiet_start h _) fun _ => Quiet.bind (quiet_prepare h _) fun preparation => ?_
    refine Quiet.bind (quiet_enter h _ _) fun task => Quiet.bind (quiet_read _) fun aborted => ?_
    split
    · exact quiet_pure _
    · exact Quiet.bind ih fun _ => quiet_pure _

theorem quiet_advance
    (hexecuted : ∀ w id, inv w → inv { w with executed := w.executed ++ [id] }) (task : Task δ) :
    Quiet host inv (task.advance host assistantMessage) := by
  cases task with
  | waiting prepared => exact Quiet.bind (quiet_execute h hexecuted prepared) fun _ => quiet_pure _
  | executed prepared outcome =>
    refine Quiet.bind (quiet_finalize h prepared outcome) fun _ => ?_
    exact Quiet.bind (quiet_end h _) fun _ => quiet_pure _
  | done finalized => exact quiet_pure _

theorem quiet_advanceAt (hexecuted : ∀ w id, inv w → inv { w with executed := w.executed ++ [id] })
    (tasks : List (Task δ)) (i : Nat) :
    Quiet host inv (advanceAt host assistantMessage tasks i) := by
  induction tasks generalizing i with
  | nil => exact quiet_pure _
  | cons task tasks ih =>
    cases i with
    | zero => exact Quiet.bind (quiet_advance h hexecuted task) fun _ => quiet_pure _
    | succ i => exact Quiet.bind (ih i) fun _ => quiet_pure _

theorem quiet_runTasks (hexecuted : ∀ w id, inv w → inv { w with executed := w.executed ++ [id] })
    (schedule : List Nat) (tasks : List (Task δ)) :
    Quiet host inv (runTasks host assistantMessage schedule tasks) := by
  induction schedule generalizing tasks with
  | nil => exact quiet_pure _
  | cons i schedule ih =>
    exact Quiet.bind (quiet_advanceAt h hexecuted tasks i) fun tasks => ih tasks

end

/-! The whole of a mode, for properties that no event changes. -/

section Everything

variable (h : Steady inv) (hevent : ∀ w event, inv w → inv (World.process w event))
  (hexecuted : ∀ w id, inv w → inv { w with executed := w.executed ++ [id] })

include h hevent

theorem quiet_report (finalized : FinalizedToolCallOutcome δ) : Quiet host inv (reportFinalized host finalized) := by
  refine Quiet.bind (quiet_read _) fun _ => Quiet.bind ?_ fun _ => quiet_pure _
  exact Quiet.bind (quiet_emit h _ nofun) fun _ => quiet_emit_of h _ fun w hw => hevent w _ hw

theorem quiet_reportAll (finalizedCalls : List (FinalizedToolCallOutcome δ)) :
    Quiet host inv (reportAll host finalizedCalls) := by
  induction finalizedCalls with
  | nil => exact quiet_pure _
  | cons finalized rest ih =>
    exact Quiet.bind (quiet_report h hevent finalized) fun _ => Quiet.bind ih fun _ => quiet_pure _

theorem quiet_reportTasks (tasks : List (Task δ)) : Quiet host inv (reportTasks host tasks) := by
  unfold reportTasks
  split
  · exact quiet_pure _
  · exact Quiet.bind (quiet_reportAll h hevent _) fun _ => quiet_pure _

theorem quiet_truncated (toolCalls : List (AgentToolCall δ)) : Quiet host inv (failTruncated host toolCalls) := by
  induction toolCalls with
  | nil => exact quiet_pure _
  | cons toolCall rest ih =>
    refine Quiet.bind (quiet_start h _) fun _ => Quiet.bind (quiet_end h _) fun _ => ?_
    exact Quiet.bind (quiet_report h hevent _) fun _ => Quiet.bind ih fun _ => quiet_pure _

include hexecuted

theorem quiet_sequential (toolCalls : List (AgentToolCall δ)) :
    Quiet host inv (executeToolCallsSequential host assistantMessage toolCalls) := by
  induction toolCalls with
  | nil => exact quiet_pure _
  | cons toolCall rest ih =>
    refine Quiet.bind (quiet_start h _) fun _ => Quiet.bind (quiet_prepare h _) fun _ => ?_
    refine Quiet.bind (quiet_complete h hexecuted _ _) fun _ => ?_
    refine Quiet.bind (quiet_end h _) fun _ => Quiet.bind (quiet_report h hevent _) fun _ => ?_
    refine Quiet.bind (quiet_read _) fun aborted => ?_
    split
    · exact quiet_pure _
    · exact Quiet.bind ih fun _ => quiet_pure _

theorem quiet_parallel (schedule : List Nat) (toolCalls : List (AgentToolCall δ)) :
    Quiet host inv (executeToolCallsParallel host assistantMessage schedule toolCalls) := by
  refine Quiet.bind (quiet_prepareAll h _) fun _ => ?_
  exact Quiet.bind (quiet_runTasks h hexecuted _ _) fun tasks => quiet_reportTasks h hevent tasks

theorem quiet_answer (schedule : List Nat) : Quiet host inv (answerToolCalls host assistantMessage schedule) := by
  unfold answerToolCalls
  split
  · exact quiet_pure _
  split
  · exact quiet_pure _
  · split
    · exact Quiet.bind (quiet_truncated h hevent _) fun _ => quiet_pure _
    · refine Quiet.bind ?_ fun _ => quiet_pure _
      unfold executeToolCalls
      dsimp only
      split
      · exact Quiet.bind (quiet_sequential h hevent hexecuted _) fun _ => quiet_pure _
      · exact Quiet.bind (quiet_parallel h hevent hexecuted _ _) fun _ => quiet_pure _

end Everything

end Quiet

/-! ## What a call comes to -/

/-- The run has been aborted. -/
def Aborted (w : World σ δ) : Prop := w.aborted = true

theorem steady_aborted : Steady (Aborted (σ := σ) (δ := δ)) where
  call _ _ h := apply_aborted h
  env _ _ h := h
  event _ event _ h := by cases event <;> exact h

theorem aborted_event (w : World σ δ) (event : AgentEvent δ) (h : Aborted w) : Aborted (w.process event) := by
  cases event <;> exact h

/-- **The answer to a call**: what its preparation, its execution and its finalization return in a
run that is not aborted. -/
inductive Answered (host : ToolHost σ δ) (assistantMessage : AssistantMessage δ)
    (toolCall : AgentToolCall δ) : FinalizedToolCallOutcome δ → Prop
  | immediate {result : AgentToolResult δ} {isError : Bool}
      (hprepare : Yields Aborted (prepareToolCall host assistantMessage toolCall) (.immediate result isError)) :
      Answered host assistantMessage toolCall ⟨toolCall, result, isError⟩
  | completed {prepared : PreparedToolCall δ} {outcome : ExecutedToolCallOutcome δ}
      {finalized : FinalizedToolCallOutcome δ}
      (hprepare : Yields Aborted (prepareToolCall host assistantMessage toolCall) (.prepared prepared))
      (hexecute : Yields Aborted (executePreparedToolCall host prepared) outcome)
      (hfinalize : Yields Aborted (finalizeExecutedToolCall host assistantMessage prepared outcome) finalized) :
      Answered host assistantMessage toolCall finalized

/-- The message of a finalized call. -/
def Reports (finalized : FinalizedToolCallOutcome δ) (message : ToolResultMessage δ) : Prop :=
  ∃ timestamp, message = toolResultMessage finalized timestamp

/-- How far a call has got in parallel mode. -/
inductive Advances (host : ToolHost σ δ) (assistantMessage : AssistantMessage δ)
    (toolCall : AgentToolCall δ) : Task δ → Prop
  | waiting {prepared : PreparedToolCall δ}
      (hprepare : Yields Aborted (prepareToolCall host assistantMessage toolCall) (.prepared prepared)) :
      Advances host assistantMessage toolCall (.waiting prepared)
  | executed {prepared : PreparedToolCall δ} {outcome : ExecutedToolCallOutcome δ}
      (hprepare : Yields Aborted (prepareToolCall host assistantMessage toolCall) (.prepared prepared))
      (hexecute : Yields Aborted (executePreparedToolCall host prepared) outcome) :
      Advances host assistantMessage toolCall (.executed prepared outcome)
  | done {finalized : FinalizedToolCallOutcome δ}
      (hanswered : Answered host assistantMessage toolCall finalized) :
      Advances host assistantMessage toolCall (.done finalized)

section Answers

variable {host : ToolHost σ δ} {assistantMessage : AssistantMessage δ}

variable {tasks : List (Task δ)} {finalizedCalls : List (FinalizedToolCallOutcome δ)}
  {toolCall : AgentToolCall δ} {toolCalls : List (AgentToolCall δ)}

/-- A part of the run of which nothing has to be known. -/
theorem Quiet.sound {α : Type} {x : Run σ δ α} (h : Quiet host Aborted x) : Sound Aborted x fun _ => True :=
  ⟨h.keeps, fun _ _ _ _ _ => trivial⟩

theorem sound_perform {α : Type} (external : External σ δ α) : Sound Aborted (perform external) fun _ => True :=
  ⟨steady_aborted.perform external, fun _ _ _ _ _ => trivial⟩

theorem sound_signal : Sound (ω := World σ δ) Aborted signalAborted fun aborted => aborted = false := by
  refine ⟨Procedure.keeps_read _, fun w aborted w' hrun hlive => ?_⟩
  cases hrun
  exact Bool.eq_false_iff.mpr hlive

theorem sound_report (finalized : FinalizedToolCallOutcome δ) :
    Sound Aborted (reportFinalized host finalized) (Reports finalized) := by
  have hread : Sound (ω := World σ δ) Aborted (createToolResultMessage host finalized) (Reports finalized) := by
    refine ⟨Procedure.keeps_read _, fun w message w' hrun _ => ?_⟩
    cases hrun
    exact ⟨_, rfl⟩
  refine hread.bind fun message => ?_
  have hemit : Quiet host Aborted (emitToolResultMessage host message) :=
    Quiet.bind (quiet_emit steady_aborted _ nofun) fun _ =>
      quiet_emit_of steady_aborted _ fun w hw => aborted_event w _ hw
  exact hemit.sound.bind fun _ => Procedure.sound_pure fun _ h => h

theorem sound_complete (preparation : Preparation δ) :
    Sound Aborted (completeToolCall host assistantMessage toolCall preparation) fun finalized =>
      Yields Aborted (prepareToolCall host assistantMessage toolCall) preparation →
        Answered host assistantMessage toolCall finalized := by
  cases preparation with
  | immediate result isError => exact Procedure.sound_pure fun h => .immediate h
  | prepared prepared =>
    have hexecute : Quiet host Aborted (executePreparedToolCall host prepared) :=
      quiet_execute steady_aborted (fun _ _ hw => hw) prepared
    refine (Procedure.sound_yields hexecute.keeps).bind fun outcome => ?_
    refine (Procedure.sound_yields (quiet_finalize steady_aborted prepared outcome).keeps).mono ?_
    exact fun finalized hfinalize hexecute hprepare => .completed hprepare hexecute hfinalize

/-- One after another, each call gets its answer, and each answer its message. -/
theorem sound_sequential (toolCalls : List (AgentToolCall δ)) :
    Sound Aborted (executeToolCallsSequential host assistantMessage toolCalls) fun batch =>
      List.Forall₂ (Answered host assistantMessage) toolCalls batch.1 ∧ List.Forall₂ Reports batch.1 batch.2 := by
  induction toolCalls with
  | nil => exact Procedure.sound_pure ⟨.nil, .nil⟩
  | cons toolCall rest ih =>
    refine (quiet_start steady_aborted toolCall).sound.bind fun _ => ?_
    refine (Procedure.sound_yields (quiet_prepare steady_aborted toolCall).keeps).bind fun preparation => ?_
    refine (sound_complete preparation).bind fun finalized => ?_
    refine (quiet_end steady_aborted finalized).sound.bind fun _ => ?_
    refine (sound_report finalized).bind fun message => sound_signal.bind fun aborted => ?_
    split
    next haborted => exact Procedure.sound_pure fun hlive => by rw [haborted] at hlive; cases hlive
    · refine ih.bind fun batch => Procedure.sound_pure ?_
      intro hbatch _ hreports _ hanswered hprepare _
      exact ⟨.cons (hanswered hprepare) hbatch.1, .cons hreports hbatch.2⟩

theorem sound_enter (assistantMessage : AssistantMessage δ) (preparation : Preparation δ) :
    Sound Aborted (enterTask host toolCall preparation) fun task =>
      Yields Aborted (prepareToolCall host assistantMessage toolCall) preparation →
        Advances host assistantMessage toolCall task := by
  cases preparation with
  | immediate result isError =>
    refine (quiet_end steady_aborted _).sound.bind fun _ => Procedure.sound_pure ?_
    exact fun _ hprepare => .done (.immediate hprepare)
  | prepared prepared => exact Procedure.sound_pure fun hprepare => .waiting hprepare

theorem sound_prepareAll (toolCalls : List (AgentToolCall δ)) :
    Sound Aborted (prepareToolCalls host assistantMessage toolCalls)
      (List.Forall₂ (Advances host assistantMessage) toolCalls) := by
  induction toolCalls with
  | nil => exact Procedure.sound_pure .nil
  | cons toolCall rest ih =>
    refine (quiet_start steady_aborted toolCall).sound.bind fun _ => ?_
    refine (Procedure.sound_yields (quiet_prepare steady_aborted toolCall).keeps).bind fun preparation => ?_
    refine (sound_enter assistantMessage preparation).bind fun task => sound_signal.bind fun aborted => ?_
    split
    next haborted => exact Procedure.sound_pure fun hlive => by rw [haborted] at hlive; cases hlive
    · refine ih.bind fun tasks => Procedure.sound_pure ?_
      exact fun htasks _ htask hprepare _ => .cons (htask hprepare) htasks

theorem sound_advance {task : Task δ} (htask : Advances host assistantMessage toolCall task) :
    Sound Aborted (task.advance host assistantMessage) (Advances host assistantMessage toolCall) := by
  cases htask with
  | @waiting prepared hprepare =>
    have hexecute : Quiet host Aborted (executePreparedToolCall host prepared) :=
      quiet_execute steady_aborted (fun _ _ hw => hw) prepared
    refine (Procedure.sound_yields hexecute.keeps).bind fun outcome => Procedure.sound_pure ?_
    exact fun hexecute => .executed hprepare hexecute
  | @executed prepared outcome hprepare hexecute =>
    refine (Procedure.sound_yields (quiet_finalize steady_aborted prepared outcome).keeps).bind fun finalized => ?_
    refine (quiet_end steady_aborted finalized).sound.bind fun _ =>
      Procedure.sound_pure ?_
    exact fun _ hfinalize => .done (.completed hprepare hexecute hfinalize)
  | done hanswered => exact Procedure.sound_pure (.done hanswered)

theorem sound_advanceAt (htasks : List.Forall₂ (Advances host assistantMessage) toolCalls tasks) (i : Nat) :
    Sound Aborted (advanceAt host assistantMessage tasks i)
      (List.Forall₂ (Advances host assistantMessage) toolCalls) := by
  induction htasks generalizing i with
  | nil => exact Procedure.sound_pure .nil
  | cons htask htasks ih =>
    cases i with
    | zero =>
      exact (sound_advance htask).bind fun _ => Procedure.sound_pure fun h => .cons h htasks
    | succ i => exact (ih i).bind fun _ => Procedure.sound_pure fun h => .cons htask h

theorem sound_runTasks (schedule : List Nat) (htasks : List.Forall₂ (Advances host assistantMessage) toolCalls tasks) :
    Sound Aborted (runTasks host assistantMessage schedule tasks)
      (List.Forall₂ (Advances host assistantMessage) toolCalls) := by
  induction schedule generalizing tasks with
  | nil => exact Procedure.sound_pure htasks
  | cons i schedule ih =>
    refine (sound_advanceAt htasks i).bind_of (fun tasks => ?_) fun tasks htasks => ih htasks
    exact (quiet_runTasks steady_aborted (fun _ _ hw => hw) schedule tasks).keeps

theorem answered_of_finalized (htasks : List.Forall₂ (Advances host assistantMessage) toolCalls tasks)
    (hall : tasks.mapM Task.finalized? = some finalizedCalls) :
    List.Forall₂ (Answered host assistantMessage) toolCalls finalizedCalls := by
  induction htasks generalizing finalizedCalls with
  | nil =>
    cases hall
    exact .nil
  | cons htask htasks ih =>
    rw [List.mapM_cons] at hall
    simp only [bind, Option.bind_eq_some_iff, pure, Option.some.injEq] at hall
    obtain ⟨finalized, hone, rest, hrest, rfl⟩ := hall
    cases htask with
    | done hanswered =>
      cases hone
      exact .cons hanswered (ih hrest)
    | waiting | executed => cases hone

theorem sound_reportAll (finalizedCalls : List (FinalizedToolCallOutcome δ)) :
    Sound Aborted (reportAll host finalizedCalls) (List.Forall₂ Reports finalizedCalls) := by
  induction finalizedCalls with
  | nil => exact Procedure.sound_pure .nil
  | cons finalized rest ih =>
    refine (sound_report finalized).bind fun message => ih.bind fun messages =>
      Procedure.sound_pure ?_
    exact fun hmessages hmessage => .cons hmessage hmessages

/-- In parallel, the same of every batch whose executions have completed. -/
theorem sound_parallel (schedule : List Nat) (toolCalls : List (AgentToolCall δ)) :
    Sound Aborted (executeToolCallsParallel host assistantMessage schedule toolCalls) fun result =>
      ∀ batch, result = some batch → List.Forall₂ (Answered host assistantMessage) toolCalls batch.1 ∧
          List.Forall₂ Reports batch.1 batch.2 := by
  have hreport : ∀ tasks : List (Task δ), Quiet host Aborted (reportTasks host tasks) :=
    quiet_reportTasks steady_aborted aborted_event
  refine (sound_prepareAll toolCalls).bind_of (fun tasks => ?_) fun tasks htasks => ?_
  · exact (Quiet.bind (quiet_runTasks steady_aborted (fun _ _ hw => hw) schedule tasks) hreport).keeps
  · refine (sound_runTasks schedule htasks).bind_of (fun tasks => (hreport tasks).keeps) fun tasks htasks => ?_
    unfold reportTasks
    cases hall : tasks.mapM Task.finalized? with
    | none => exact Procedure.sound_pure nofun
    | some finalizedCalls =>
      refine (sound_reportAll finalizedCalls).bind fun messages => Procedure.sound_pure ?_
      rintro hmessages _ ⟨⟩
      exact ⟨answered_of_finalized htasks hall, hmessages⟩

theorem sound_truncated (toolCalls : List (AgentToolCall δ)) :
    Sound Aborted (failTruncated host toolCalls) (List.Forall₂ Reports (toolCalls.map (truncatedToolCall host))) := by
  induction toolCalls with
  | nil => exact Procedure.sound_pure .nil
  | cons toolCall rest ih =>
    refine (quiet_start steady_aborted toolCall).sound.bind fun _ => ?_
    refine (quiet_end steady_aborted (truncatedToolCall host toolCall)).sound.bind fun _ => ?_
    refine (sound_report _).bind fun message => ih.bind fun messages => Procedure.sound_pure ?_
    exact fun hmessages hmessage _ _ => .cons hmessage hmessages

/-- What the calls of a message come to, whichever way the message ended. -/
def Finalized (host : ToolHost σ δ) (assistantMessage : AssistantMessage δ)
    (finalizedCalls : List (FinalizedToolCallOutcome δ)) : Prop :=
  if EndsRun assistantMessage.stopReason then finalizedCalls = []
  else if assistantMessage.stopReason = .length then
    finalizedCalls = assistantMessage.toolCalls.map (truncatedToolCall host)
  else List.Forall₂ (Answered host assistantMessage) assistantMessage.toolCalls finalizedCalls

theorem sound_executeToolCalls (schedule : List Nat) :
    Sound Aborted (executeToolCalls host assistantMessage schedule) fun result =>
      ∀ batch, result = some batch → ∃ finalizedCalls,
        List.Forall₂ (Answered host assistantMessage) assistantMessage.toolCalls finalizedCalls ∧
          List.Forall₂ Reports finalizedCalls batch.messages := by
  unfold executeToolCalls
  dsimp only
  split
  · refine (sound_sequential _).bind fun batch => Procedure.sound_pure ?_
    rintro hbatch _ ⟨⟩
    exact ⟨batch.1, hbatch⟩
  · refine (sound_parallel schedule _).bind fun result => Procedure.sound_pure ?_
    intro hresult batch hbatch
    obtain ⟨batch, rfl, rfl⟩ := Option.map_eq_some_iff.mp hbatch
    exact ⟨batch.1, hresult batch rfl⟩

theorem sound_answer (schedule : List Nat) :
    Sound Aborted (answerToolCalls host assistantMessage schedule) fun result =>
      ∀ messages more, result = some (messages, more) → ∃ finalizedCalls,
        Finalized host assistantMessage finalizedCalls ∧ List.Forall₂ Reports finalizedCalls messages := by
  unfold answerToolCalls Finalized
  split
  next hends =>
    refine Procedure.sound_pure ?_
    rintro _ _ ⟨⟩
    exact ⟨[], rfl, .nil⟩
  next hgoes =>
  split
  next hnone =>
    rw [List.isEmpty_iff] at hnone
    refine Procedure.sound_pure ?_
    rintro _ _ ⟨⟩
    refine ⟨[], ?_, .nil⟩
    rw [hnone]
    split
    · rfl
    · exact .nil
  · split
    next hlength =>
      refine (sound_truncated _).bind fun messages => Procedure.sound_pure ?_
      rintro hmessages _ _ ⟨⟩
      exact ⟨_, rfl, hmessages⟩
    next hlength =>
      refine (sound_executeToolCalls schedule).bind fun result => Procedure.sound_pure ?_
      intro hresult messages more hsome
      obtain ⟨batch, rfl, hbatch⟩ := Option.map_eq_some_iff.mp hsome
      cases hbatch
      exact hresult batch rfl

/-! ## Ids and names -/

theorem decidePreparation_prepared {prepared prepared' : PreparedToolCall δ}
    {before : Option BeforeToolCallResult} {aborted : Bool}
    (h : decidePreparation host prepared before aborted = .prepared prepared') :
    prepared' = prepared := by
  unfold decidePreparation at h
  split at h
  · cases h
  · split at h
    · split at h
      · cases h
      · exact (Preparation.prepared.inj h).symm
    · exact (Preparation.prepared.inj h).symm

theorem prepared_toolCall {prepared : PreparedToolCall δ}
    (h : Yields Aborted (prepareToolCall host assistantMessage toolCall) (.prepared prepared)) :
    prepared.toolCall = toolCall := by
  have hsound : Sound Aborted (prepareToolCall host assistantMessage toolCall) fun preparation =>
      ∀ prepared, preparation = .prepared prepared → prepared.toolCall = toolCall := by
    unfold prepareToolCall
    split
    · exact Procedure.sound_pure nofun
    · refine Sound.rescue ?_ fun _ => Procedure.sound_pure nofun
      refine (sound_perform _).bind fun _ => (sound_perform _).bind fun args => ?_
      refine Sound.bind ⟨keeps_before steady_aborted _ _, fun _ _ _ _ _ => trivial⟩ fun before => ?_
      refine sound_signal.bind fun aborted => Procedure.sound_pure ?_
      intro _ _ _ _ prepared hprepared
      rw [decidePreparation_prepared hprepared]
  obtain ⟨w, w', hrun, hlive⟩ := h
  exact hsound.result w _ w' hrun hlive prepared rfl

theorem Answered.toolCall_eq {finalized : FinalizedToolCallOutcome δ}
    (h : Answered host assistantMessage toolCall finalized) : finalized.toolCall = toolCall := by
  cases h with
  | immediate => rfl
  | @completed prepared outcome _ hprepare hexecute hfinalize =>
    obtain ⟨outcome', -, hreturn⟩ := hfinalize.bind fun _ => Procedure.keeps_pure _
    obtain ⟨_, _, ⟨⟩, -⟩ := hreturn
    exact prepared_toolCall hprepare

theorem answered_calls (h : List.Forall₂ (Answered host assistantMessage) toolCalls finalizedCalls) :
    finalizedCalls.map FinalizedToolCallOutcome.toolCall = toolCalls := by
  induction h with
  | nil => rfl
  | cons hone _ ih => rw [List.map_cons, hone.toolCall_eq, ih]

theorem Finalized.toolCalls_eq (h : Finalized host assistantMessage finalizedCalls)
    (hgoes : ¬ EndsRun assistantMessage.stopReason) :
    finalizedCalls.map FinalizedToolCallOutcome.toolCall = assistantMessage.toolCalls := by
  unfold Finalized at h
  rw [if_neg hgoes] at h
  split at h
  · rw [h, List.map_map]
    exact List.map_id _
  · exact answered_calls h

theorem reports_calls {messages : List (ToolResultMessage δ)} (h : List.Forall₂ Reports finalizedCalls messages) :
    messages.map (fun message => (message.toolCallId, message.toolName)) =
      finalizedCalls.map fun finalized => (finalized.toolCall.id, finalized.toolCall.name) := by
  induction h with
  | nil => rfl
  | cons hone _ ih =>
    obtain ⟨timestamp, rfl⟩ := hone
    rw [List.map_cons, List.map_cons, ih]
    rfl

/-- The messages without the time at which they were made. -/
theorem reports_content {messages : List (ToolResultMessage δ)} (h : List.Forall₂ Reports finalizedCalls messages) :
    messages.map (fun message => { message with timestamp := 0 }) =
      finalizedCalls.map fun finalized => toolResultMessage finalized 0 := by
  induction h with
  | nil => rfl
  | cons hone _ ih =>
    obtain ⟨timestamp, rfl⟩ := hone
    rw [List.map_cons, List.map_cons, ih]
    rfl

end Answers

/-! ## The transcript -/

section Transcript

variable {host : ToolHost σ δ} {assistantMessage : AssistantMessage δ}

/-- Once `base` has been added to the transcript, this part of the run brings that to `out`. -/
def Appends (base : List (ToolResultMessage δ)) {α : Type} (x : Run σ δ α)
    (out : α → List (ToolResultMessage δ)) : Prop :=
  ∀ transcript, Spec (fun w => w.messages = transcript ++ base.map .toolResult) x
    (fun a w => w.messages = transcript ++ (out a).map .toolResult) fun _ _ => True

section Rules

variable {α β : Type} {x : Run σ δ α} {f : α → Run σ δ β} {base : List (ToolResultMessage δ)}
  {out : α → List (ToolResultMessage δ)} {out' : β → List (ToolResultMessage δ)}

theorem steady_messages (transcript : List (AgentMessage δ)) :
    Steady (σ := σ) fun w => w.messages = transcript where
  call w c h := by rw [apply_messages, h]
  env _ _ h := h
  event w event hevent h := by
    cases event with
    | message_end message => exact absurd rfl (hevent message)
    | _ => exact h

theorem appends_quiet (h : ∀ transcript, Quiet host (fun w => w.messages = transcript) x) :
    Appends base x fun _ => base := by
  intro transcript
  exact Procedure.spec_consequence (h _) (fun _ hw => hw) (fun _ _ hw => hw) fun _ _ _ => trivial

theorem appends_pure {a : α} (h : out a = base) : Appends base (pure a : Run σ δ α) out := by
  intro transcript w hw
  show w.messages = transcript ++ (out a).map _
  rw [h]
  exact hw

theorem appends_read (g : World σ δ → α) : Appends base (Procedure.read g) fun _ => base :=
  fun _ _ hw => hw

theorem Appends.bind (hx : Appends base x out) (hf : ∀ a, Appends (out a) (f a) out') : Appends base (x >>= f) out' :=
  fun transcript => Procedure.spec_bind (hx transcript) fun a => hf a transcript

theorem Appends.after (h : ∀ transcript, Quiet host (fun w => w.messages = transcript) x)
    (hf : ∀ a, Appends base (f a) out') : Appends base (x >>= f) out' :=
  (appends_quiet h).bind hf

end Rules

theorem appends_report (base : List (ToolResultMessage δ)) (finalized : FinalizedToolCallOutcome δ) :
    Appends base (reportFinalized host finalized) fun message => base ++ [message] := by
  have hemit : ∀ message, Appends base (emitToolResultMessage host message) fun _ => base ++ [message] := by
    intro message
    refine Appends.after (fun _ => quiet_emit (steady_messages _) _ nofun) fun _ transcript => ?_
    have hrecord : Spec (fun w : World σ δ => w.messages = transcript ++ base.map .toolResult)
        (Procedure.update fun w => w.process (.message_end (.toolResult message)))
        (fun _ w => w.messages = transcript ++ (base ++ [message]).map .toolResult)
        fun (_ : String) _ => True := by
      intro w hw
      show w.messages ++ [.toolResult message] = _
      rw [hw, List.map_append, List.append_assoc]
      rfl
    refine Procedure.spec_bind hrecord fun _ => ?_
    exact Procedure.spec_consequence (quiet_listeners (steady_messages _) _) (fun _ hw => hw)
      (fun _ _ hw => hw) fun _ _ _ => trivial
  exact (appends_read _).bind fun message => (hemit message).bind fun _ => appends_pure rfl

theorem appends_reportAll (finalizedCalls : List (FinalizedToolCallOutcome δ)) (base : List (ToolResultMessage δ)) :
    Appends base (reportAll host finalizedCalls) fun messages => base ++ messages := by
  induction finalizedCalls generalizing base with
  | nil => exact appends_pure (List.append_nil base)
  | cons finalized rest ih =>
    refine (appends_report base finalized).bind fun message => (ih _).bind fun messages => ?_
    exact appends_pure (List.append_cons base message messages)

theorem appends_truncated (toolCalls : List (AgentToolCall δ)) (base : List (ToolResultMessage δ)) :
    Appends base (failTruncated host toolCalls) fun messages => base ++ messages := by
  induction toolCalls generalizing base with
  | nil => exact appends_pure (List.append_nil base)
  | cons toolCall rest ih =>
    refine Appends.after (fun _ => quiet_start (steady_messages _) _) fun _ => ?_
    refine Appends.after (fun _ => quiet_end (steady_messages _) _) fun _ => ?_
    refine (appends_report base _).bind fun message => (ih _).bind fun messages => ?_
    exact appends_pure (List.append_cons base message messages)

theorem appends_sequential (toolCalls : List (AgentToolCall δ)) (base : List (ToolResultMessage δ)) :
    Appends base (executeToolCallsSequential host assistantMessage toolCalls) fun batch => base ++ batch.2 := by
  induction toolCalls generalizing base with
  | nil => exact appends_pure (List.append_nil base)
  | cons toolCall rest ih =>
    refine Appends.after (fun _ => quiet_start (steady_messages _) _) fun _ => ?_
    refine Appends.after (fun _ => quiet_prepare (steady_messages _) _) fun _ => ?_
    refine Appends.after (fun _ => quiet_complete (steady_messages _) (fun _ _ h => h) _ _) fun _ => ?_
    refine Appends.after (fun _ => quiet_end (steady_messages _) _) fun _ => ?_
    refine (appends_report base _).bind fun message => ?_
    refine (appends_read _).bind fun aborted => ?_
    split
    · exact appends_pure rfl
    · exact (ih _).bind fun batch => appends_pure (List.append_cons base message batch.2)

theorem appends_parallel (schedule : List Nat) (toolCalls : List (AgentToolCall δ)) :
    Appends [] (executeToolCallsParallel host assistantMessage schedule toolCalls)
      fun result => result.elim [] Prod.snd := by
  refine Appends.after (fun _ => quiet_prepareAll (steady_messages _) _) fun _ => ?_
  refine Appends.after (fun _ => quiet_runTasks (steady_messages _) (fun _ _ h => h) _ _) fun tasks => ?_
  unfold reportTasks
  split
  · exact appends_pure rfl
  · exact (appends_reportAll _ []).bind fun messages => appends_pure rfl

theorem appends_execute (schedule : List Nat) :
    Appends [] (executeToolCalls host assistantMessage schedule)
      fun result => result.elim [] ExecutedToolCallBatch.messages := by
  unfold executeToolCalls
  dsimp only
  split
  · exact (appends_sequential _ []).bind fun batch => appends_pure rfl
  · exact (appends_parallel schedule _).bind fun result => appends_pure (by cases result <;> rfl)

/-- **What is returned is what is recorded.** -/
theorem appends_answer (host : ToolHost σ δ) (assistantMessage : AssistantMessage δ) (schedule : List Nat) :
    Appends [] (answerToolCalls host assistantMessage schedule) fun result => result.elim [] Prod.fst := by
  unfold answerToolCalls
  split
  · exact appends_pure rfl
  split
  · exact appends_pure rfl
  · split
    · exact (appends_truncated _ []).bind fun messages => appends_pure rfl
    · exact (appends_execute schedule).bind fun result => appends_pure (by cases result <;> rfl)

end Transcript

/-! ## Completion -/

section Completion

variable {host : ToolHost σ δ} {assistantMessage : AssistantMessage δ}

/-- The turns that an entry has had. -/
def Task.turns : Task δ → Nat
  | .waiting _ => 0
  | .executed .. => 1
  | .done _ => 2

/-- The procedure returns only something with the property. -/
def Returns {α : Type} (x : Run σ δ α) (Q : α → Prop) : Prop :=
  ∀ w a w', x w = (.ok a, w') → Q a

theorem Returns.bind {α β : Type} {x : Run σ δ α} {f : α → Run σ δ β} {Q : α → Prop} {S : β → Prop}
    (hx : Returns x Q) (hf : ∀ a, Q a → Returns (f a) S) : Returns (x >>= f) S := by
  intro w b w' hrun
  obtain ⟨a, w₁, hfirst, hsecond⟩ := Procedure.bind_ok hrun
  exact hf a (hx w a w₁ hfirst) w₁ b w' hsecond

theorem Returns.bind_any {α β : Type} {x : Run σ δ α} {f : α → Run σ δ β} {S : β → Prop}
    (hf : ∀ a, Returns (f a) S) : Returns (x >>= f) S :=
  Returns.bind (Q := fun _ => True) (fun _ _ _ _ => trivial) fun a _ => hf a

theorem returns_pure {α : Type} {a : α} {Q : α → Prop} (h : Q a) : Returns (pure a : Run σ δ α) Q := by
  rintro w _ w' ⟨⟩
  exact h

theorem returns_prepareAll (toolCalls : List (AgentToolCall δ)) :
    Returns (prepareToolCalls host assistantMessage toolCalls) fun tasks =>
      tasks.length ≤ toolCalls.length := by
  induction toolCalls with
  | nil => exact returns_pure (Nat.le_refl _)
  | cons toolCall rest ih =>
    refine Returns.bind_any fun _ => Returns.bind_any fun _ => Returns.bind_any fun task => ?_
    refine Returns.bind_any fun aborted => ?_
    split
    · exact returns_pure (by simp)
    · exact ih.bind fun tasks hle => returns_pure (Nat.succ_le_succ hle)

theorem returns_advance (task : Task δ) :
    Returns (task.advance host assistantMessage) fun task' =>
      task'.turns = min 2 (task.turns + 1) := by
  cases task with
  | waiting prepared => exact Returns.bind_any fun _ => returns_pure rfl
  | executed prepared outcome =>
    exact Returns.bind_any fun _ => Returns.bind_any fun _ => returns_pure rfl
  | done finalized => exact returns_pure rfl

/-- The turns of the entries after those of a schedule. -/
def turnsAfter (schedule : List Nat) (tasks tasks' : List (Task δ)) : Prop :=
  tasks'.length = tasks.length ∧ ∀ i task task', tasks[i]? = some task → tasks'[i]? = some task' →
    task'.turns = min 2 (task.turns + schedule.count i)

theorem turns_le (task : Task δ) : task.turns ≤ 2 := by
  cases task <;> simp [Task.turns]

theorem turnsAfter_head {task task' : Task δ} {tasks : List (Task δ)}
    (h : task'.turns = min 2 (task.turns + 1)) : turnsAfter [0] (task :: tasks) (task' :: tasks) := by
  refine ⟨rfl, fun j old new hold hnew => ?_⟩
  cases j with
  | zero =>
    obtain rfl : task = old := Option.some.inj hold
    obtain rfl : task' = new := Option.some.inj hnew
    exact h
  | succ j =>
    obtain rfl := Option.some.inj (hold.symm.trans hnew)
    have hle := turns_le old
    rw [List.count_cons_of_ne (Nat.zero_ne_add_one j), List.count_nil]
    omega

theorem turnsAfter_tail {i : Nat} {task : Task δ} {tasks tasks' : List (Task δ)}
    (h : turnsAfter [i] tasks tasks') : turnsAfter [i + 1] (task :: tasks) (task :: tasks') := by
  refine ⟨congrArg (· + 1) h.1, fun j old new hold hnew => ?_⟩
  cases j with
  | zero =>
    obtain rfl := Option.some.inj (hold.symm.trans hnew)
    have hle := turns_le old
    rw [List.count_cons_of_ne (Nat.succ_ne_zero i), List.count_nil]
    omega
  | succ j =>
    rw [h.2 j old new hold hnew]
    simp [List.count_cons]

theorem returns_advanceAt (tasks : List (Task δ)) (i : Nat) :
    Returns (advanceAt host assistantMessage tasks i) (turnsAfter [i] tasks) := by
  induction tasks generalizing i with
  | nil =>
    rw [advanceAt]
    exact returns_pure ⟨rfl, fun _ _ _ hold => nomatch hold⟩
  | cons task tasks ih =>
    cases i with
    | zero =>
      rw [advanceAt]
      exact (returns_advance task).bind fun _ hturn => returns_pure (turnsAfter_head hturn)
    | succ i =>
      rw [advanceAt]
      exact (ih i).bind fun _ h => returns_pure (turnsAfter_tail h)

theorem returns_runTasks (schedule : List Nat) (tasks : List (Task δ)) :
    Returns (runTasks host assistantMessage schedule tasks) (turnsAfter schedule tasks) := by
  induction schedule generalizing tasks with
  | nil =>
    refine returns_pure ⟨rfl, fun i old new hold hnew => ?_⟩
    obtain rfl := Option.some.inj (hold.symm.trans hnew)
    have hle := turns_le old
    rw [List.count_nil]
    omega
  | cons j schedule ih =>
    refine (returns_advanceAt tasks j).bind fun tasks₁ hone w tasks' w' hrun => ?_
    obtain ⟨hlength, hrest⟩ := ih tasks₁ w tasks' w' hrun
    refine ⟨hlength.trans hone.1, fun i old new hold hnew => ?_⟩
    have hlt : i < tasks₁.length := by
      rw [← hlength]
      exact (List.getElem?_eq_some_iff.mp hnew).1
    have hmid := List.getElem?_eq_getElem hlt
    rw [hrest i _ new hmid hnew, hone.2 i old _ hold hmid]
    simp only [List.count_cons, List.count_nil]
    omega

/-- Entries that have all had their turns are through. -/
theorem finalized_of_turns {tasks : List (Task δ)} (h : ∀ task ∈ tasks, task.turns = 2) :
    tasks.mapM Task.finalized? ≠ none := by
  induction tasks with
  | nil => exact nofun
  | cons task tasks ih =>
    cases task with
    | done finalized =>
      obtain ⟨rest, hrest⟩ := Option.ne_none_iff_exists'.mp (ih fun t ht => h t (by simp [ht]))
      rw [List.mapM_cons, hrest]
      exact nofun
    | waiting | executed => exact absurd (h _ List.mem_cons_self) (by simp [Task.turns])

theorem returns_parallel (schedule : List Nat) (toolCalls : List (AgentToolCall δ))
    (hschedule : ∀ i < toolCalls.length, 2 ≤ schedule.count i) :
    Returns (executeToolCallsParallel host assistantMessage schedule toolCalls) fun result =>
      result ≠ none := by
  refine (returns_prepareAll toolCalls).bind fun tasks hlength => ?_
  refine (returns_runTasks schedule tasks).bind fun tasks' hturns => ?_
  have hthrough : tasks'.mapM Task.finalized? ≠ none := by
    refine finalized_of_turns fun task' htask' => ?_
    obtain ⟨i, hnew⟩ := List.getElem?_of_mem htask'
    have hlt : i < tasks.length := by
      rw [← hturns.1]
      exact (List.getElem?_eq_some_iff.mp hnew).1
    have hcount := hschedule i (Nat.lt_of_lt_of_le hlt hlength)
    rw [hturns.2 i _ task' (List.getElem?_eq_getElem hlt) hnew]
    omega
  unfold reportTasks
  split
  next hnone => exact absurd hnone hthrough
  · exact Returns.bind_any fun _ => returns_pure nofun

/-- **Executions that all complete give results.** -/
theorem returns_answer (schedule : List Nat)
    (hschedule : ∀ i < assistantMessage.toolCalls.length, 2 ≤ schedule.count i) :
    Returns (answerToolCalls host assistantMessage schedule) fun result => result ≠ none := by
  unfold answerToolCalls
  split
  · exact returns_pure nofun
  split
  · exact returns_pure nofun
  · split
    · exact Returns.bind_any fun _ => returns_pure nofun
    · refine Returns.bind (Q := fun result => result ≠ none) ?_ fun result hresult => returns_pure ?_
      · unfold executeToolCalls
        dsimp only
        split
        · exact Returns.bind_any fun _ => returns_pure nofun
        · refine (returns_parallel schedule _ hschedule).bind fun result hresult => returns_pure ?_
          simpa using hresult
      · simpa using hresult

end Completion

end Mcpi.Agent
