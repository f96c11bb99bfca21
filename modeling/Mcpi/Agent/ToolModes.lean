import Mcpi.Agent.ToolResults

/-!
# Sequential and parallel tool calls

Where the tools and the hooks answer a call the same way whenever they are asked, both modes
answer every call the same way.
-/

namespace Mcpi.Agent

open Procedure (Keeps Spec Sound Yields Settled Determined)

variable {σ δ : Type}

/-- What comes of it does not depend on the state of the outside. -/
def Unvarying {α : Type} (external : External σ δ α) : Prop :=
  ∀ env env', (external env).2.1 = (external env').2.1

/-- **The outcomes of calls do not depend on each other.** -/
structure Independent (host : ToolHost σ δ) : Prop where
  prepareArguments : ∀ tool arguments, Unvarying (host.prepareArguments tool arguments)
  validateToolArguments : ∀ tool toolCall, Unvarying (host.validateToolArguments tool toolCall)
  beforeToolCall : ∀ hook, host.beforeToolCall = some hook →
    ∀ message toolCall args, Unvarying (hook message toolCall args)
  execute : ∀ tool id args, Unvarying (host.execute tool id args)
  afterToolCall : ∀ hook, host.afterToolCall = some hook →
    ∀ message toolCall args result isError, Unvarying (hook message toolCall args result isError)

/-! ## The steps of a tool call -/

section Modes

variable {host : ToolHost σ δ} {assistantMessage : AssistantMessage δ} {toolCall : AgentToolCall δ}

theorem determined_perform {α : Type} {external : External σ δ α} (h : Unvarying external) :
    Determined Aborted (perform external) := fun w₁ w₂ _ _ => h w₁.env w₂.env

theorem determined_signal : Determined (ω := World σ δ) Aborted signalAborted := by
  intro w₁ w₂ hlive₁ hlive₂
  have h₁ : w₁.aborted = false := Bool.eq_false_iff.mpr hlive₁
  have h₂ : w₂.aborted = false := Bool.eq_false_iff.mpr hlive₂
  show Except.ok w₁.aborted = Except.ok w₂.aborted
  rw [h₁, h₂]

theorem determined_before (h : Independent host) (toolCall : AgentToolCall δ) (args : δ) :
    Determined Aborted (runBeforeToolCall host assistantMessage toolCall args) := by
  unfold runBeforeToolCall
  split
  · exact Procedure.determined_pure _
  next hook hhook => exact determined_perform (h.beforeToolCall hook hhook _ _ _)

theorem determined_prepare (assistantMessage : AssistantMessage δ) (h : Independent host) (toolCall : AgentToolCall δ) :
    Determined Aborted (prepareToolCall host assistantMessage toolCall) := by
  have hpure : ∀ {α : Type} (a : α), Keeps Aborted (pure a : Run σ δ α) := Procedure.keeps_pure
  unfold prepareToolCall
  split
  · exact Procedure.determined_pure _
  · refine Procedure.determined_rescue ?_ (fun _ => Procedure.determined_pure _) fun _ => hpure _
    have hsignal : ∀ g : Bool → Preparation δ,
        Determined (ω := World σ δ) Aborted (signalAborted >>= fun aborted => pure (g aborted)) :=
      fun g => Procedure.determined_bind determined_signal (fun _ => Procedure.determined_pure _) fun _ => hpure _
    have hsignalKeeps : ∀ g : Bool → Preparation δ,
        Keeps (ω := World σ δ) Aborted (signalAborted >>= fun aborted => pure (g aborted)) :=
      fun g => Procedure.keeps_bind (Procedure.keeps_read _) fun _ => hpure _
    refine Procedure.determined_bind (determined_perform (h.prepareArguments _ _)) (fun arguments => ?_)
      fun arguments => ?_
    · refine Procedure.determined_bind (determined_perform (h.validateToolArguments _ _))
        (fun args => ?_) fun args => ?_
      · exact Procedure.determined_bind (determined_before h _ _) (fun _ => hsignal _) fun _ => hsignalKeeps _
      · exact Procedure.keeps_bind (keeps_before steady_aborted _ _) fun _ => hsignalKeeps _
    · refine Procedure.keeps_bind (steady_aborted.perform _) fun args => ?_
      exact Procedure.keeps_bind (keeps_before steady_aborted _ _) fun _ => hsignalKeeps _

theorem settled_execute (h : Independent host) (prepared : PreparedToolCall δ) :
    Settled Aborted (executePreparedToolCall host prepared) := by
  have hupdates : ∀ updates : List (AgentToolResult δ), Quiet host Aborted
      (Procedure.forEach (fun partialResult => emit host.listeners
        (.tool_execution_update prepared.toolCall.id prepared.toolCall.name
          prepared.toolCall.arguments partialResult)) updates) :=
    fun updates => quiet_forEach updates fun _ => quiet_emit steady_aborted _ nofun
  have hrun : Determined Aborted (runTool host prepared) :=
    Procedure.determined_rescue (determined_perform (h.execute _ _ _))
      (fun _ => Procedure.determined_pure _) fun _ => Procedure.keeps_pure _
  have hstays : Keeps Aborted (runTool host prepared) :=
    Procedure.keeps_rescue (steady_aborted.perform _) fun _ => Procedure.keeps_pure _
  have htail : ∀ answer : List (AgentToolResult δ) × Except String (AgentToolResult δ), Keeps Aborted
      (Procedure.forEach (fun partialResult => emit host.listeners
        (.tool_execution_update prepared.toolCall.id prepared.toolCall.name
          prepared.toolCall.arguments partialResult)) answer.1 >>= fun _ =>
        (pure (executedOutcome host answer.2) : Run σ δ (ExecutedToolCallOutcome δ))) :=
    fun answer => Procedure.keeps_bind (hupdates answer.1).keeps fun _ => Procedure.keeps_pure _
  refine Procedure.settled_bind Procedure.settled_unit (fun _ => ?_) fun _ =>
    Procedure.keeps_bind hstays htail
  refine Procedure.settled_bind hrun.settled (fun answer => ?_) htail
  exact Procedure.settled_bind Procedure.settled_unit (fun _ => Procedure.settled_pure _)
    fun _ => Procedure.keeps_pure _

theorem determined_finalize (h : Independent host) (prepared : PreparedToolCall δ)
    (executed : ExecutedToolCallOutcome δ) :
    Determined Aborted (finalizeExecutedToolCall host assistantMessage prepared executed) := by
  refine Procedure.determined_bind ?_ (fun _ => Procedure.determined_pure _) fun _ => Procedure.keeps_pure _
  unfold runAfterToolCall
  split
  · exact Procedure.determined_pure _
  next hook hhook =>
    refine Procedure.determined_rescue ?_ (fun _ => Procedure.determined_pure _) fun _ => Procedure.keeps_pure _
    exact Procedure.determined_bind (determined_perform (h.afterToolCall hook hhook _ _ _ _ _))
      (fun _ => Procedure.determined_pure _) fun _ => Procedure.keeps_pure _

/-! ## Answers do not depend on the run -/

theorem Answered.unique (h : Independent host) {finalized finalized' : FinalizedToolCallOutcome δ}
    (hone : Answered host assistantMessage toolCall finalized)
    (htwo : Answered host assistantMessage toolCall finalized') : finalized = finalized' := by
  have hprepare := (determined_prepare assistantMessage h toolCall).settled
  cases hone with
  | immediate hprepare₁ =>
    cases htwo with
    | immediate hprepare₂ =>
      obtain ⟨rfl, rfl⟩ := Preparation.immediate.inj (hprepare _ _ hprepare₁ hprepare₂)
      rfl
    | completed hprepare₂ => exact nomatch hprepare _ _ hprepare₁ hprepare₂
  | completed hprepare₁ hexecute₁ hfinalize₁ =>
    cases htwo with
    | immediate hprepare₂ => exact nomatch hprepare _ _ hprepare₁ hprepare₂
    | completed hprepare₂ hexecute₂ hfinalize₂ =>
      obtain rfl := Preparation.prepared.inj (hprepare _ _ hprepare₁ hprepare₂)
      obtain rfl := settled_execute h _ _ _ hexecute₁ hexecute₂
      exact (determined_finalize h _ _).settled _ _ hfinalize₁ hfinalize₂

theorem answered_unique (h : Independent host) {toolCalls : List (AgentToolCall δ)}
    {finalizedCalls finalizedCalls' : List (FinalizedToolCallOutcome δ)}
    (hone : List.Forall₂ (Answered host assistantMessage) toolCalls finalizedCalls)
    (htwo : List.Forall₂ (Answered host assistantMessage) toolCalls finalizedCalls') :
    finalizedCalls = finalizedCalls' := by
  induction hone generalizing finalizedCalls' with
  | nil =>
    cases htwo
    rfl
  | cons hanswer _ ih =>
    cases htwo with
    | cons hanswer' hrest => rw [hanswer.unique h hanswer', ih hrest]

theorem answered_mode {mode : ToolExecutionMode} {finalized : FinalizedToolCallOutcome δ} :
    Answered { host with toolExecution := mode } assistantMessage toolCall finalized ↔
      Answered host assistantMessage toolCall finalized := by
  constructor <;> intro h <;> cases h with
  | immediate hprepare => exact .immediate hprepare
  | completed hprepare hexecute hfinalize => exact .completed hprepare hexecute hfinalize

theorem finalized_mode {mode : ToolExecutionMode} {finalizedCalls : List (FinalizedToolCallOutcome δ)} :
    Finalized { host with toolExecution := mode } assistantMessage finalizedCalls ↔
      Finalized host assistantMessage finalizedCalls := by
  have hsame : Answered { host with toolExecution := mode } assistantMessage = Answered host assistantMessage := by
    funext toolCall finalized
    exact propext answered_mode
  unfold Finalized
  rw [hsame]
  exact Iff.rfl

theorem Finalized.unique (h : Independent host) {finalizedCalls finalizedCalls' : List (FinalizedToolCallOutcome δ)}
    (hone : Finalized host assistantMessage finalizedCalls)
    (htwo : Finalized host assistantMessage finalizedCalls') : finalizedCalls = finalizedCalls' := by
  unfold Finalized at hone htwo
  split at hone
  next hends =>
    rw [if_pos hends] at htwo
    rw [hone, htwo]
  next hgoes =>
  rw [if_neg hgoes] at htwo
  split at hone
  next hlength =>
    rw [if_pos hlength] at htwo
    rw [hone, htwo]
  next hlength =>
    rw [if_neg hlength] at htwo
    exact answered_unique h hone htwo

end Modes

/-! ## The answers of a message -/

/-- A result message without the time at which it was made. -/
def withoutTimestamp (message : ToolResultMessage δ) : ToolResultMessage δ :=
  { message with timestamp := 0 }

/-- The messages of a run that comes to its end without an abort. -/
def Answers (host : ToolHost σ δ) (assistantMessage : AssistantMessage δ) (schedule : List Nat)
    (w : World σ δ) (messages : List (ToolResultMessage δ)) : Prop :=
  ∃ more w', answerToolCalls host assistantMessage schedule w = (.ok (some (messages, more)), w') ∧ w'.aborted = false

theorem Answers.finalized {host : ToolHost σ δ} {assistantMessage : AssistantMessage δ}
    {schedule : List Nat} {w : World σ δ} {messages : List (ToolResultMessage δ)}
    (h : Answers host assistantMessage schedule w messages) :
    ∃ finalizedCalls, Finalized host assistantMessage finalizedCalls ∧
      List.Forall₂ Reports finalizedCalls messages := by
  obtain ⟨more, w', hrun, hlive⟩ := h
  exact (sound_answer schedule).result w _ w' hrun (Bool.eq_false_iff.mp hlive) messages more rfl

theorem truncated_executes_nothing (host : ToolHost σ δ) (assistantMessage : AssistantMessage δ)
    (schedule : List Nat) (w : World σ δ) (hlength : assistantMessage.stopReason = .length) :
    (answerToolCalls host assistantMessage schedule w).2.executed = w.executed := by
  have hsteady : Steady fun w' : World σ δ => w'.executed = w.executed :=
    ⟨fun w' c h => by rw [apply_executed, h], fun _ _ h => h, fun w' event _ h => by cases event <;> exact h⟩
  have hquiet : Quiet host (fun w' => w'.executed = w.executed) (answerToolCalls host assistantMessage schedule) := by
    have hgoes : ¬ EndsRun assistantMessage.stopReason := by
      rw [hlength]
      decide
    unfold answerToolCalls
    rw [if_neg hgoes, if_pos hlength]
    split
    · exact quiet_pure _
    · refine Quiet.bind (quiet_truncated hsteady ?_ _) fun _ => quiet_pure _
      exact fun w' event h => by cases event <;> exact h
  exact Procedure.keeps_state hquiet.keeps rfl

/-- **Every tool call of a message that does not end the run gets one result, in call order**: an answer
that is not aborted has one message for each call, with its id and its name, and adds these to the
transcript; a message that ends the run has no results, and nothing is executed; executions that all
complete give an answer, unless a listener throws; a message that was cut off executes nothing; and
the answers to independent calls are the same in both modes. -/
theorem every_call_answered (host : ToolHost σ δ) (assistantMessage : AssistantMessage δ)
    (schedule : List Nat) (w : World σ δ) :
    (∀ messages more w', answerToolCalls host assistantMessage schedule w = (.ok (some (messages, more)), w') →
        w'.messages = w.messages ++ messages.map .toolResult ∧
          (¬ EndsRun assistantMessage.stopReason → w'.aborted = false →
            messages.map (fun message => (message.toolCallId, message.toolName)) =
              assistantMessage.toolCalls.map fun toolCall => (toolCall.id, toolCall.name))) ∧
      (EndsRun assistantMessage.stopReason →
        answerToolCalls host assistantMessage schedule w = (.ok (some ([], false)), w)) ∧
      ((∀ i < assistantMessage.toolCalls.length, 2 ≤ schedule.count i) →
        (answerToolCalls host assistantMessage schedule w).1 ≠ .ok none) ∧
      (∀ error, (answerToolCalls host assistantMessage schedule w).1 = .error error → ListenerThrows host error) ∧
      (assistantMessage.stopReason = .length →
        (answerToolCalls host assistantMessage schedule w).2.executed = w.executed) ∧
      (Independent host → ∀ schedule' w' messages messages',
        Answers { host with toolExecution := .sequential } assistantMessage schedule w messages →
        Answers { host with toolExecution := .parallel } assistantMessage schedule' w' messages' →
          messages.map withoutTimestamp = messages'.map withoutTimestamp) := by
  refine ⟨fun messages more w' hrun => ⟨?_, fun hgoes hlive => ?_⟩, fun hends => ?_, fun hschedule hnone => ?_,
    fun error herror => ?_, truncated_executes_nothing host assistantMessage schedule w,
    fun hindependent schedule' w' messages messages' hone htwo => ?_⟩
  · have h := appends_answer host assistantMessage schedule w.messages w (by rw [List.map_nil, List.append_nil])
    rw [hrun] at h
    exact h
  · obtain ⟨finalizedCalls, hfinalized, hreports⟩ := Answers.finalized ⟨more, w', hrun, hlive⟩
    rw [reports_calls hreports, ← hfinalized.toolCalls_eq hgoes, List.map_map]
    rfl
  · unfold answerToolCalls
    rw [if_pos hends]
    rfl
  · rcases hrun : answerToolCalls host assistantMessage schedule w with ⟨result, w'⟩
    rw [hrun] at hnone
    obtain rfl : result = .ok none := hnone
    exact returns_answer schedule hschedule w none w' hrun rfl
  · have hquiet : Quiet host (fun _ => True) (answerToolCalls host assistantMessage schedule) :=
      quiet_answer ⟨fun _ _ h => h, fun _ _ h => h, fun _ _ _ h => h⟩ (fun _ _ h => h) (fun _ _ h => h) schedule
    have h := hquiet w trivial
    rcases hrun : answerToolCalls host assistantMessage schedule w with ⟨result, w'⟩
    rw [hrun] at herror h
    obtain rfl : result = .error error := herror
    exact h.1
  · obtain ⟨finalizedCalls, hfinalized, hreports⟩ := hone.finalized
    obtain ⟨finalizedCalls', hfinalized', hreports'⟩ := htwo.finalized
    rw [finalized_mode] at hfinalized hfinalized'
    obtain rfl := hfinalized.unique hindependent hfinalized'
    exact (reports_content hreports).trans (reports_content hreports').symm

section Example

/-- One tool, which repeats the id of its call; an unknown tool is answered at once. -/
def sampleHost : ToolHost Nat Unit where
  tools := [⟨"read", none⟩]
  toolExecution := .parallel
  listeners _ env := ([], .ok (), env)
  prepareArguments _ arguments env := ([], .ok arguments, env)
  validateToolArguments _ toolCall env := ([], .ok toolCall.arguments, env)
  beforeToolCall := none
  execute _ id _ env := ([], .ok ([], .ok ⟨some [.text id], none, none, [], none⟩), env + 1)
  afterToolCall := none
  emptyDetails := ()
  now env := env

def sampleMessage : AssistantMessage Unit :=
  ⟨[.toolCall ⟨"1", "read", ()⟩, .toolCall ⟨"2", "write", ()⟩, .toolCall ⟨"3", "read", ()⟩], "m",
    .toolUse, none, 0⟩

def sampleWorld : World Nat Unit := ⟨0, [], ⟨[], .all⟩, ⟨[], .all⟩, false, [], []⟩

theorem sampleHost_independent : Independent sampleHost where
  prepareArguments _ _ _ _ := rfl
  validateToolArguments _ _ _ _ := rfl
  beforeToolCall _ h := nomatch h
  execute _ _ _ _ _ := rfl
  afterToolCall _ h := nomatch h

/-- The third call completes before the first. -/
theorem every_call_answered_reversed :
    (((answerToolCalls sampleHost sampleMessage [2, 2, 0, 0, 1, 1] sampleWorld).1.toOption.join.map
      Prod.fst).map fun messages => messages.map fun message =>
        (message.toolCallId, message.toolName, message.isError, message.timestamp)) =
        some [("1", "read", false, 2), ("2", "write", true, 2), ("3", "read", false, 2)] ∧
      ∀ messages messages',
        Answers { sampleHost with toolExecution := .sequential } sampleMessage [] sampleWorld messages →
        Answers sampleHost sampleMessage [2, 2, 0, 0, 1, 1] sampleWorld messages' →
          messages.map withoutTimestamp = messages'.map withoutTimestamp :=
  ⟨by decide +kernel, (every_call_answered sampleHost sampleMessage [] sampleWorld).2.2.2.2.2 sampleHost_independent
    [2, 2, 0, 0, 1, 1] sampleWorld⟩

/-- A provider that fails after a tool call: the run is not aborted, and its call has no result. -/
theorem failed_message_unanswered : ∃ message : AssistantMessage Unit,
    ¬ ∀ messages more w', answerToolCalls sampleHost message [] sampleWorld = (.ok (some (messages, more)), w') →
      w'.aborted = false → messages.map (fun result => (result.toolCallId, result.toolName)) =
        message.toolCalls.map fun toolCall => (toolCall.id, toolCall.name) := by
  refine ⟨{ sampleMessage with stopReason := .error, errorMessage := some "overloaded" }, fun h => ?_⟩
  have hnone := h [] false sampleWorld rfl rfl
  revert hnone
  decide

end Example

end Mcpi.Agent
