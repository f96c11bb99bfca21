import Mcpi.CodingAgent.Prompting

/-!
# Run state

The flag of the session, its `agent_settled` events and its messages are right along the runs in which no call
comes into `_runAgentPrompt` while another one is in it: the flag and the event are of the call that leaves,
whatever the agent is doing.
-/

namespace Mcpi.CodingAgent.Prompting

/-! ## What is to hold -/

/-- A prompt has added its user message once, to the transcript or to a queue. -/
def AgentSession.Added (s : AgentSession) (i : Nat) : Prop :=
  s.transcript.count (.user i) + s.queued.count (.user i) = 1

/-- **The run state is truthful.** A message for the next turn has come into the transcript with the first
run of a later prompt: once all messages of a later prompt that ran are in, it is in, too. -/
structure AgentSession.Truthful (s : AgentSession) : Prop where
  streaming : (s.activeRun ≠ none ∨ ∃ i, (s.calls i).phase = .postRun) → s.isAgentRunActive = true
  settledOnce : ∀ i outcome channel, (s.calls i).phase = .done outcome →
    s.settled.count (channel, i) = if (s.calls i).ran then 1 else 0
  settledAtMostOnce : ∀ i channel, s.settled.count (channel, i) ≤ 1
  settledAlone : s.overlapped = []
  added : ∀ i, (s.calls i).kind = .prompt → (s.calls i).phase = .done .resolved → s.Added i
  rejected : ∀ i, (s.calls i).kind = .prompt → (s.calls i).phase = .done .rejected →
    Message.user i ∉ s.transcript ∧ Message.user i ∉ s.queued
  addedAtMostOnce : ∀ i, s.transcript.count (.user i) + s.queued.count (.user i) ≤ 1
  nextTurnAtMostOnce : ∀ n, s.transcript.count (.nextTurn n) ≤ 1
  nextTurn : ∀ n ∈ s.given, ∀ i, n < i → (s.calls i).kind = .prompt → (s.calls i).ran = true →
    (s.calls i).phase.held = [] → s.transcript.count (.nextTurn n) = 1

/-! ## The runs -/

/-- No call is in `_runAgentPrompt`. -/
def AgentSession.noneInside (s : AgentSession) : Bool :=
  (List.range s.next).all fun j => !(s.calls j).phase.inside

/-- Some other call has taken a message for the next turn that was given before this one was made. -/
def AgentSession.takenElsewhere (s : AgentSession) (i : Nat) : Bool :=
  s.given.any fun n => n < i && (List.range s.next).any fun j => j ≠ i && (s.calls j).phase.held.contains (.nextTurn n)

/-- A user message or a message for the next turn -/
def Message.awaited : Message → Bool
  | .user _ => true
  | .nextTurn _ => true
  | _ => false

def Message.isNextTurn : Message → Bool
  | .nextTurn _ => true
  | _ => false

/-- No call comes into `_runAgentPrompt` while another one is in it, or before one that has taken earlier
messages for the next turn; no prompt is rejected that has taken such messages; no run fails before its
messages are in; and neither what follows a run nor its end throws. -/
def Orderly (s : AgentSession) : Event → Prop
  | .rejects i => ∀ m ∈ (s.calls i).phase.held, m.isNextTurn = false
  | .start i _ => s.noneInside = true ∧ s.takenElsewhere i = false
  | .sendCustomMessage deliverAs triggerTurn =>
    deliverAs ≠ some .nextTurn → s.isAgentRunActive = false → triggerTurn = some true → s.noneInside = true
  | .runFails i => ∀ m ∈ (s.calls i).phase.held, m.awaited = false
  | .throws i => (s.calls i).kind ≠ .prompt
  | .settle _ flushFails => flushFails = false
  | .settled i throws => throws = true → (s.calls i).kind ≠ .prompt
  | _ => True

instance (s : AgentSession) (event : Event) : Decidable (Orderly s event) := by
  unfold Orderly
  split <;> infer_instance

/-! ## The invariant -/

/-- How often a message of a call has come where, and its `agent_settled` been emitted -/
structure Tally where
  transcript : Nat
  queued : Nat
  extensions : Nat
  listeners : Nat

def AgentSession.tally (s : AgentSession) (i : Nat) : Tally :=
  { transcript := s.transcript.count (.user i)
    queued := s.queued.count (.user i)
    extensions := s.settled.count (.extensions, i)
    listeners := s.settled.count (.listeners, i) }

/-- Whether a call has a user message -/
def Kind.messages : Kind → Nat
  | .prompt => 1
  | .custom => 0

/-- **What has become of a call**, phase by phase. -/
def Call.Ok (call : Call) (i : Nat) (tally : Tally) : Prop :=
  match call.phase with
  | .idle => call.ran = false ∧ tally = ⟨0, 0, 0, 0⟩
  | .command | .input | .auth | .compaction =>
    call.kind = .prompt ∧ call.ran = false ∧ tally = ⟨0, 0, 0, 0⟩
  | .beforeAgentStart messages =>
    call.kind = .prompt ∧ call.ran = false ∧ tally = ⟨0, 0, 0, 0⟩ ∧ messages.count (.user i) = 1
  | .running messages =>
    call.ran = true ∧ ∃ n, tally = ⟨n, 0, 0, 0⟩ ∧ n + messages.count (.user i) = call.kind.messages
  | .postRun => call.ran = true ∧ tally = ⟨call.kind.messages, 0, 0, 0⟩
  | .leaving rejects =>
    call.ran = true ∧ tally = ⟨call.kind.messages, 0, 0, 0⟩ ∧ (rejects = true → call.kind ≠ .prompt)
  | .settling rejects =>
    call.ran = true ∧ tally = ⟨call.kind.messages, 0, 1, 0⟩ ∧ (rejects = true → call.kind ≠ .prompt)
  | .done .resolved =>
    call.ran = true ∧ tally = ⟨call.kind.messages, 0, 1, 1⟩ ∨ call.ran = false ∧ tally = ⟨0, 1, 0, 0⟩
  | .done .handled => call.ran = false ∧ tally = ⟨0, 0, 0, 0⟩
  | .done .rejected =>
    call.ran = true ∧ tally = ⟨call.kind.messages, 0, 1, 1⟩ ∧ call.kind ≠ .prompt ∨
      call.ran = false ∧ tally = ⟨0, 0, 0, 0⟩

/-- Where a message for the next turn is -/
inductive Place
  | nowhere
  | waiting
  | transcript
  | held (i : Nat)
  deriving DecidableEq

/-- A message for the next turn is there, once, and nowhere else. -/
structure AgentSession.At (s : AgentSession) (n : Nat) (place : Place) : Prop where
  waiting : s.pendingNextTurnMessages.count (.nextTurn n) = if place = .waiting then 1 else 0
  transcript : s.transcript.count (.nextTurn n) = if place = .transcript then 1 else 0
  held : ∀ i, (s.calls i).phase.held.count (.nextTurn n) = if place = .held i then 1 else 0

/-- The call has taken the messages for the next turn. -/
def Call.took (call : Call) : Prop := call.ran = true ∨ ∃ messages, call.phase = .beforeAgentStart messages

/-- A later prompt that has taken its messages has not left it behind, and no other call holds it when such a
prompt runs. -/
def AgentSession.InOrder (s : AgentSession) (n : Nat) (place : Place) : Prop :=
  ∀ i, n < i → (s.calls i).kind = .prompt → ((s.calls i).took → place ≠ .waiting) ∧
      ((s.calls i).ran = true → ∀ j, place = .held j → j = i)

/-- Its run is active, or `_runAgentPrompt` at its finally block. -/
def Phase.active (phase : Phase) : Prop := phase.inside = true ∧ ∀ rejects, phase ≠ .settling rejects

/-- **The invariant.** -/
structure Inv (s : AgentSession) : Prop where
  fresh : ∀ i, s.next ≤ i → s.calls i = .none
  given : ∀ n ∈ s.given, n < s.next
  running : ∀ i, s.activeRun = some i ↔ ∃ messages, (s.calls i).phase = .running messages
  alone : ∀ i j, (s.calls i).phase.inside = true → (s.calls j).phase.inside = true → i = j
  streaming : ∀ i, (s.calls i).phase.active → s.isAgentRunActive = true
  users : ∀ i j, Message.user j ∈ (s.calls i).phase.held → j = i
  waiting : ∀ i, Message.user i ∉ s.pendingNextTurnMessages
  calls : ∀ i, (s.calls i).Ok i (s.tally i)
  places : ∀ n, ∃ place, s.At n place ∧ s.InOrder n place ∧ (place = .nowhere ↔ n ∉ s.given)
  overlapped : s.overlapped = []

/-! ## Changes of one call -/

section Steps

variable {s u : AgentSession} {i : Nat} {call : Call}

@[simp] theorem calls_set_self (u : AgentSession) (i : Nat) (call : Call) :
    (u.set i call).calls i = call := if_pos rfl

theorem calls_set_ne (u : AgentSession) {i j : Nat} (call : Call) (h : j ≠ i) :
    (u.set i call).calls j = u.calls j := if_neg h

theorem AgentSession.At.set {n : Nat} {place : Place} (h : s.At n place) (hcalls : u.calls = s.calls)
    (hwaiting : u.pendingNextTurnMessages.count (.nextTurn n) = s.pendingNextTurnMessages.count (.nextTurn n))
    (htranscript : u.transcript.count (.nextTurn n) = s.transcript.count (.nextTurn n))
    (hheld : call.phase.held.count (.nextTurn n) = (s.calls i).phase.held.count (.nextTurn n)) :
    (u.set i call).At n place := by
  refine ⟨hwaiting.trans h.waiting, htranscript.trans h.transcript, fun j => ?_⟩
  by_cases hj : j = i
  · subst hj
    rw [calls_set_self, hheld]
    exact h.held j
  · rw [calls_set_ne u call hj, hcalls]
    exact h.held j

theorem AgentSession.InOrder.set {n : Nat} {place : Place} (h : s.InOrder n place) (hcalls : u.calls = s.calls)
    (hi : n < i → call.kind = .prompt → (call.took → place ≠ .waiting) ∧
      (call.ran = true → ∀ j, place = .held j → j = i)) : (u.set i call).InOrder n place := by
  intro j
  by_cases hj : j = i
  · subst hj
    rw [calls_set_self]
    exact hi
  · rw [calls_set_ne u call hj, hcalls]
    exact h j

/-- **One call moves on.** -/
theorem Inv.set (h : Inv s) (hcalls : u.calls = s.calls) (hgiven : ∀ n ∈ u.given, n < u.next)
    (hnext : s.next ≤ u.next) (hi : i < u.next ∨ call = .none)
    (hrunning : u.activeRun = some i ↔ ∃ messages, call.phase = .running messages)
    (hothers : ∀ j, j ≠ i → (u.activeRun = some j ↔ s.activeRun = some j))
    (halone : call.phase.inside = true → (s.calls i).phase.inside = true ∨ ∀ j, (s.calls j).phase.inside = false)
    (hflag : call.phase.active → u.isAgentRunActive = true)
    (hflags : ∀ j, j ≠ i → (s.calls j).phase.active → u.isAgentRunActive = true)
    (husers : ∀ j, Message.user j ∈ call.phase.held → j = i)
    (hwaiting : ∀ j, Message.user j ∉ u.pendingNextTurnMessages)
    (htally : ∀ j, j ≠ i → u.tally j = s.tally j) (hok : call.Ok i (u.tally i))
    (hplaces : ∀ n place, s.At n place → s.InOrder n place → (place = .nowhere ↔ n ∉ s.given) →
      ∃ place', (u.set i call).At n place' ∧ (u.set i call).InOrder n place' ∧ (place' = .nowhere ↔ n ∉ u.given))
    (hoverlapped : u.overlapped = []) : Inv (u.set i call) := by
  -- the call at `i` is the new one, every other as it was
  have hself := calls_set_self u i call
  have hother : ∀ j, j ≠ i → (u.set i call).calls j = s.calls j := fun j hj => by
    rw [calls_set_ne u call hj, hcalls]
  refine ⟨fun j hle => ?_, hgiven, fun j => ?_, fun j k hj hk => ?_, fun j hactive => ?_,
    fun j k hmem => ?_, hwaiting, fun j => ?_, fun n => ?_, hoverlapped⟩
  · have hle : u.next ≤ j := hle
    by_cases hj : j = i
    · subst hj
      rw [hself]
      exact hi.resolve_left (Nat.not_lt_of_le hle)
    · rw [hother j hj]
      exact h.fresh j (Nat.le_trans hnext hle)
  · by_cases hj : j = i
    · subst hj
      rw [hself]
      exact hrunning
    · rw [hother j hj]
      exact (hothers j hj).trans (h.running j)
  · by_cases hji : j = i
    · by_cases hki : k = i
      · rw [hji, hki]
      · rw [hji, hself] at hj
        rw [hother k hki] at hk
        rcases halone hj with hin | hnone
        · exact hji.trans (h.alone i k hin hk)
        · rw [hnone k] at hk
          cases hk
    · rw [hother j hji] at hj
      by_cases hki : k = i
      · rw [hki, hself] at hk
        rcases halone hk with hin | hnone
        · exact (h.alone j i hj hin).trans hki.symm
        · rw [hnone j] at hj
          cases hj
      · rw [hother k hki] at hk
        exact h.alone j k hj hk
  · by_cases hj : j = i
    · rw [hj, hself] at hactive
      exact hflag hactive
    · rw [hother j hj] at hactive
      exact hflags j hj hactive
  · by_cases hj : j = i
    · rw [hj, hself] at hmem
      exact (husers k hmem).trans hj.symm
    · rw [hother j hj] at hmem
      exact h.users j k hmem
  · by_cases hj : j = i
    · rw [hj, hself]
      exact hok
    · rw [hother j hj]
      show (s.calls j).Ok j (u.tally j)
      rw [htally j hj]
      exact h.calls j
  · obtain ⟨place, hat, horder, hnowhere⟩ := h.places n
    exact hplaces n place hat horder hnowhere

/-- The messages for the next turn are where they were. -/
theorem places_same (hcalls : u.calls = s.calls) (hwaiting : ∀ n, u.pendingNextTurnMessages.count (.nextTurn n) =
      s.pendingNextTurnMessages.count (.nextTurn n))
    (htranscript : ∀ n, u.transcript.count (.nextTurn n) = s.transcript.count (.nextTurn n))
    (hheld : ∀ n, call.phase.held.count (.nextTurn n) = (s.calls i).phase.held.count (.nextTurn n))
    (hkind : call.kind = (s.calls i).kind) (hran : call.ran = (s.calls i).ran)
    (htook : call.took → (s.calls i).took) (hgiven : u.given = s.given) (n : Nat) (place : Place)
    (hat : s.At n place) (horder : s.InOrder n place) (hnowhere : place = .nowhere ↔ n ∉ s.given) :
    ∃ place', (u.set i call).At n place' ∧ (u.set i call).InOrder n place' ∧ (place' = .nowhere ↔ n ∉ u.given) := by
  refine ⟨place, hat.set hcalls (hwaiting n) (htranscript n) (hheld n), horder.set hcalls ?_, ?_⟩
  swap
  · rw [hgiven]
    exact hnowhere
  intro hlt hprompt
  rw [hkind] at hprompt
  obtain ⟨hleft, hcarried⟩ := horder i hlt hprompt
  rw [hran]
  exact ⟨fun h => hleft (htook h), hcarried⟩

theorem Inv.lt_next (h : Inv s) (hphase : (s.calls i).phase ≠ .idle) : i < s.next := by
  by_contra hle
  have hnone := h.fresh i (Nat.le_of_not_lt hle)
  rw [hnone] at hphase
  exact hphase rfl

variable {phase : Phase}

/-- **A call outside of `_runAgentPrompt` stays there**, and brings its messages nowhere. -/
theorem Inv.goto (h : Inv s) (hne : (s.calls i).phase ≠ .idle)
    (hin : (s.calls i).phase.inside = false) (hin' : phase.inside = false)
    (hheld : ∀ n, phase.held.count (.nextTurn n) = (s.calls i).phase.held.count (.nextTurn n))
    (husers : ∀ j, Message.user j ∈ phase.held → j = i)
    (htook : ∀ messages, phase ≠ .beforeAgentStart messages)
    (hok : Call.Ok { s.calls i with phase } i (s.tally i)) : Inv (s.goto i phase) := by
  have hnot : ∀ {phase : Phase}, phase.inside = false → ¬ ∃ messages, phase = .running messages := by
    rintro _ hfalse ⟨messages, rfl⟩
    cases hfalse
  show Inv (s.set i { s.calls i with phase })
  refine h.set rfl h.given (Nat.le_refl _) (.inl (h.lt_next hne)) ?_ (fun _ _ => Iff.rfl) ?_ ?_
    (fun j _ => h.streaming j) husers h.waiting (fun _ _ => rfl) hok ?_ h.overlapped
  · rw [h.running i]
    exact ⟨fun hrun => absurd hrun (hnot hin), fun hrun => absurd hrun (hnot hin')⟩
  · intro hinside
    rw [hin'] at hinside
    cases hinside
  · intro hactive
    have hinside := hactive.1
    rw [hin'] at hinside
    cases hinside
  · refine @places_same s s i _ rfl (fun _ => rfl) (fun _ => rfl) hheld rfl rfl ?_ rfl
    rintro (hran | ⟨messages, hphase⟩)
    · exact .inl hran
    · exact absurd hphase (htook messages)

/-- A call that holds nothing goes on, outside of `_runAgentPrompt`. -/
theorem Inv.goto_empty (h : Inv s) (hne : (s.calls i).phase ≠ .idle)
    (hin : (s.calls i).phase.inside = false) (hin' : phase.inside = false)
    (hheld : (s.calls i).phase.held = []) (hheld' : phase.held = [])
    (htook : ∀ messages, phase ≠ .beforeAgentStart messages)
    (hok : Call.Ok { s.calls i with phase } i (s.tally i)) : Inv (s.goto i phase) := by
  refine h.goto hne hin hin' (fun n => ?_) (fun j hmem => ?_) htook hok
  · rw [hheld, hheld']
  · rw [hheld'] at hmem
    cases hmem

theorem Inv.callOk (h : Inv s) (hphase : (s.calls i).phase = phase) :
    Call.Ok { s.calls i with phase } i (s.tally i) := by
  have hok := h.calls i
  rw [← hphase]
  exact hok

/-- **A prompt that has taken nothing goes on**, or comes to an end with nothing added. -/
theorem Inv.goto_early (h : Inv s) {phase phase' : Phase} (hphase : (s.calls i).phase = phase)
    (hearly : phase = .command ∨ phase = .input ∨ phase = .auth ∨ phase = .compaction)
    (hphase' : phase' = .input ∨ phase' = .auth ∨ phase' = .compaction ∨ phase' = .done .handled ∨
      phase' = .done .rejected) : Inv (s.goto i phase') := by
  have hok := h.callOk hphase
  have hnothing : (s.calls i).kind = .prompt ∧ (s.calls i).ran = false ∧ s.tally i = ⟨0, 0, 0, 0⟩ := by
    rcases hearly with rfl | rfl | rfl | rfl <;> exact hok
  have hsource : (s.calls i).phase ≠ .idle ∧ (s.calls i).phase.inside = false ∧ (s.calls i).phase.held = [] := by
    rw [hphase]
    rcases hearly with rfl | rfl | rfl | rfl <;> exact ⟨nofun, rfl, rfl⟩
  obtain ⟨hne, hin, hheld⟩ := hsource
  rcases hphase' with rfl | rfl | rfl | rfl | rfl
  · exact h.goto_empty hne hin rfl hheld rfl nofun hnothing
  · exact h.goto_empty hne hin rfl hheld rfl nofun hnothing
  · exact h.goto_empty hne hin rfl hheld rfl nofun hnothing
  · exact h.goto_empty hne hin rfl hheld rfl nofun hnothing.2
  · exact h.goto_empty hne hin rfl hheld rfl nofun (.inr hnothing.2)

/-! ## Steps of a call -/

theorem inv_handled (h : Inv s) (hstep : step s (.handled i) = some u) : Inv u := by
  unfold step at hstep
  dsimp only at hstep
  split at hstep
  next hphase =>
    cases hstep
    exact h.goto_early hphase (by decide) (by decide)
  next hphase =>
    cases hstep
    exact h.goto_early hphase (by decide) (by decide)
  · cases hstep

theorem inv_submit (h : Inv s) (hstep : step s (.submit i) = some u) : Inv u := by
  unfold step at hstep
  dsimp only at hstep
  split at hstep
  next hphase =>
    cases hstep
    cases s.compacting with
    | true => exact h.goto_early hphase (by decide) (by decide)
    | false => exact h.goto_early hphase (by decide) (by decide)
  · cases hstep

theorem inv_authorized (h : Inv s) (hstep : step s (.authorized i) = some u) : Inv u := by
  unfold step at hstep
  dsimp only at hstep
  split at hstep
  next hphase =>
    cases hstep
    exact h.goto_early hphase (by decide) (by decide)
  · cases hstep

theorem inv_rejects (h : Inv s) (horderly : Orderly s (.rejects i)) (hstep : step s (.rejects i) = some u) : Inv u := by
  unfold step at hstep
  dsimp only at hstep
  split at hstep
  next hphase =>
    cases hstep
    exact h.goto_early hphase (by decide) (by decide)
  next hphase =>
    cases hstep
    exact h.goto_early hphase (by decide) (by decide)
  next messages hphase =>
    cases hstep
    obtain ⟨-, hran, htally, -⟩ := h.callOk hphase
    refine h.goto (by rw [hphase]; nofun) (by rw [hphase]; rfl) rfl (fun n => ?_) nofun nofun (.inr ⟨hran, htally⟩)
    have hnone : Message.nextTurn n ∉ (s.calls i).phase.held := fun hmem => by
      have hnot := horderly _ hmem
      cases hnot
    exact (List.count_eq_zero_of_not_mem hnone).symm
  · cases hstep

/-- A user message that is added is that of its call. -/
theorem tally_append {j : Nat} {added : List Message} (hne : Message.user j ∉ added) (l : List Message) :
    (l ++ added).count (.user j) = l.count (.user j) := by
  rw [List.count_append, List.count_eq_zero_of_not_mem hne, Nat.add_zero]

theorem inv_input (h : Inv s) (hstep : step s (.input i) = some u) : Inv u := by
  unfold step at hstep
  dsimp only at hstep
  split at hstep
  next hphase =>
    cases hstep
    unfold AgentSession.afterInput
    split
    · split
      · exact h.goto_early hphase (by decide) (by decide)
      · -- the message is queued
        obtain ⟨-, hran, htally⟩ := h.callOk hphase
        have hidle : (s.calls i).phase ≠ .idle := by
          rw [hphase]
          nofun
        show Inv ({ s with queued := s.queued ++ [Message.user i] }.set i
          { s.calls i with phase := .done .resolved })
        refine h.set rfl h.given (Nat.le_refl _) (.inl (h.lt_next hidle)) ?_ (fun _ _ => Iff.rfl) nofun
          nofun (fun j _ => h.streaming j) nofun h.waiting (fun j hj => ?_) (.inr ⟨hran, ?_⟩) ?_
          h.overlapped
        · show s.activeRun = some i ↔ _
          rw [h.running i, hphase]
          exact ⟨nofun, nofun⟩
        · unfold AgentSession.tally
          rw [tally_append]
          simpa using hj
        · unfold AgentSession.tally at htally ⊢
          simp only [Tally.mk.injEq] at htally ⊢
          obtain ⟨ht, hq, he, hl⟩ := htally
          refine ⟨ht, ?_, he, hl⟩
          rw [List.count_append, hq, List.count_singleton_self]
        · refine places_same rfl (fun _ => rfl) (fun _ => rfl) (fun n => ?_) rfl rfl ?_ rfl
          · rw [hphase]
            rfl
          · rintro (hran' | ⟨_, hphase'⟩)
            · exact .inl hran'
            · cases hphase'
    · exact h.goto_early hphase (by decide) (by decide)
  · cases hstep

/-- **A prompt takes the messages for the next turn.** -/
theorem inv_compacted (h : Inv s) (hstep : step s (.compacted i) = some u) : Inv u := by
  unfold step at hstep
  dsimp only at hstep
  split at hstep
  next hphase =>
    cases hstep
    obtain ⟨hkind, hran, htally⟩ := h.callOk hphase
    have hidle : (s.calls i).phase ≠ .idle := by
      rw [hphase]
      nofun
    have hempty : (s.calls i).phase.held = [] := by
      rw [hphase]
      rfl
    show Inv ({ s with pendingNextTurnMessages := [] }.set i
      { s.calls i with phase := .beforeAgentStart (.user i :: s.pendingNextTurnMessages) })
    refine h.set rfl h.given (Nat.le_refl _) (.inl (h.lt_next hidle)) ?_ (fun _ _ => Iff.rfl) nofun
      nofun (fun j _ => h.streaming j) (fun j hmem => ?_) nofun (fun _ _ => rfl)
      ⟨hkind, hran, htally, ?_⟩ (fun n place hat horder hnowhere => ?_) h.overlapped
    · show s.activeRun = some i ↔ _
      rw [h.running i, hphase]
      exact ⟨nofun, nofun⟩
    · rcases List.mem_cons.mp hmem with hsame | hwaits
      · exact Message.user.inj hsame
      · exact absurd hwaits (h.waiting j)
    · rw [List.count_cons_self, List.count_eq_zero_of_not_mem (h.waiting i)]
    · have hcount : (Message.user i :: s.pendingNextTurnMessages).count (.nextTurn n) =
          s.pendingNextTurnMessages.count (.nextTurn n) := List.count_cons_of_ne (by simp)
      by_cases hplace : place = .waiting
      · -- it goes with this prompt
        subst hplace
        refine ⟨.held i, ⟨?_, ?_, fun j => ?_⟩, fun j hlt hprompt => ?_, ?_⟩
        · rfl
        · exact hat.transcript
        · by_cases hj : j = i
          · subst hj
            rw [calls_set_self]
            show List.count _ (Message.user j :: s.pendingNextTurnMessages) = _
            rw [hcount, hat.waiting, if_pos rfl, if_pos rfl]
          · rw [calls_set_ne _ _ hj]
            have hnone := hat.held j
            rw [if_neg nofun] at hnone
            rw [if_neg (fun hsame => hj (Place.held.inj hsame).symm)]
            exact hnone
        · by_cases hj : j = i
          · subst hj
            rw [calls_set_self]
            refine ⟨nofun, fun hran' => ?_⟩
            rw [hran] at hran'
            cases hran'
          · rw [calls_set_ne _ _ hj] at hprompt ⊢
            obtain ⟨hleft, -⟩ := horder j hlt hprompt
            exact ⟨nofun, fun hran' => absurd rfl (hleft (.inl hran'))⟩
        · rw [← hnowhere]
          exact ⟨nofun, nofun⟩
      · refine ⟨place, ?_, horder.set rfl fun _ _ => ⟨fun _ => hplace, fun hran' => ?_⟩, hnowhere⟩
        · have hwaiting := hat.waiting
          rw [if_neg hplace] at hwaiting
          refine ⟨?_, hat.transcript, fun j => ?_⟩
          · rw [if_neg hplace]
            rfl
          · by_cases hj : j = i
            · subst hj
              have hheld := hat.held j
              rw [hempty] at hheld
              rw [calls_set_self, ← hheld]
              show List.count _ (Message.user j :: s.pendingNextTurnMessages) = 0
              rw [hcount, hwaiting]
            · rw [calls_set_ne _ _ hj]
              exact hat.held j
        · have hran' : (s.calls i).ran = true := hran'
          rw [hran] at hran'
          cases hran'
  · cases hstep

/-! ## Runs of the agent -/

theorem noneInside_iff (h : Inv s) : s.noneInside = true ↔ ∀ j, (s.calls j).phase.inside = false := by
  unfold AgentSession.noneInside
  rw [List.all_eq_true]
  constructor
  · intro hall j
    by_cases hlt : j < s.next
    · have hj := hall j (List.mem_range.mpr hlt)
      rwa [Bool.not_eq_true'] at hj
    · rw [h.fresh j (Nat.le_of_not_lt hlt)]
      rfl
  · intro hnone j _
    rw [hnone j]
    rfl

theorem activeRun_eq_none (h : Inv s) (hnone : ∀ j, (s.calls j).phase.inside = false) : s.activeRun = none := by
  cases hactive : s.activeRun with
  | none => rfl
  | some j =>
    obtain ⟨messages, hphase⟩ := (h.running j).mp hactive
    have hin := hnone j
    rw [hphase] at hin
    cases hin

/-- **A run starts** where no call is in `_runAgentPrompt`. -/
theorem inv_runAgentPrompt {messages : List Message} (h : Inv s) (hcalls : u.calls = s.calls)
    (hgiven : u.given = s.given) (hnext : s.next ≤ u.next) (hi : i < u.next)
    (hwaiting : u.pendingNextTurnMessages = s.pendingNextTurnMessages)
    (htranscript : u.transcript = s.transcript) (hqueued : u.queued = s.queued)
    (hsettled : u.settled = s.settled) (hoverlapped : u.overlapped = s.overlapped)
    (hactive : u.activeRun = s.activeRun) (hnone : ∀ j, (s.calls j).phase.inside = false)
    (husers : ∀ j, Message.user j ∈ messages → j = i)
    (hheld : ∀ n, messages.count (.nextTurn n) = (s.calls i).phase.held.count (.nextTurn n))
    (htally : s.tally i = ⟨0, 0, 0, 0⟩) (hcount : messages.count (.user i) = call.kind.messages)
    (horder : ∀ n place, s.At n place → s.InOrder n place → (place = .nowhere ↔ n ∉ s.given) →
      n < i → call.kind = .prompt → place ≠ .waiting ∧ ∀ j, place = .held j → j = i) :
    Inv (u.runAgentPrompt i call messages) := by
  have hidle := activeRun_eq_none h hnone
  unfold AgentSession.runAgentPrompt
  rw [hactive, hidle]
  refine h.set hcalls ?_ hnext (.inl hi) ?_ (fun j hj => ?_) (fun _ => .inr hnone) (fun _ => rfl)
    (fun _ _ _ => rfl) husers ?_ (fun j _ => ?_) ⟨rfl, 0, ?_, ?_⟩
    (fun n place hat hin hnowhere => ?_) (hoverlapped.trans h.overlapped)
  · intro n hn
    have hn : n ∈ u.given := hn
    rw [hgiven] at hn
    exact Nat.lt_of_lt_of_le (h.given n hn) hnext
  · exact ⟨fun _ => ⟨messages, rfl⟩, fun _ => rfl⟩
  · rw [hidle]
    exact ⟨fun hsame => absurd (Option.some.inj hsame).symm hj, nofun⟩
  · intro j
    show _ ∉ u.pendingNextTurnMessages
    rw [hwaiting]
    exact h.waiting j
  · unfold AgentSession.tally
    rw [htranscript, hqueued, hsettled]
  · rw [← htally]
    unfold AgentSession.tally
    rw [htranscript, hqueued, hsettled]
  · rw [Nat.zero_add]
    exact hcount
  · refine ⟨place, hat.set hcalls ?_ ?_ (hheld n), hin.set hcalls fun hlt hprompt => ?_, ?_⟩
    · show u.pendingNextTurnMessages.count _ = _
      rw [hwaiting]
    · show u.transcript.count _ = _
      rw [htranscript]
    · obtain ⟨hleft, hcarried⟩ := horder n place hat hin hnowhere hlt hprompt
      exact ⟨fun _ => hleft, fun _ => hcarried⟩
    · show place = .nowhere ↔ n ∉ u.given
      rw [hgiven]
      exact hnowhere

theorem inv_start {extensionMessages : Nat} (h : Inv s) (horderly : Orderly s (.start i extensionMessages))
    (hstep : step s (.start i extensionMessages) = some u) : Inv u := by
  unfold step at hstep
  dsimp only at hstep
  split at hstep
  next messages hphase =>
    cases hstep
    obtain ⟨hkind, -, htally, hcount⟩ := h.callOk hphase
    obtain ⟨hnone, helsewhere⟩ := horderly
    have hidle : (s.calls i).phase ≠ .idle := by
      rw [hphase]
      nofun
    have hheld : (s.calls i).phase.held = messages := by
      rw [hphase]
      rfl
    refine inv_runAgentPrompt h rfl rfl (Nat.le_refl _) (h.lt_next hidle) rfl rfl rfl rfl rfl rfl
      ((noneInside_iff h).mp hnone) (fun j hmem => ?_) (fun n => ?_) htally ?_
      (fun n place hat hin hnowhere hlt _ => ⟨?_, fun j hplace => ?_⟩)
    · rcases List.mem_append.mp hmem with htaken | hextension
      · rw [← hheld] at htaken
        exact h.users i j htaken
      · cases List.eq_of_mem_replicate hextension
    · rw [hheld, List.count_append, List.count_replicate, if_neg nofun, Nat.add_zero]
    · have hkind : (s.calls i).kind = .prompt := hkind
      rw [List.count_append, List.count_replicate, if_neg nofun, Nat.add_zero, hcount, hkind]
      rfl
    · exact (hin i hlt hkind).1 (.inr ⟨messages, hphase⟩)
    · -- no other call holds it
      by_contra hj
      have hgiven : n ∈ s.given := by
        by_contra hnot
        rw [hnowhere.mpr hnot] at hplace
        cases hplace
      have hmem : Message.nextTurn n ∈ (s.calls j).phase.held := by
        have hone := hat.held j
        rw [if_pos hplace] at hone
        exact List.count_pos_iff.mp (by omega)
      have hlt' : j < s.next := h.lt_next fun hidle => by
        rw [hidle] at hmem
        cases hmem
      unfold AgentSession.takenElsewhere at helsewhere
      rw [List.any_eq_false] at helsewhere
      refine helsewhere n hgiven ?_
      rw [Bool.and_eq_true, List.any_eq_true]
      refine ⟨decide_eq_true hlt, j, List.mem_range.mpr hlt', ?_⟩
      rw [Bool.and_eq_true]
      exact ⟨decide_eq_true hj, List.contains_iff_mem.mpr hmem⟩
  · cases hstep

/-- **A message comes into the transcript.** -/
theorem inv_messageEnd (h : Inv s) (hstep : step s (.messageEnd i) = some u) : Inv u := by
  unfold step at hstep
  dsimp only at hstep
  split at hstep
  next message messages hphase =>
    cases hstep
    obtain ⟨hran, n, htally, hcount⟩ := h.callOk hphase
    have hidle : (s.calls i).phase ≠ .idle := by
      rw [hphase]
      nofun
    have hheld : (s.calls i).phase.held = message :: messages := by
      rw [hphase]
      rfl
    have huser : ∀ j, message = .user j → j = i := fun j hsame =>
      h.users i j (by rw [hheld, hsame]; exact List.mem_cons_self)
    show Inv ({ s with transcript := s.transcript ++ [message] }.set i
      { s.calls i with phase := .running messages })
    refine h.set rfl h.given (Nat.le_refl _) (.inl (h.lt_next hidle)) ?_ (fun _ _ => Iff.rfl)
      (fun _ => .inl (by rw [hphase]; rfl)) (fun _ => h.streaming i ?_) (fun j _ => h.streaming j)
      (fun j hmem => ?_) h.waiting (fun j hj => ?_) ⟨hran, n + [message].count (.user i), ?_, ?_⟩
      (fun n place hat horder hnowhere => ?_) h.overlapped
    · show s.activeRun = some i ↔ _
      rw [h.running i, hphase]
      exact ⟨fun _ => ⟨messages, rfl⟩, fun _ => ⟨message :: messages, rfl⟩⟩
    · rw [hphase]
      exact ⟨rfl, nofun⟩
    · refine h.users i j ?_
      rw [hheld]
      exact List.mem_cons_of_mem _ hmem
    · unfold AgentSession.tally
      rw [tally_append]
      intro hmem
      exact hj (huser j (List.mem_singleton.mp hmem).symm)
    · unfold AgentSession.tally at htally ⊢
      simp only [Tally.mk.injEq] at htally ⊢
      obtain ⟨ht, hq, he, hl⟩ := htally
      refine ⟨?_, hq, he, hl⟩
      rw [List.count_append, ht]
    · have hcount : n + (message :: messages).count (.user i) = (s.calls i).kind.messages := hcount
      rw [← List.singleton_append, List.count_append] at hcount
      show _ = (s.calls i).kind.messages
      omega
    · have htail : ∀ n, (s.calls i).phase.held.count (.nextTurn n) =
          [message].count (.nextTurn n) + messages.count (.nextTurn n) := fun n => by
        rw [hheld, ← List.singleton_append, List.count_append]
      by_cases hsame : message = .nextTurn n
      · -- it was with this call, and is in now
        have hone := htail n
        rw [hsame, List.count_singleton_self, hat.held i] at hone
        have hplace : place = .held i := by
          by_contra hne
          rw [if_neg hne] at hone
          omega
        subst hplace
        rw [if_pos rfl] at hone
        refine ⟨.transcript, ⟨hat.waiting, ?_, fun j => ?_⟩, fun _ _ _ => ⟨nofun, nofun⟩, ?_⟩
        · show (s.transcript ++ [message]).count _ = _
          rw [List.count_append, hat.transcript, hsame, List.count_singleton_self]
          rfl
        · by_cases hj : j = i
          · subst hj
            rw [calls_set_self]
            show messages.count _ = 0
            omega
          · rw [calls_set_ne _ _ hj]
            have hnone := hat.held j
            rw [if_neg (fun hsame => hj (Place.held.inj hsame).symm)] at hnone
            exact hnone
        · rw [← hnowhere]
          exact ⟨nofun, nofun⟩
      · have hnot : [message].count (.nextTurn n) = 0 :=
          List.count_eq_zero_of_not_mem fun hmem => hsame (List.mem_singleton.mp hmem).symm
        refine ⟨place, hat.set rfl rfl ?_ ?_, horder.set rfl fun hlt hprompt => ?_, hnowhere⟩
        · show (s.transcript ++ [message]).count _ = _
          rw [List.count_append, hnot, Nat.add_zero]
        · show messages.count _ = _
          rw [htail n, hnot, Nat.zero_add]
        · obtain ⟨hleft, hcarried⟩ := horder i hlt hprompt
          exact ⟨fun _ => hleft (.inl hran), hcarried⟩
  · cases hstep

/-- **A call in `_runAgentPrompt` goes on**, holding nothing. -/
theorem Inv.inside_step (h : Inv s) (hcalls : u.calls = s.calls) (hgiven : u.given = s.given)
    (hnext : u.next = s.next) (hwaiting : u.pendingNextTurnMessages = s.pendingNextTurnMessages)
    (htranscript : u.transcript = s.transcript) (hqueued : u.queued = s.queued)
    (hsettled : ∀ j, j ≠ i → ∀ channel, u.settled.count (channel, j) = s.settled.count (channel, j))
    (hoverlapped : u.overlapped = s.overlapped) (hin : (s.calls i).phase.inside = true)
    (hheld : ∀ n, (s.calls i).phase.held.count (.nextTurn n) = 0) (hheld' : phase.held = [])
    (hactive : u.activeRun = some i ↔ ∃ messages, phase = .running messages)
    (hothers : ∀ j, j ≠ i → u.activeRun ≠ some j) (hflag : phase.active → u.isAgentRunActive = true)
    (hok : Call.Ok { s.calls i with phase } i (u.tally i)) : Inv (u.goto i phase) := by
  have hne : (s.calls i).phase ≠ .idle := fun hidle => by
    rw [hidle] at hin
    cases hin
  have htook : ∀ messages, phase = .beforeAgentStart messages → (s.calls i).took := fun messages hphase => by
    rw [hphase] at hheld'
    have hempty : messages = [] := hheld'
    subst hempty
    rw [hphase] at hok
    obtain ⟨-, -, -, hcount⟩ := hok
    cases hcount
  have hgoto : u.goto i phase = u.set i { s.calls i with phase } := by
    unfold AgentSession.goto
    rw [hcalls]
  have hother : ∀ j, j ≠ i → (s.calls j).phase.inside = false := fun j hj => by
    by_contra hinside
    exact hj (h.alone j i (eq_true_of_ne_false hinside) hin)
  rw [hgoto]
  refine h.set hcalls (hgiven ▸ hnext ▸ h.given) (Nat.le_of_eq hnext.symm)
    (.inl (hnext ▸ h.lt_next hne)) hactive (fun j hj => ?_) (fun _ => .inl hin) hflag
    (fun j hj hactive => ?_) (fun j hmem => ?_) (hwaiting ▸ h.waiting) (fun j hj => ?_) hok ?_
    (hoverlapped.trans h.overlapped)
  · refine ⟨fun hsome => absurd hsome (hothers j hj), fun hsome => ?_⟩
    obtain ⟨messages, hphase⟩ := (h.running j).mp hsome
    have hnot := hother j hj
    rw [hphase] at hnot
    cases hnot
  · have hnot := hother j hj
    rw [hactive.1] at hnot
    cases hnot
  · rw [hheld'] at hmem
    cases hmem
  · unfold AgentSession.tally
    rw [htranscript, hqueued, hsettled j hj, hsettled j hj]
  · refine places_same hcalls (fun n => by rw [hwaiting]) (fun n => by rw [htranscript]) (fun n => ?_) rfl rfl ?_ hgiven
    · rw [hheld n]
      show phase.held.count _ = 0
      rw [hheld']
      rfl
    · rintro (hran | ⟨messages, hphase⟩)
      · exact .inl hran
      · exact htook messages hphase

theorem otherActive_eq_false (h : Inv s) (hin : (s.calls i).phase.inside = true) : s.otherActive i = false := by
  unfold AgentSession.otherActive
  rw [List.any_eq_false]
  intro j _ hother
  rw [Bool.and_eq_true, decide_eq_true_eq] at hother
  refine hother.1 (h.alone j i ?_ hin)
  have hrun := hother.2
  unfold Phase.inRun at hrun
  split at hrun
  next hphase =>
    rw [hphase]
    rfl
  next hphase =>
    rw [hphase]
    rfl
  · cases hrun

theorem activeRun_inside (h : Inv s) (hin : (s.calls i).phase.inside = true)
    (hnot : ∀ messages, (s.calls i).phase ≠ .running messages) : s.activeRun = none := by
  cases hactive : s.activeRun with
  | none => rfl
  | some j =>
    obtain ⟨messages, hphase⟩ := (h.running j).mp hactive
    obtain rfl := h.alone j i (by rw [hphase]; rfl) hin
    exact absurd hphase (hnot messages)

/-- **The run of the agent is over.** -/
theorem inv_runOver {messages : List Message} (h : Inv s) (hphase : (s.calls i).phase = .running messages)
    (hin : ∀ m ∈ messages, m.awaited = false) : Inv ({ s with activeRun := none }.goto i .postRun) := by
  obtain ⟨hran, n, htally, hcount⟩ := h.callOk hphase
  have hnot : ∀ m, m.awaited = true → messages.count m = 0 := fun m hawaited =>
    List.count_eq_zero_of_not_mem fun hmem => by
      rw [hin m hmem] at hawaited
      cases hawaited
  have hheld : (s.calls i).phase.held = messages := by
    rw [hphase]
    rfl
  refine h.inside_step rfl rfl rfl rfl rfl rfl (fun _ _ _ => rfl) rfl (by rw [hphase]; rfl) (fun n => ?_) rfl
    ⟨nofun, nofun⟩ nofun (fun _ => ?_) ⟨hran, ?_⟩
  · rw [hheld]
    exact hnot _ rfl
  · refine h.streaming i ?_
    rw [hphase]
    exact ⟨rfl, nofun⟩
  · have hcount : n + messages.count (.user i) = (s.calls i).kind.messages := hcount
    rw [hnot _ rfl, Nat.add_zero] at hcount
    show s.tally i = ⟨(s.calls i).kind.messages, 0, 0, 0⟩
    rw [htally, hcount]

theorem inv_runEnds (h : Inv s) (hstep : step s (.runEnds i) = some u) : Inv u := by
  unfold step at hstep
  dsimp only at hstep
  split at hstep
  next hphase =>
    cases hstep
    exact inv_runOver h hphase nofun
  · cases hstep

theorem inv_runFails (h : Inv s) (horderly : Orderly s (.runFails i))
    (hstep : step s (.runFails i) = some u) : Inv u := by
  unfold step at hstep
  dsimp only at hstep
  split at hstep
  next messages hphase =>
    cases hstep
    refine inv_runOver h hphase fun m hmem => horderly m ?_
    rw [hphase]
    exact hmem
  · cases hstep

/-- **After the run**: it is continued, or `_runAgentPrompt` comes to its finally block. -/
theorem inv_postRun (h : Inv s) (hphase : (s.calls i).phase = .postRun) :
    Inv ({ s with activeRun := some i }.goto i (.running [])) ∧
      ∀ rejects, (rejects = true → (s.calls i).kind ≠ .prompt) → Inv (s.goto i (.leaving rejects)) := by
  obtain ⟨hran, htally⟩ := h.callOk hphase
  have hin : (s.calls i).phase.inside = true := by
    rw [hphase]
    rfl
  have hheld : ∀ n, (s.calls i).phase.held.count (.nextTurn n) = 0 := fun n => by
    rw [hphase]
    rfl
  have hidle := activeRun_inside h hin (by rw [hphase]; nofun)
  have hflag : s.isAgentRunActive = true := by
    refine h.streaming i ?_
    rw [hphase]
    exact ⟨rfl, nofun⟩
  constructor
  · refine h.inside_step rfl rfl rfl rfl rfl rfl (fun _ _ _ => rfl) rfl hin hheld rfl
      ⟨fun _ => ⟨[], rfl⟩, fun _ => rfl⟩ (fun j hj hsome => hj (Option.some.inj hsome).symm)
      (fun _ => hflag) ⟨hran, _, htally, rfl⟩
  · intro rejects hkind
    refine h.inside_step rfl rfl rfl rfl rfl rfl (fun _ _ _ => rfl) rfl hin hheld rfl ?_ ?_ (fun _ => hflag)
      ⟨hran, htally, hkind⟩
    · rw [hidle]
      exact ⟨nofun, nofun⟩
    · rw [hidle]
      exact fun _ _ => nofun

theorem inv_continues (h : Inv s) (hstep : step s (.continues i) = some u) : Inv u := by
  unfold step at hstep
  dsimp only at hstep
  split at hstep
  next hphase =>
    rw [activeRun_inside h (by rw [hphase]; rfl) (by rw [hphase]; nofun)] at hstep
    cases hstep
    exact (inv_postRun h hphase).1
  · cases hstep

theorem inv_throws (h : Inv s) (horderly : Orderly s (.throws i)) (hstep : step s (.throws i) = some u) : Inv u := by
  unfold step at hstep
  dsimp only at hstep
  split at hstep
  next hphase =>
    cases hstep
    exact (inv_postRun h hphase).2 true fun _ => horderly
  · cases hstep

theorem inv_finishes (h : Inv s) (hstep : step s (.finishes i) = some u) : Inv u := by
  unfold step at hstep
  dsimp only at hstep
  split at hstep
  next hphase =>
    cases hstep
    exact (inv_postRun h hphase).2 false nofun
  · cases hstep

/-! ## Settling -/

theorem settled_append {channel channel' : Channel} {j : Nat} (hne : (channel, i) ≠ (channel', j))
    (l : List (Channel × Nat)) : (l ++ [(channel, i)]).count (channel', j) = l.count (channel', j) := by
  have hnot : [(channel, i)].count (channel', j) = 0 :=
    List.count_eq_zero_of_not_mem fun hmem => hne (List.mem_singleton.mp hmem).symm
  rw [List.count_append, hnot, Nat.add_zero]

/-- A call that emits `agent_settled` runs nothing, and no other run is active. -/
theorem Inv.emitSettled (h : Inv s) {channel : Channel} {active : Bool}
    (hin : (s.calls i).phase.inside = true) (hidle : ∀ messages, (s.calls i).phase ≠ .running messages)
    (hheld : (s.calls i).phase.held = []) (hheld' : phase.held = [])
    (hidle' : ∀ messages, phase ≠ .running messages) (hflag : phase.active → active = true)
    (hok : Call.Ok { s.calls i with phase } i ((s.emitSettled channel i).tally i)) :
    Inv ({ s.emitSettled channel i with isAgentRunActive := active }.goto i phase) := by
  have hnone := activeRun_inside h hin hidle
  refine h.inside_step rfl rfl rfl rfl rfl rfl (fun j hj channel' => ?_) ?_ hin (fun n => ?_) hheld' ?_ ?_ hflag hok
  · exact settled_append (fun hsame => hj (Prod.mk.inj hsame).2.symm) _
  · show (if s.otherActive i then _ else _) = _
    rw [otherActive_eq_false h hin]
    rfl
  · rw [hheld]
    rfl
  · show s.activeRun = _ ↔ _
    rw [hnone]
    exact ⟨nofun, fun ⟨messages, hrunning⟩ => absurd hrunning (hidle' messages)⟩
  · show ∀ j, j ≠ i → s.activeRun ≠ _
    rw [hnone]
    exact fun _ _ => nofun

/-- **`agent_settled`**, to the extensions. -/
theorem inv_settle {flushFails : Bool} (h : Inv s) (horderly : Orderly s (.settle i flushFails))
    (hstep : step s (.settle i flushFails) = some u) : Inv u := by
  unfold step at hstep
  dsimp only at hstep
  split at hstep
  next rejects hphase =>
    obtain rfl : flushFails = false := horderly
    cases hstep
    obtain ⟨hran, htally, hkind⟩ := h.callOk hphase
    refine h.emitSettled (by rw [hphase]; rfl) (by rw [hphase]; nofun) (by rw [hphase]; rfl) rfl nofun
      (fun hactive => absurd rfl (hactive.2 rejects)) ⟨hran, ?_, hkind⟩
    unfold AgentSession.tally at htally ⊢
    simp only [Tally.mk.injEq] at htally ⊢
    obtain ⟨ht, hq, he, hl⟩ := htally
    refine ⟨ht, hq, ?_, ?_⟩
    · show (s.settled ++ _).count _ = 1
      rw [List.count_append, he, List.count_singleton_self]
    · show (s.settled ++ _).count _ = 0
      rw [settled_append (by simp), hl]
  · cases hstep

/-- **`agent_settled`**, to the listeners. -/
theorem inv_settled {throws : Bool} (h : Inv s) (horderly : Orderly s (.settled i throws))
    (hstep : step s (.settled i throws) = some u) : Inv u := by
  unfold step at hstep
  dsimp only at hstep
  split at hstep
  next rejects hphase =>
    cases hstep
    obtain ⟨hran, htally, hkind⟩ := h.callOk hphase
    have htally' : (s.emitSettled .listeners i).tally i = ⟨(s.calls i).kind.messages, 0, 1, 1⟩ := by
      unfold AgentSession.tally at htally ⊢
      simp only [Tally.mk.injEq] at htally ⊢
      obtain ⟨ht, hq, he, hl⟩ := htally
      refine ⟨ht, hq, ?_, ?_⟩
      · show (s.settled ++ _).count _ = 1
        rw [settled_append (by simp), he]
      · show (s.settled ++ _).count _ = 1
        rw [List.count_append, hl, List.count_singleton_self]
    refine h.emitSettled (by rw [hphase]; rfl) (by rw [hphase]; nofun) (by rw [hphase]; rfl) rfl nofun nofun ?_
    by_cases hrejects : (rejects || throws) = true
    · rw [if_pos hrejects]
      refine .inl ⟨hran, htally', ?_⟩
      rw [Bool.or_eq_true] at hrejects
      exact hrejects.elim hkind horderly
    · rw [if_neg hrejects]
      exact .inl ⟨hran, htally'⟩
  · cases hstep

theorem inv_prompt {streamingBehavior : Option StreamingBehavior} (h : Inv s)
    (hstep : step s (.prompt streamingBehavior) = some u) : Inv u := by
  cases hstep
  have hnone := h.fresh s.next (Nat.le_refl _)
  have hok := h.calls s.next
  rw [hnone] at hok
  refine h.set rfl (fun n hn => Nat.lt_succ_of_lt (h.given n hn)) (Nat.le_succ _)
    (.inl (Nat.lt_succ_self _)) ?_ (fun _ _ => Iff.rfl) nofun nofun (fun j _ => h.streaming j) nofun h.waiting
    (fun _ _ => rfl) ⟨rfl, rfl, hok.2⟩ (fun n place hat horder hnowhere => ?_) h.overlapped
  · show s.activeRun = _ ↔ _
    rw [h.running, hnone]
    exact ⟨nofun, nofun⟩
  · refine ⟨place, hat.set rfl rfl rfl ?_, horder.set rfl fun _ _ => ⟨?_, nofun⟩, hnowhere⟩
    · rw [hnone]
      rfl
    · rintro (hran | ⟨_, hphase⟩)
      · cases hran
      · cases hphase

/-! ## Steps of no call -/

theorem Inv.no_call (h : Inv s) (hcalls : u.calls = s.calls) (hgiven : ∀ n ∈ u.given, n < u.next)
    (hnext : s.next ≤ u.next) (hactive : u.activeRun = s.activeRun)
    (hflag : u.isAgentRunActive = s.isAgentRunActive)
    (hwaiting : ∀ j, Message.user j ∉ u.pendingNextTurnMessages)
    (htranscript : ∀ j, u.transcript.count (.user j) = s.transcript.count (.user j))
    (hqueued : ∀ j, u.queued.count (.user j) = s.queued.count (.user j))
    (hsettled : u.settled = s.settled) (hoverlapped : u.overlapped = s.overlapped)
    (hplaces : ∀ n place, s.At n place → s.InOrder n place → (place = .nowhere ↔ n ∉ s.given) →
      ∃ place', u.At n place' ∧ u.InOrder n place' ∧ (place' = .nowhere ↔ n ∉ u.given)) : Inv u := by
  refine ⟨fun i hle => ?_, hgiven, fun i => ?_, fun i j => ?_, fun i => ?_, fun i j => ?_, hwaiting,
    fun i => ?_, fun n => ?_, hoverlapped.trans h.overlapped⟩
  · rw [hcalls]
    exact h.fresh i (Nat.le_trans hnext hle)
  · rw [hcalls, hactive]
    exact h.running i
  · rw [hcalls]
    exact h.alone i j
  · rw [hcalls, hflag]
    exact h.streaming i
  · rw [hcalls]
    exact h.users i j
  · have htally : u.tally i = s.tally i := by
      unfold AgentSession.tally
      rw [htranscript, hqueued, hsettled]
    rw [hcalls, htally]
    exact h.calls i
  · obtain ⟨place, hat, horder, hnowhere⟩ := h.places n
    exact hplaces n place hat horder hnowhere

/-- The messages for the next turn are not touched. -/
theorem places_kept (hcalls : u.calls = s.calls) (hwaiting : u.pendingNextTurnMessages = s.pendingNextTurnMessages)
    (htranscript : ∀ n, u.transcript.count (.nextTurn n) = s.transcript.count (.nextTurn n))
    (hgiven : u.given = s.given) (n : Nat) (place : Place) (hat : s.At n place)
    (horder : s.InOrder n place) (hnowhere : place = .nowhere ↔ n ∉ s.given) :
    ∃ place', u.At n place' ∧ u.InOrder n place' ∧ (place' = .nowhere ↔ n ∉ u.given) := by
  refine ⟨place, ⟨?_, (htranscript n).trans hat.transcript, ?_⟩, ?_, ?_⟩
  · rw [hwaiting]
    exact hat.waiting
  · rw [hcalls]
    exact hat.held
  · unfold AgentSession.InOrder
    rw [hcalls]
    exact horder
  · rw [hgiven]
    exact hnowhere

theorem custom_append {added : List Message} (hnot : ∀ m ∈ added, m.awaited = false) {m : Message}
    (hawaited : m.awaited = true) (l : List Message) : (l ++ added).count m = l.count m := by
  have hnone : added.count m = 0 := List.count_eq_zero_of_not_mem fun hmem => by
    rw [hnot m hmem] at hawaited
    cases hawaited
  rw [List.count_append, hnone, Nat.add_zero]

/-- **A custom message.** -/
theorem inv_sendCustomMessage {deliverAs : Option DeliverAs} {triggerTurn : Option Bool} (h : Inv s)
    (horderly : Orderly s (.sendCustomMessage deliverAs triggerTurn)) :
    Inv (s.sendCustomMessage deliverAs triggerTurn) := by
  have hnone := h.fresh s.next (Nat.le_refl _)
  have hcustom : ∀ m ∈ [Message.custom s.next], m.awaited = false := fun m hmem => by
    rw [List.mem_singleton.mp hmem]
    rfl
  have hgiven : ∀ n ∈ s.given, n < s.next + 1 := fun n hn => Nat.lt_succ_of_lt (h.given n hn)
  unfold AgentSession.sendCustomMessage
  dsimp only
  split
  · -- for the next turn
    have hnew : s.next ∉ s.given := fun hmem => Nat.lt_irrefl _ (h.given _ hmem)
    refine h.no_call rfl (fun n hn => ?_) (Nat.le_succ _) rfl rfl (fun j hmem => ?_) (fun _ => rfl)
      (fun _ => rfl) rfl rfl (fun n place hat horder hnowhere => ?_)
    · rcases List.mem_append.mp hn with hold | hsame
      · exact hgiven n hold
      · rw [List.mem_singleton.mp hsame]
        exact Nat.lt_succ_self _
    · rcases List.mem_append.mp hmem with hold | hsame
      · exact h.waiting j hold
      · cases List.mem_singleton.mp hsame
    · by_cases hn : n = s.next
      · subst hn
        obtain rfl := hnowhere.mpr hnew
        refine ⟨.waiting, ⟨?_, hat.transcript, fun i => ?_⟩, fun i hlt hprompt => ?_, ?_⟩
        · show (s.pendingNextTurnMessages ++ [Message.nextTurn s.next]).count _ = 1
          rw [List.count_append, hat.waiting, List.count_singleton_self]
          rfl
        · rw [if_neg nofun]
          have hheld := hat.held i
          rwa [if_neg nofun] at hheld
        · have hprompt : (s.calls i).kind = .prompt := hprompt
          rw [h.fresh i (Nat.le_of_lt hlt)] at hprompt
          cases hprompt
        · exact ⟨nofun, fun hnot => absurd (List.mem_append_right _ (List.mem_singleton.mpr rfl)) hnot⟩
      · have hother : [Message.nextTurn s.next].count (.nextTurn n) = 0 :=
          List.count_eq_zero_of_not_mem fun hmem =>
            hn (Message.nextTurn.inj (List.mem_singleton.mp hmem))
        refine ⟨place, ⟨?_, hat.transcript, hat.held⟩, horder, hnowhere.trans ?_⟩
        · show (s.pendingNextTurnMessages ++ [Message.nextTurn s.next]).count _ = _
          rw [List.count_append, hother, Nat.add_zero]
          exact hat.waiting
        · show n ∉ s.given ↔ n ∉ s.given ++ [s.next]
          rw [List.mem_append, List.mem_singleton]
          exact ⟨fun hnot hor => hor.elim hnot hn, fun hnot hmem => hnot (.inl hmem)⟩
  next hdeliver =>
    split
    · exact h.no_call rfl hgiven (Nat.le_succ _) rfl rfl h.waiting (fun _ => rfl)
        (fun j => custom_append hcustom rfl _) rfl rfl (places_kept rfl rfl (fun _ => rfl) rfl)
    next hstreams =>
      split
      next htrigger =>
        -- a run of its own
        have hflag : s.isAgentRunActive = false := by
          by_contra hflag
          refine hstreams ⟨eq_true_of_ne_false hflag, ?_⟩
          rw [htrigger]
          nofun
        have hok := h.calls s.next
        rw [hnone] at hok
        refine inv_runAgentPrompt h rfl rfl (Nat.le_succ _) (Nat.lt_succ_self _) rfl rfl rfl rfl rfl
          rfl ((noneInside_iff h).mp (horderly hdeliver hflag htrigger)) (fun j hmem => ?_)
          (fun n => ?_) hok.2 ?_ (fun _ _ _ _ _ _ => nofun)
        · cases List.mem_singleton.mp hmem
        · rw [hnone]
          exact List.count_eq_zero_of_not_mem (by simp)
        · exact List.count_eq_zero_of_not_mem (by simp)
      · exact h.no_call rfl hgiven (Nat.le_succ _) rfl rfl h.waiting
          (fun j => custom_append hcustom rfl _) (fun _ => rfl) rfl rfl
          (places_kept rfl rfl (fun n => custom_append hcustom rfl _) rfl)

/-- **One step.** -/
theorem inv_step {event : Event} (h : Inv s) (horderly : Orderly s event) (hstep : step s event = some u) : Inv u := by
  cases event with
  | prompt streamingBehavior => exact inv_prompt h hstep
  | handled i => exact inv_handled h hstep
  | submit i => exact inv_submit h hstep
  | input i => exact inv_input h hstep
  | authorized i => exact inv_authorized h hstep
  | compacted i => exact inv_compacted h hstep
  | rejects i => exact inv_rejects h horderly hstep
  | start i extensionMessages => exact inv_start h horderly hstep
  | sendCustomMessage deliverAs triggerTurn =>
    cases hstep
    exact inv_sendCustomMessage h horderly
  | messageEnd i => exact inv_messageEnd h hstep
  | runEnds i => exact inv_runEnds h hstep
  | runFails i => exact inv_runFails h horderly hstep
  | continues i => exact inv_continues h hstep
  | throws i => exact inv_throws h horderly hstep
  | finishes i => exact inv_finishes h hstep
  | settle i flushFails => exact inv_settle h horderly hstep
  | settled i throws => exact inv_settled h horderly hstep
  | compact starts =>
    cases hstep
    exact h.no_call rfl h.given (Nat.le_refl _) rfl rfl h.waiting (fun _ => rfl) (fun _ => rfl) rfl rfl
      (places_kept rfl rfl (fun _ => rfl) rfl)

end Steps

/-! ## Runs -/

theorem inv_create : Inv .create := by
  refine ⟨fun _ _ => rfl, nofun, fun i => ⟨nofun, nofun⟩, nofun, fun i hactive => ?_, fun i j hmem => ?_,
    nofun, fun i => ⟨rfl, rfl⟩, fun n => ?_, rfl⟩
  · cases hactive.1
  · cases hmem
  · refine ⟨.nowhere, ⟨rfl, rfl, fun _ => rfl⟩, fun i _ hprompt => ?_, fun _ => nofun, fun _ => rfl⟩
    cases hprompt

theorem Kind.messages_le (kind : Kind) : kind.messages ≤ 1 := by
  cases kind with
  | prompt => exact Nat.le_refl 1
  | custom => exact Nat.zero_le 1

theorem Call.Ok.le_one {call : Call} {i : Nat} {tally : Tally} (h : call.Ok i tally) :
    tally.transcript + tally.queued ≤ 1 ∧ tally.extensions ≤ 1 ∧ tally.listeners ≤ 1 := by
  have hkind := call.kind.messages_le
  unfold Call.Ok at h
  split at h
  · obtain ⟨-, rfl⟩ := h
    exact ⟨Nat.zero_le _, Nat.zero_le _, Nat.zero_le _⟩
  · obtain ⟨-, -, rfl⟩ := h
    exact ⟨Nat.zero_le _, Nat.zero_le _, Nat.zero_le _⟩
  · obtain ⟨-, -, rfl⟩ := h
    exact ⟨Nat.zero_le _, Nat.zero_le _, Nat.zero_le _⟩
  · obtain ⟨-, -, rfl⟩ := h
    exact ⟨Nat.zero_le _, Nat.zero_le _, Nat.zero_le _⟩
  · obtain ⟨-, -, rfl⟩ := h
    exact ⟨Nat.zero_le _, Nat.zero_le _, Nat.zero_le _⟩
  · obtain ⟨-, -, rfl, -⟩ := h
    exact ⟨Nat.zero_le _, Nat.zero_le _, Nat.zero_le _⟩
  · obtain ⟨-, n, rfl, hcount⟩ := h
    exact ⟨Nat.le_trans (Nat.le_of_add_right_le (Nat.le_of_eq hcount)) hkind, Nat.zero_le _, Nat.zero_le _⟩
  · obtain ⟨-, rfl⟩ := h
    exact ⟨hkind, Nat.zero_le _, Nat.zero_le _⟩
  · obtain ⟨-, rfl, -⟩ := h
    exact ⟨hkind, Nat.zero_le _, Nat.zero_le _⟩
  · obtain ⟨-, rfl, -⟩ := h
    exact ⟨hkind, Nat.le_refl _, Nat.zero_le _⟩
  · rcases h with ⟨-, rfl⟩ | ⟨-, rfl⟩
    · exact ⟨hkind, Nat.le_refl _, Nat.le_refl _⟩
    · exact ⟨Nat.le_refl _, Nat.zero_le _, Nat.zero_le _⟩
  · obtain ⟨-, rfl⟩ := h
    exact ⟨Nat.zero_le _, Nat.zero_le _, Nat.zero_le _⟩
  · rcases h with ⟨-, rfl, -⟩ | ⟨-, rfl⟩
    · exact ⟨hkind, Nat.le_refl _, Nat.le_refl _⟩
    · exact ⟨Nat.zero_le _, Nat.zero_le _, Nat.zero_le _⟩

/-- A call that is over has emitted both events if it ran, and none otherwise. -/
theorem Call.Ok.done {call : Call} {i : Nat} {tally : Tally} {outcome : Outcome} (h : call.Ok i tally)
    (hphase : call.phase = .done outcome) :
    tally.extensions = (if call.ran then 1 else 0) ∧ tally.listeners = if call.ran then 1 else 0 := by
  unfold Call.Ok at h
  rw [hphase] at h
  cases outcome with
  | resolved =>
    rcases h with ⟨hran, rfl⟩ | ⟨hran, rfl⟩ <;> rw [hran] <;> exact ⟨rfl, rfl⟩
  | handled =>
    obtain ⟨hran, rfl⟩ := h
    rw [hran]
    exact ⟨rfl, rfl⟩
  | rejected =>
    rcases h with ⟨hran, rfl, -⟩ | ⟨hran, rfl⟩ <;> rw [hran] <;> exact ⟨rfl, rfl⟩

/-- **What the invariant says** of the run state. -/
theorem truthful_of_inv {s : AgentSession} (h : Inv s) : s.Truthful := by
  refine ⟨fun hactive => ?_, fun i outcome channel hphase => ?_, fun i channel => ?_, h.overlapped,
    fun i hkind hphase => ?_, fun i hkind hphase => ?_, fun i => (h.calls i).le_one.1, fun n => ?_,
    fun n hn i hlt hprompt hran hheld => ?_⟩
  · rcases hactive with hsome | ⟨i, hphase⟩
    · obtain ⟨i, hi⟩ := Option.ne_none_iff_exists'.mp hsome
      obtain ⟨messages, hphase⟩ := (h.running i).mp hi
      refine h.streaming i ?_
      rw [hphase]
      exact ⟨rfl, nofun⟩
    · refine h.streaming i ?_
      rw [hphase]
      exact ⟨rfl, nofun⟩
  · obtain ⟨hextensions, hlisteners⟩ := (h.calls i).done hphase
    cases channel with
    | extensions => exact hextensions
    | listeners => exact hlisteners
  · obtain ⟨-, hextensions, hlisteners⟩ := (h.calls i).le_one
    cases channel with
    | extensions => exact hextensions
    | listeners => exact hlisteners
  · have hok := h.callOk hphase
    rcases hok with ⟨-, htally⟩ | ⟨-, htally⟩
    · have htranscript := congrArg Tally.transcript htally
      have hqueued := congrArg Tally.queued htally
      have htranscript : s.transcript.count (.user i) = (s.calls i).kind.messages := htranscript
      have hqueued : s.queued.count (.user i) = 0 := hqueued
      unfold AgentSession.Added
      rw [htranscript, hqueued, hkind]
      rfl
    · have htranscript : s.transcript.count (.user i) = 0 := congrArg Tally.transcript htally
      have hqueued : s.queued.count (.user i) = 1 := congrArg Tally.queued htally
      unfold AgentSession.Added
      rw [htranscript, hqueued]
  · have hok := h.callOk hphase
    rcases hok with ⟨-, -, hcustom⟩ | ⟨-, htally⟩
    · exact absurd hkind hcustom
    · have htranscript : s.transcript.count (.user i) = 0 := congrArg Tally.transcript htally
      have hqueued : s.queued.count (.user i) = 0 := congrArg Tally.queued htally
      exact ⟨List.count_eq_zero.mp htranscript, List.count_eq_zero.mp hqueued⟩
  · obtain ⟨place, hat, -, -⟩ := h.places n
    rw [hat.transcript]
    split
    · exact Nat.le_refl 1
    · exact Nat.zero_le 1
  · obtain ⟨place, hat, horder, hnowhere⟩ := h.places n
    obtain ⟨hleft, hcarried⟩ := horder i hlt hprompt
    have hplace : place = .transcript := by
      cases place with
      | nowhere => exact absurd hn (hnowhere.mp rfl)
      | waiting => exact absurd rfl (hleft (.inl hran))
      | transcript => rfl
      | held j =>
        obtain rfl := hcarried hran j rfl
        have hone := hat.held j
        rw [hheld, if_pos rfl] at hone
        cases hone
    rw [hat.transcript, if_pos hplace]

/-- **The run state is truthful** along the orderly runs. -/
theorem run_state_truthful (events : List Event) (h : Transition.Clean step Orderly .create events) :
    Transition.Always step AgentSession.Truthful .create events :=
  Transition.always_of_clean (fun _ => truthful_of_inv)
    (fun _ _ _ hinv horderly hstep => inv_step hinv horderly hstep) inv_create h

/-- A message for the next turn, a prompt that brings it in, and a second prompt that is queued meanwhile. -/
theorem run_state_truthful_queued :
    Transition.Always step AgentSession.Truthful .create
      [.sendCustomMessage (some .nextTurn) none, .prompt none, .submit 1, .input 1, .authorized 1,
        .compacted 1, .start 1 1, .messageEnd 1, .messageEnd 1, .messageEnd 1, .prompt (some .steer),
        .submit 2, .input 2, .runEnds 1, .continues 1, .runEnds 1, .finishes 1, .settle 1 false,
        .settled 1 false] :=
  run_state_truthful _ (by decide)

/-- Two prompts go through their checks side by side. The second one finds the agent busy, and its finally
block ends the run of the first for the session. -/
theorem second_prompt_settles : ∃ events, ¬ Transition.Always step AgentSession.Truthful .create events := by
  refine ⟨[.prompt none, .prompt none, .submit 0, .submit 1, .input 0, .input 1, .authorized 0,
    .authorized 1, .compacted 0, .compacted 1, .start 0 0, .start 1 0, .settle 1 false], fun h => ?_⟩
  have hstreams := (h _ (List.prefix_refl _) _ rfl).streaming (.inl nofun)
  cases hstreams

end Mcpi.CodingAgent.Prompting
