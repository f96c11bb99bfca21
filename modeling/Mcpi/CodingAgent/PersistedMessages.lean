import Mcpi.CodingAgent.LiveContext

/-!
# Persisted messages

Both lists have the same messages at every idle point, but for the truncated responses that have been taken
back: they stay in the session history. And no message comes between a tool call and its results. This is along
the runs in which nothing is recorded, and nothing rebuilt, while a message of a run is on its way.
-/

namespace Mcpi.CodingAgent.LiveContext

/-! ## What is to hold -/

/-- Not an assistant message that ended in an error or was aborted. -/
def Message.delivered : Message → Bool
  | .assistant _ stopReason => stopReason ≠ .error && stopReason ≠ .aborted
  | _ => true

/-- Nor one that has been truncated. -/
def Message.complete : Message → Bool
  | .assistant _ stopReason => stopReason ≠ .error && stopReason ≠ .aborted && stopReason ≠ .length
  | _ => true

/-- The live messages are the persisted ones. -/
def Same (live context : List Message) : Prop :=
  live.filter Message.delivered = context.filter Message.delivered

/-- They are, but for truncated responses that are persisted only. -/
structure Agree (live context : List Message) : Prop where
  complete : live.filter Message.complete = context.filter Message.complete
  delivered : (live.filter Message.delivered).Sublist (context.filter Message.delivered)

/-- The results of an assistant message follow it, with only other results of it in between. -/
def Grouped (messages : List Message) : Prop :=
  ∀ before after assistant id stopReason,
    messages = before ++ .toolResult assistant id :: after → .assistant assistant stopReason ∈ before →
      ∃ calls results, before = calls ++ results ∧
        (∃ stopReason', calls.getLast? = some (.assistant assistant stopReason')) ∧
          ∀ m ∈ results, ∃ id', m = .toolResult assistant id'

/-- **The live context is the persisted one**, and no message splits a tool call from its results. -/
structure AgentSession.Faithful (s : AgentSession) (same : List Message → List Message → Prop) : Prop where
  same : s.phase = .idle → same s.live (buildSessionContext s.path)
  live : Grouped s.live
  path : Grouped (s.path.map Entry.toMessage)

/-! ## The runs -/

/-- No message of a run is on its way, and no tool results are still to come. -/
def AgentSession.settled (s : AgentSession) : Bool :=
  s.waiting = none && match s.phase with
    | .running (some _) => false
    | _ => true

def Phase.runs : Phase → Bool
  | .running _ => true
  | _ => false

/-- No custom message is recorded at once while a message of a run is on its way or tool results are still to
come, no prompt comes into a run of another one, no compaction and no navigation ends during a run, and no run
fails with a message on its way. -/
def Orderly (s : AgentSession) : Event → Prop
  | .sendCustomMessage _ deliverAs triggerTurn =>
    deliverAs ≠ some .nextTurn → triggerTurn = some false → s.settled = true
  | .runFails _ _ => s.waiting = none
  | .overlap => False
  | .compacted _ _ _ => s.phase.runs = false
  | .navigate _ _ _ => s.phase.runs = false
  | _ => True

instance (s : AgentSession) (event : Event) : Decidable (Orderly s event) := by
  unfold Orderly
  split <;> infer_instance

/-! ## Messages next to each other -/

/-- A tool result is behind another one of the same message, or behind that message. -/
def Follows : Message → Message → Prop
  | m, .toolResult assistant _ =>
    (∃ id, m = .toolResult assistant id) ∨ ∃ stopReason, m = .assistant assistant stopReason
  | _, _ => True

/-- A message that is not a tool result -/
def Message.free : Message → Bool
  | .toolResult _ _ => false
  | _ => true

theorem follows_of_free {m m' : Message} (h : m'.free = true) : Follows m m' := by
  cases m' with
  | toolResult assistant id => cases h
  | assistant id stopReason => trivial
  | compactionSummary id => trivial
  | other role id => trivial

/-- A summary of what has been compacted may be in front. -/
def Ordered (messages : List Message) : Prop :=
  messages.IsChain Follows ∨ ∃ id rest, messages = .compactionSummary id :: rest ∧ rest.IsChain Follows

variable {messages : List Message}

/-- **Tool results are next to their message.** -/
theorem grouped_of_isChain (h : messages.IsChain Follows) : Grouped messages := by
  intro before
  induction before using List.reverseRecOn with
  | nil => exact fun _ _ _ _ _ hmem => nomatch hmem
  | append_singleton before m ih =>
    intro after assistant id stopReason hsplit hmem
    rw [List.append_assoc] at hsplit
    have hfollows : Follows m (.toolResult assistant id) := by
      rw [hsplit] at h
      exact h.right_of_append.rel
    rcases hfollows with ⟨id', rfl⟩ | ⟨stopReason', rfl⟩
    · have hmem' : Message.assistant assistant stopReason ∈ before := by
        rcases List.mem_append.mp hmem with hin | hlast
        · exact hin
        · cases List.mem_singleton.mp hlast
      obtain ⟨calls, results, rfl, hcalls, hresults⟩ := ih _ _ _ _ hsplit hmem'
      refine ⟨calls, results ++ [.toolResult assistant id'], List.append_assoc _ _ _, hcalls, fun m hm => ?_⟩
      rcases List.mem_append.mp hm with hin | hlast
      · exact hresults m hin
      · exact ⟨id', List.mem_singleton.mp hlast⟩
    · exact ⟨before ++ [.assistant assistant stopReason'], [], (List.append_nil _).symm,
        ⟨stopReason', List.getLast?_concat⟩, nofun⟩

theorem grouped_of_ordered (h : Ordered messages) : Grouped messages := by
  rcases h with hchain | ⟨id, rest, rfl, hchain⟩
  · exact grouped_of_isChain hchain
  · intro before after assistant id' stopReason hsplit hmem
    cases before with
    | nil => cases hmem
    | cons m before =>
      rw [List.cons_append, List.cons.injEq] at hsplit
      obtain ⟨rfl, hsplit⟩ := hsplit
      have hmem' : Message.assistant assistant stopReason ∈ before := by
        rcases List.mem_cons.mp hmem with hsame | hin
        · cases hsame
        · exact hin
      obtain ⟨calls, results, rfl, ⟨stopReason', hcalls⟩, hresults⟩ :=
        grouped_of_isChain hchain _ _ _ _ _ hsplit hmem'
      refine ⟨.compactionSummary id :: calls, results, rfl, ⟨stopReason', ?_⟩, hresults⟩
      rw [List.getLast?_cons, hcalls]
      rfl

theorem isChain_concat {m : Message} (h : messages.IsChain Follows)
    (hjoin : ∀ m' ∈ messages.getLast?, Follows m' m) : (messages ++ [m]).IsChain Follows := by
  refine h.append (List.isChain_singleton m) fun m' hlast m'' hhead => ?_
  cases hhead
  exact hjoin m' hlast

theorem Ordered.concat {m : Message} (h : Ordered messages)
    (hjoin : ∀ m' ∈ messages.getLast?, Follows m' m) : Ordered (messages ++ [m]) := by
  rcases h with hchain | ⟨id, rest, rfl, hchain⟩
  · exact .inl (isChain_concat hchain hjoin)
  · refine .inr ⟨id, rest ++ [m], rfl, isChain_concat hchain fun m' hlast => hjoin m' ?_⟩
    rw [Option.mem_def] at hlast ⊢
    rw [List.getLast?_cons, hlast]
    rfl

/-- Messages that are not tool results can come anywhere. -/
theorem isChain_append_free {messages added : List Message} (h : messages.IsChain Follows)
    (hfree : ∀ m ∈ added, m.free = true) : (messages ++ added).IsChain Follows := by
  induction added generalizing messages with
  | nil =>
    rw [List.append_nil]
    exact h
  | cons m added ih =>
    rw [← List.singleton_append, ← List.append_assoc]
    refine ih (isChain_concat h fun m' _ => ?_) fun m' hm => hfree m' (List.mem_cons_of_mem _ hm)
    exact follows_of_free (hfree m List.mem_cons_self)

theorem Ordered.append_free {messages added : List Message} (h : Ordered messages)
    (hfree : ∀ m ∈ added, m.free = true) : Ordered (messages ++ added) := by
  rcases h with hchain | ⟨id, rest, rfl, hchain⟩
  · exact .inl (isChain_append_free hchain hfree)
  · exact .inr ⟨id, rest ++ added, rfl, isChain_append_free hchain hfree⟩

theorem Ordered.dropLast (h : Ordered messages) : Ordered messages.dropLast := by
  rcases h with hchain | ⟨id, rest, rfl, hchain⟩
  · exact .inl hchain.dropLast
  · cases rest with
    | nil => exact .inl List.isChain_nil
    | cons m rest => exact .inr ⟨id, (m :: rest).dropLast, rfl, hchain.dropLast⟩

/-! ## The context of a path -/

theorem latestCompaction_eq {path before after : List Entry} {compaction : Nat × Nat}
    (h : latestCompaction path = some (before, compaction, after)) :
    path = before ++ .compaction compaction.1 compaction.2 :: after := by
  induction path generalizing before with
  | nil => cases h
  | cons entry path ih =>
    unfold latestCompaction at h
    split at h
    next hlatest =>
      cases h
      rw [ih hlatest]
      rfl
    · split at h
      · cases h
        rfl
      · cases h

theorem latestCompaction_message (path : List Entry) (m : Message) :
    latestCompaction (path ++ [.message m]) =
      (latestCompaction path).map fun latest => (latest.1, latest.2.1, latest.2.2 ++ [.message m]) := by
  induction path with
  | nil => rfl
  | cons entry path ih =>
    simp only [List.cons_append, latestCompaction, ih]
    cases latestCompaction path with
    | some latest => rfl
    | none =>
      cases entry with
      | message m' => rfl
      | compaction id firstKept => rfl

theorem buildSessionContext_message (path : List Entry) (m : Message) :
    buildSessionContext (path ++ [.message m]) = buildSessionContext path ++ [m] := by
  unfold buildSessionContext
  rw [latestCompaction_message]
  cases latestCompaction path with
  | none => exact List.map_append
  | some latest =>
    obtain ⟨before, ⟨id, firstKept⟩, after⟩ := latest
    show Message.compactionSummary id :: (before.drop firstKept ++ (after ++ [Entry.message m])).map Entry.toMessage = _
    rw [← List.append_assoc, List.map_append]
    rfl

theorem buildSessionContext_messages (path : List Entry) (added : List Message) :
    buildSessionContext (path ++ added.map .message) = buildSessionContext path ++ added := by
  induction added generalizing path with
  | nil => rw [List.map_nil, List.append_nil, List.append_nil]
  | cons m added ih =>
    rw [List.map_cons, ← List.singleton_append, ← List.append_assoc, ih, buildSessionContext_message, List.append_assoc]
    rfl

/-- **The context of a path** keeps the results behind their messages. -/
theorem ordered_buildSessionContext {path : List Entry}
    (h : (path.map Entry.toMessage).IsChain Follows) : Ordered (buildSessionContext path) := by
  unfold buildSessionContext
  split
  · exact .inl h
  next before id firstKept after hlatest =>
    refine .inr ⟨id, _, rfl, ?_⟩
    rw [latestCompaction_eq hlatest, List.map_append, List.map_cons] at h
    have hafter := h.right_of_append
    rw [List.map_append, List.map_drop]
    refine (h.left_of_append.drop firstKept).append hafter.tail fun m _ m' hhead => ?_
    have hfollows : Follows (.compactionSummary id) m' := hafter.rel_head? hhead
    refine follows_of_free ?_
    cases m' with
    | toolResult assistant id' =>
      rcases hfollows with ⟨_, hsame⟩ | ⟨_, hsame⟩ <;> cases hsame
    | assistant _ _ => rfl
    | compactionSummary _ => rfl
    | other _ _ => rfl

/-! ## Agreement -/

theorem Agree.refl (messages : List Message) : Agree messages messages :=
  ⟨rfl, List.Sublist.refl _⟩

theorem Agree.append {live context : List Message} (h : Agree live context) (added : List Message) :
    Agree (live ++ added) (context ++ added) := by
  constructor
  · rw [List.filter_append, List.filter_append, h.complete]
  · rw [List.filter_append, List.filter_append]
    exact h.delivered.append (List.Sublist.refl _)

variable {id : Nat}

/-- A response that is taken back is missing from the live list only. -/
theorem Agree.takeBack {live context : List Message} {stopReason : Mcpi.Agent.StopReason}
    (h : Agree (live ++ [.assistant id stopReason]) context)
    (hstop : stopReason = .error ∨ stopReason = .length) : Agree live context := by
  constructor
  · rw [← h.complete, List.filter_append]
    rcases hstop with rfl | rfl <;> exact (List.append_nil _).symm
  · exact ((List.sublist_append_left live _).filter _).trans h.delivered

/-! ## The invariant -/

/-- The messages of the path, with the one that is on its way -/
def AgentSession.persisted (s : AgentSession) : List Message :=
  s.path.map Entry.toMessage ++ s.waiting.toList

/-- A result of the assistant message can come next. -/
def Opens (assistant : Nat) (messages : List Message) : Prop :=
  ∀ m ∈ messages.getLast?, ∀ id, Follows m (.toolResult assistant id)

/-- **The invariant.** -/
structure Inv (s : AgentSession) : Prop where
  path : s.persisted.IsChain Follows
  earlier : ∀ path ∈ s.earlier, (path.map Entry.toMessage).IsChain Follows
  live : Ordered s.live
  agree : Agree s.live (buildSessionContext s.path ++ s.waiting.toList)
  active : s.phase = .idle ↔ s.isAgentRunActive = false
  waiting : s.phase.runs = false → s.waiting = none
  tools : ∀ assistant toolCalls, s.phase = .running (some (assistant, toolCalls)) →
    Opens assistant s.live ∧ Opens assistant s.persisted

section Steps

variable {s s' : AgentSession}

theorem settled_iff : s.settled = true ↔ s.waiting = none ∧ ∀ tools, s.phase ≠ .running (some tools) := by
  unfold AgentSession.settled
  rw [Bool.and_eq_true, decide_eq_true_eq]
  refine and_congr_right fun _ => ?_
  cases s.phase with
  | idle => exact ⟨fun _ => nofun, fun _ => rfl⟩
  | postRun => exact ⟨fun _ => nofun, fun _ => rfl⟩
  | running tools =>
    cases tools with
    | none => exact ⟨fun _ => nofun, fun _ => rfl⟩
    | some tools => exact ⟨nofun, fun h => absurd rfl (h tools)⟩

theorem settled_of_idle (h : Inv s) (hruns : s.phase.runs = false) : s.settled = true := by
  refine settled_iff.mpr ⟨h.waiting hruns, fun tools hphase => ?_⟩
  rw [hphase] at hruns
  cases hruns

/-- **Messages go into both lists at once.** -/
theorem inv_record {added : List Message} {active : Bool} {phase : Phase} (queued next : List (Role × Nat))
    (bash : List Nat) (h : Inv s) (hsettled : s.settled = true) (hfree : ∀ m ∈ added, m.free = true)
    (hactive : phase = .idle ↔ active = false) (hphase : ∀ tools, phase ≠ .running (some tools)) :
    Inv { s with
      live := s.live ++ added, path := s.path ++ added.map .message, isAgentRunActive := active, phase
      queued, pendingNextTurnMessages := next, pendingBashMessages := bash } := by
  obtain ⟨hwaiting, -⟩ := settled_iff.mp hsettled
  have hpath := h.path
  have hagree := h.agree
  unfold AgentSession.persisted at hpath
  rw [hwaiting] at hpath hagree
  refine ⟨?_, h.earlier, h.live.append_free hfree, ?_, hactive, fun _ => hwaiting,
    fun assistant toolCalls hrunning => absurd hrunning (hphase _)⟩
  · show ((s.path ++ added.map Entry.message).map Entry.toMessage ++ s.waiting.toList).IsChain Follows
    have hsame : (added.map Entry.message).map Entry.toMessage = added := by
      rw [List.map_map]
      exact List.map_id added
    rw [Option.toList_none, List.append_nil] at hpath
    rw [hwaiting, Option.toList_none, List.append_nil, List.map_append, hsame]
    exact isChain_append_free hpath hfree
  · show Agree _ (buildSessionContext (s.path ++ added.map .message) ++ s.waiting.toList)
    rw [Option.toList_none, List.append_nil] at hagree
    rw [hwaiting, Option.toList_none, List.append_nil, buildSessionContext_messages]
    exact hagree.append added

/-- **A message of the run comes into the live list.** -/
theorem inv_push (m : Message) (phase : Phase) (queued : List (Role × Nat)) (h : Inv s)
    (hwaiting : s.waiting = none) (hruns : s.phase.runs = true) (hruns' : phase.runs = true)
    (hlive : ∀ m' ∈ s.live.getLast?, Follows m' m) (hpath : ∀ m' ∈ s.persisted.getLast?, Follows m' m)
    (htools : ∀ assistant toolCalls, phase = .running (some (assistant, toolCalls)) →
      ∀ id, Follows m (.toolResult assistant id)) :
    Inv { s with live := s.live ++ [m], waiting := some m, queued, phase } := by
  have hchain := h.path
  have hagree := h.agree
  unfold AgentSession.persisted at hchain hpath
  rw [hwaiting, Option.toList_none, List.append_nil] at hchain hpath hagree
  refine ⟨isChain_concat hchain hpath, h.earlier, h.live.concat hlive, hagree.append [m], ?_,
    fun hnot => ?_, fun assistant toolCalls hrunning => ⟨?_, ?_⟩⟩
  · constructor
    · intro hidle
      have hidle : phase = .idle := hidle
      rw [hidle] at hruns'
      cases hruns'
    · intro hactive
      have hidle := h.active.mpr hactive
      rw [hidle] at hruns
      cases hruns
  · have hnot : phase.runs = false := hnot
    rw [hnot] at hruns'
    cases hruns'
  · intro m' hlast id
    have hlast : m' ∈ (s.live ++ [m]).getLast? := hlast
    rw [List.getLast?_concat] at hlast
    cases hlast
    exact htools assistant toolCalls hrunning id
  · intro m' hlast id
    have hlast : m' ∈ (s.path.map Entry.toMessage ++ [m]).getLast? := hlast
    rw [List.getLast?_concat] at hlast
    cases hlast
    exact htools assistant toolCalls hrunning id

/-- **A response is taken back.** -/
theorem inv_takeBack (h : Inv s) (hruns : s.phase.runs = false) : Inv s.takeBack := by
  have htools : ∀ assistant toolCalls, s.phase = .running (some (assistant, toolCalls)) →
      Opens assistant s.takeBack.live ∧ Opens assistant s.persisted := fun _ _ hrunning => by
    rw [hrunning] at hruns
    cases hruns
  refine ⟨h.path, h.earlier, ?_, ?_, h.active, h.waiting, htools⟩
  · unfold AgentSession.takeBack
    split
    · split
      · exact h.live.dropLast
      · exact h.live
    · exact h.live
  · have hagree := h.agree
    unfold AgentSession.takeBack
    split
    next id stopReason hlast =>
      split
      next hstop =>
        have hsplit := List.dropLast_append_getLast? _ (Option.mem_def.mpr hlast)
        rw [← hsplit] at hagree
        exact hagree.takeBack hstop
      · exact hagree
    · exact hagree

/-- **The live list is rebuilt.** -/
theorem inv_rebuild {path : List Entry} {earlier : List (List Entry)} (h : Inv s)
    (hruns : s.phase.runs = false) (hpath : (path.map Entry.toMessage).IsChain Follows)
    (hearlier : ∀ path ∈ earlier, (path.map Entry.toMessage).IsChain Follows) :
    Inv { s with path, live := buildSessionContext path, earlier } := by
  have hwaiting := h.waiting hruns
  refine ⟨?_, hearlier, ordered_buildSessionContext hpath, ?_, h.active, h.waiting, fun _ _ hrunning => ?_⟩
  · show (path.map Entry.toMessage ++ s.waiting.toList).IsChain Follows
    rw [hwaiting, Option.toList_none, List.append_nil]
    exact hpath
  · show Agree _ (buildSessionContext path ++ s.waiting.toList)
    rw [hwaiting, Option.toList_none, List.append_nil]
    exact Agree.refl _
  · have hrunning : s.phase = _ := hrunning
    rw [hrunning] at hruns
    cases hruns

theorem isChain_path (h : Inv s) : (s.path.map Entry.toMessage).IsChain Follows :=
  h.path.left_of_append

theorem inv_compacted {id firstKept : Nat} {willRetry : Bool} (h : Inv s)
    (hruns : s.phase.runs = false) : Inv (s.compacted id firstKept willRetry) := by
  have hchain : ((s.path ++ [Entry.compaction id firstKept]).map Entry.toMessage).IsChain Follows := by
    rw [List.map_append]
    refine isChain_append_free (isChain_path h) fun m hm => ?_
    rw [List.mem_singleton.mp hm]
    rfl
  have hrebuilt := inv_rebuild h hruns hchain h.earlier
  unfold AgentSession.compacted
  split
  · exact inv_takeBack hrebuilt hruns
  · exact hrebuilt

theorem inv_navigate {target : List Entry} {length : Nat} {summary : Option Nat} (h : Inv s)
    (hruns : s.phase.runs = false) (htarget : target ∈ s.path :: s.earlier) :
    Inv (s.navigate (target.take length) summary) := by
  have hchain : ∀ path ∈ s.path :: s.earlier, (path.map Entry.toMessage).IsChain Follows := by
    intro path hpath
    rcases List.mem_cons.mp hpath with rfl | hin
    · exact isChain_path h
    · exact h.earlier path hin
  refine inv_rebuild h hruns ?_ fun path hpath => ?_
  · rw [List.map_append, List.map_take]
    refine isChain_append_free ((hchain target htarget).take length) fun m hm => ?_
    obtain ⟨entry, hentry, rfl⟩ := List.mem_map.mp hm
    obtain ⟨id, -, rfl⟩ := List.mem_map.mp hentry
    rfl
  · rcases List.mem_append.mp hpath with hin | hlast
    · exact h.earlier path hin
    · rw [List.mem_singleton.mp hlast]
      exact isChain_path h

theorem inv_flush {active : Bool} {phase : Phase} (queued next : List (Role × Nat)) (h : Inv s)
    (hsettled : s.settled = true) (hactive : phase = .idle ↔ active = false)
    (hphase : ∀ tools, phase ≠ .running (some tools)) :
    Inv { s.flushPendingBashMessages with
      isAgentRunActive := active, phase, queued, pendingNextTurnMessages := next } := by
  have hfree : ∀ m ∈ s.pendingBashMessages.map (Message.other .bashExecution), m.free = true := by
    intro m hm
    obtain ⟨id, -, rfl⟩ := List.mem_map.mp hm
    rfl
  have hrecorded := inv_record queued next [] h hsettled hfree hactive hphase
  rw [List.map_map] at hrecorded
  exact hrecorded

theorem inv_queues {queued next : List (Role × Nat)} {bash : List Nat} (h : Inv s) :
    Inv { s with queued, pendingNextTurnMessages := next, pendingBashMessages := bash } :=
  ⟨h.path, h.earlier, h.live, h.agree, h.active, h.waiting, h.tools⟩

theorem runs_of_idle (hphase : s.phase = .idle) : s.phase.runs = false := by
  rw [hphase]
  rfl

theorem inv_prompt (h : Inv s) (hstep : s.prompt id = some s') : Inv s' := by
  unfold AgentSession.prompt at hstep
  split at hstep
  · cases hstep
    exact inv_queues h
  · split at hstep
    next hphase =>
      cases hstep
      exact inv_flush _ [] h (settled_of_idle h (runs_of_idle hphase)) ⟨nofun, nofun⟩ nofun
    · cases hstep

theorem inv_sendCustomMessage {deliverAs : Option DeliverAs} {triggerTurn : Option Bool}
    (h : Inv s) (horderly : Orderly s (.sendCustomMessage id deliverAs triggerTurn))
    (hstep : s.sendCustomMessage id deliverAs triggerTurn = some s') : Inv s' := by
  unfold AgentSession.sendCustomMessage at hstep
  split at hstep
  · cases hstep
    exact inv_queues h
  next hdeliver =>
    split at hstep
    · cases hstep
      exact inv_queues h
    next hstreams =>
      split at hstep
      · split at hstep
        next hphase =>
          -- a run of its own
          cases hstep
          have hsettled := settled_of_idle h (runs_of_idle hphase)
          have hstart := inv_record (s.queued ++ [(.custom, id)]) s.pendingNextTurnMessages
            s.pendingBashMessages (show Inv s from h) hsettled
            (show ∀ m ∈ ([] : List Message), m.free = true from nofun)
            (show Phase.running none = .idle ↔ true = false from ⟨nofun, nofun⟩) nofun
          rw [List.map_nil, List.append_nil, List.append_nil] at hstart
          exact hstart
        · cases hstep
      next htrigger =>
        cases hstep
        have hsettled : s.settled = true := by
          by_cases hactive : s.isAgentRunActive = true
          · refine horderly hdeliver ?_
            by_contra hne
            exact hstreams ⟨hactive, hne⟩
          · exact settled_of_idle h (runs_of_idle (h.active.mpr (eq_false_of_ne_true hactive)))
        refine inv_record _ _ _ h hsettled (fun m hm => ?_) h.active (settled_iff.mp hsettled).2
        rw [List.mem_singleton.mp hm]
        rfl

theorem inv_persist (h : Inv s) (hstep : step s .persist = some s') : Inv s' := by
  unfold step at hstep
  dsimp only at hstep
  split at hstep
  next m hwaiting =>
    cases hstep
    have hpath := h.path
    have hagree := h.agree
    have htools := h.tools
    have hpersisted : AgentSession.persisted
        { s with path := s.path ++ [.message m], waiting := none } = s.persisted := by
      unfold AgentSession.persisted
      rw [hwaiting, List.map_append]
      exact List.append_nil _
    refine ⟨?_, h.earlier, h.live, ?_, h.active, fun _ => rfl, fun assistant toolCalls hrunning => ?_⟩
    · rw [hpersisted]
      exact hpath
    · show Agree s.live (buildSessionContext (s.path ++ [.message m]) ++ [])
      rw [List.append_nil, buildSessionContext_message]
      rw [hwaiting] at hagree
      exact hagree
    · rw [hpersisted]
      exact htools assistant toolCalls hrunning
  · cases hstep

theorem inv_inject {i : Nat} (h : Inv s) (hstep : step s (.inject i) = some s') : Inv s' := by
  unfold step at hstep
  dsimp only at hstep
  split at hstep
  next role id hphase hwaiting _ =>
    cases hstep
    have hfree : (Message.other role id).free = true := rfl
    refine @inv_push s (.other role id) s.phase (s.queued.eraseIdx i) h hwaiting (by rw [hphase]; rfl)
      (by rw [hphase]; rfl) (fun _ _ => follows_of_free hfree) (fun _ _ => follows_of_free hfree) ?_
    rw [hphase]
    exact nofun
  · cases hstep

theorem inv_respond {id toolCalls : Nat} {stopReason : Mcpi.Agent.StopReason} (h : Inv s)
    (hstep : step s (.respond id stopReason toolCalls) = some s') : Inv s' := by
  unfold step at hstep
  dsimp only at hstep
  split at hstep
  next hphase hwaiting =>
    cases hstep
    have hfree : (Message.assistant id stopReason).free = true := rfl
    refine inv_push (.assistant id stopReason) _ s.queued h hwaiting (by rw [hphase]; rfl) rfl
      (fun _ _ => follows_of_free hfree) (fun _ _ => follows_of_free hfree)
      (fun assistant toolCalls' hrunning id' => .inr ⟨stopReason, ?_⟩)
    have hsome := Phase.running.inj hrunning
    obtain ⟨-, ⟨⟩⟩ := Option.ite_none_left_eq_some.mp hsome
    rfl
  · cases hstep

theorem inv_toolResult (h : Inv s) (hstep : step s (.toolResult id) = some s') : Inv s' := by
  unfold step at hstep
  dsimp only at hstep
  split at hstep
  next assistant toolCalls hphase hwaiting =>
    cases hstep
    obtain ⟨hlive, hpath⟩ := h.tools assistant toolCalls hphase
    refine inv_push (.toolResult assistant id) _ s.queued h hwaiting (by rw [hphase]; rfl) rfl
      (fun m hm => hlive m hm id) (fun m hm => hpath m hm id)
      (fun assistant' toolCalls' hrunning id' => .inl ⟨id, ?_⟩)
    have hsome := Phase.running.inj hrunning
    obtain ⟨-, ⟨⟩⟩ := Option.ite_none_left_eq_some.mp hsome
    rfl
  · cases hstep

theorem inv_runFails {aborted : Bool} (h : Inv s) (horderly : Orderly s (.runFails id aborted))
    (hstep : step s (.runFails id aborted) = some s') : Inv s' := by
  unfold step at hstep
  dsimp only at hstep
  split at hstep
  next tools hphase =>
    cases hstep
    have hfree : ∀ stopReason, (Message.assistant id stopReason).free = true := fun _ => rfl
    exact inv_push _ (.running none) s.queued h horderly (by rw [hphase]; rfl) rfl
      (fun _ _ => follows_of_free (hfree _)) (fun _ _ => follows_of_free (hfree _)) nofun
  · cases hstep

/-- The session goes on from one phase to another, with nothing on its way. -/
theorem inv_phase {phase : Phase} (h : Inv s) (hwaiting : s.waiting = none)
    (hactive : phase = .idle ↔ s.isAgentRunActive = false)
    (hphase : ∀ tools, phase ≠ .running (some tools)) : Inv { s with phase } :=
  ⟨h.path, h.earlier, h.live, h.agree, hactive, fun _ => hwaiting, fun _ _ hrunning => absurd hrunning (hphase _)⟩

theorem inv_endRun (h : Inv s) (hstep : step s .endRun = some s') : Inv s' := by
  unfold step at hstep
  dsimp only at hstep
  split at hstep
  next hphase hwaiting =>
    cases hstep
    refine inv_phase h hwaiting ⟨nofun, fun hactive => ?_⟩ nofun
    have hidle := h.active.mpr hactive
    rw [hphase] at hidle
    cases hidle
  · cases hstep

theorem inv_resume (h : Inv s) (hstep : step s .resume = some s') : Inv s' := by
  unfold step at hstep
  dsimp only at hstep
  split at hstep
  next hphase =>
    cases hstep
    refine inv_phase h (h.waiting (by rw [hphase]; rfl)) ⟨nofun, fun hactive => ?_⟩ nofun
    have hidle := h.active.mpr hactive
    rw [hphase] at hidle
    cases hidle
  · cases hstep

theorem inv_leave (h : Inv s) (hstep : step s .leave = some s') : Inv s' := by
  unfold step at hstep
  dsimp only at hstep
  split at hstep
  next hphase =>
    cases hstep
    exact inv_flush s.queued s.pendingNextTurnMessages h (settled_of_idle h (by rw [hphase]; rfl))
      ⟨fun _ => rfl, fun _ => rfl⟩ nofun
  · cases hstep

theorem inv_recordBashResult (h : Inv s) (hstep : step s (.recordBashResult id) = some s') : Inv s' := by
  unfold step at hstep
  dsimp only at hstep
  split at hstep
  · cases hstep
    exact inv_queues h
  next hactive =>
    cases hstep
    have hidle := h.active.mpr (eq_false_of_ne_true hactive)
    have hsettled := settled_of_idle h (runs_of_idle hidle)
    refine inv_record s.queued s.pendingNextTurnMessages s.pendingBashMessages h hsettled
      (fun m hm => ?_) h.active (settled_iff.mp hsettled).2
    rw [List.mem_singleton.mp hm]
    rfl

/-- **One step.** -/
theorem inv_step {event : Event} (h : Inv s) (horderly : Orderly s event)
    (hstep : step s event = some s') : Inv s' := by
  cases event with
  | prompt id => exact inv_prompt h hstep
  | sendCustomMessage id deliverAs triggerTurn => exact inv_sendCustomMessage h horderly hstep
  | recordBashResult id => exact inv_recordBashResult h hstep
  | inject i => exact inv_inject h hstep
  | respond id stopReason toolCalls => exact inv_respond h hstep
  | toolResult id => exact inv_toolResult h hstep
  | persist => exact inv_persist h hstep
  | endRun => exact inv_endRun h hstep
  | runFails id aborted => exact inv_runFails h horderly hstep
  | takeBack =>
    unfold step at hstep
    dsimp only at hstep
    split at hstep
    · cases hstep
    next hnot =>
      cases hstep
      refine inv_takeBack h ?_
      cases hphase : s.phase with
      | idle => rfl
      | postRun => rfl
      | running tools => exact absurd hphase (hnot tools)
  | resume => exact inv_resume h hstep
  | leave => exact inv_leave h hstep
  | overlap => exact horderly.elim
  | compacted id firstKept willRetry =>
    cases hstep
    exact inv_compacted h horderly
  | navigate i length summary =>
    unfold step at hstep
    dsimp only at hstep
    split at hstep
    next target htarget =>
      cases hstep
      exact inv_navigate h horderly (List.mem_of_getElem? htarget)
    · cases hstep

end Steps

/-! ## Runs -/

theorem inv_create : Inv .create := by
  refine ⟨List.isChain_nil, nofun, .inl List.isChain_nil, Agree.refl [], ?_, fun _ => rfl, nofun⟩
  exact ⟨fun _ => rfl, fun _ => rfl⟩

theorem faithful_of_inv {s : AgentSession} (h : Inv s) : s.Faithful Agree := by
  refine ⟨fun hidle => ?_, grouped_of_ordered h.live, grouped_of_isChain (isChain_path h)⟩
  have hagree := h.agree
  rw [h.waiting (runs_of_idle hidle), Option.toList_none, List.append_nil] at hagree
  exact hagree

/-- **The live context is the persisted one** along the orderly runs, but for truncated responses that have
been taken back. -/
theorem live_context_persisted (events : List Event) (h : Transition.Clean step Orderly .create events) :
    Transition.Always step (AgentSession.Faithful · Agree) .create events :=
  Transition.always_of_clean (fun _ => faithful_of_inv)
    (fun _ _ _ hinv horderly hstep => inv_step hinv horderly hstep) inv_create h

/-- A tool call with a bash command meanwhile, an error that is retried, and a compaction. -/
theorem live_context_persisted_retry :
    Transition.Always step (AgentSession.Faithful · Agree) .create
      [.prompt 0, .inject 0, .persist, .respond 1 .toolUse 1, .recordBashResult 2, .persist, .toolResult 3,
        .persist, .sendCustomMessage 4 none (some false), .respond 5 .error 0, .persist, .endRun, .takeBack,
        .resume, .respond 6 .stop 0, .persist, .endRun, .compacted 7 2 false, .leave] :=
  live_context_persisted _ (by decide)

/-- A truncated response is taken back for a compaction that comes to nothing. -/
theorem truncated_response_missing : ∃ events,
    ¬ Transition.Always step (AgentSession.Faithful · Same) .create events := by
  refine ⟨[.prompt 0, .inject 0, .persist, .respond 1 .length 0, .persist, .endRun, .takeBack, .leave], fun h => ?_⟩
  have hsame := (h _ (List.prefix_refl _) _ rfl).same rfl
  revert hsame
  unfold Same
  decide

end Mcpi.CodingAgent.LiveContext
