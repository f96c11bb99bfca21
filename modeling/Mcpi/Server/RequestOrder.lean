import Mcpi.Server.Handshake

/-!
# Requests start in the order they arrive

A connection becomes ready while its handshake still awaits something when the revision of the
snapshots has changed in between. A request that arrives then starts before those that wait for
the handshake. As long as none does, the order is kept.
-/

namespace Mcpi.Server

namespace ConnectionState

variable {ρ : Type}

variable {state state' : ConnectionState ρ}

/-! ## The invariant -/

/-- The connection is open, on both sides. -/
def IsOpen (state : ConnectionState ρ) : Prop :=
  state.isTerminalConnection = false ∧ state.transportClosed = false ∧ state.serverClosing = false

/-- Requests have started in the order of their arrival, each once. While the connection is open
those that have not started yet wait for the handshake, and its callbacks start them all. -/
structure InOrder (state : ConnectionState ρ) : Prop where
  starts : state.begun <+: state.arrived
  waits : state.IsOpen → state.begun ++ state.waiting = state.arrived
  callbacks : state.IsOpen → state.handshake = .returned →
    state.runCallbacks.begun = state.arrived ∧ state.runCallbacks.waiting = []

/-- A request arrives on a ready connection only when no other waits for the handshake. -/
def KeepsOrder (state : ConnectionState ρ) (event : Event ρ) : Prop :=
  ∀ envelope, event = .message (.request envelope) → state.isTerminalConnection = false →
    state.stage = .ready → state.waiting = []

/-- What the steps keep. -/
structure Inv (state : ConnectionState ρ) : Prop where
  numbered : ∀ arrival ∈ state.arrived, arrival.1 < state.arrived.length
  starts : state.begun <+: state.arrived
  disconnected : state.disconnected = true → state.stage = .closed
  awaitingHello : state.stage = .awaitingHello → state.begun = [] ∧ state.waiting = [] ∧ state.arrived = []
  handshaking : state.stage = .handshaking → state.begun = [] ∧
    (state.waiting = state.arrived ∧ (state.handshake = .snapshot ∨ ∃ revision, state.handshake = .hello revision) ∨
      state.handshake = .returned ∧ (state.transportClosed = true ∨ state.serverClosing = true))
  ready : state.stage = .ready → state.begun ++ state.waiting = state.arrived

theorem Inv.start : Inv ({} : ConnectionState ρ) :=
  ⟨by simp, List.prefix_refl _, nofun, fun _ => ⟨rfl, rfl, rfl⟩, nofun, nofun⟩

theorem Inv.inOrder (h : state.Inv) : state.InOrder := by
  have hwaits : state.IsOpen → state.begun ++ state.waiting = state.arrived := by
    rintro ⟨hterminal, htransport, hserver⟩
    cases hstage : state.stage with
    | awaitingHello =>
      obtain ⟨hbegun, hwaiting, harrived⟩ := h.awaitingHello hstage
      rw [hbegun, hwaiting, harrived]
      rfl
    | handshaking =>
      obtain ⟨hbegun, ⟨hwaiting, -⟩ | ⟨-, hclosed⟩⟩ := h.handshaking hstage
      · rw [hbegun, hwaiting]
        rfl
      · simp [htransport, hserver] at hclosed
    | ready => exact h.ready hstage
    | closing => simp [isTerminalConnection, hstage] at hterminal
    | closed => simp [isTerminalConnection, hstage] at hterminal
  refine ⟨h.starts, hwaits, fun hopen hreturned => ?_⟩
  have hall := hwaits hopen
  obtain ⟨hterminal, htransport, hserver⟩ := hopen
  have hconnected : state.disconnected = false := by
    simp only [isTerminalConnection, Bool.or_eq_false_iff] at hterminal
    exact hterminal.1.1
  cases hstage : state.stage with
  | awaitingHello =>
    obtain ⟨hbegun, hwaiting, harrived⟩ := h.awaitingHello hstage
    simp [runCallbacks, hstage, hbegun, harrived]
  | handshaking =>
    obtain ⟨-, ⟨-, hgoing⟩ | ⟨-, hclosed⟩⟩ := h.handshaking hstage
    · simp [hreturned] at hgoing
    · simp [htransport, hserver] at hclosed
  | ready => simp [runCallbacks, hstage, hconnected, hall]
  | closing => simp [isTerminalConnection, hstage] at hterminal
  | closed => simp [isTerminalConnection, hstage] at hterminal

/-! ## Steps -/

/-- A connection that is closed starts no more requests. -/
theorem Inv.close (h : state.Inv) (hstage : state'.stage = .closing ∨ state'.stage = .closed)
    (hdisconnected : state'.disconnected = true → state'.stage = .closed)
    (hbegun : state'.begun = state.begun) (harrived : state.arrived <+: state'.arrived)
    (hnumbered : ∀ arrival ∈ state'.arrived, arrival.1 < state'.arrived.length) : state'.Inv := by
  refine ⟨hnumbered, hbegun ▸ h.starts.trans harrived, hdisconnected, ?_, ?_, ?_⟩ <;>
    · intro hother
      rw [hother] at hstage
      simp at hstage

theorem failProtocol_eq (state : ConnectionState ρ) (h : state.isTerminalConnection = false) :
    state.failProtocol = { state with stage := .closing } := if_neg (by simp [h])

theorem Inv.failProtocol (h : state.Inv) : state.failProtocol.Inv := by
  unfold ConnectionState.failProtocol
  split
  · exact h
  · next hterminal =>
    refine h.close (.inl rfl) ?_ rfl (List.prefix_refl _) h.numbered
    intro hdisconnected
    simp [isTerminalConnection] at hterminal
    simp [hterminal.1.1] at hdisconnected

theorem Inv.disconnect (h : state.Inv) : state.disconnect.Inv := by
  unfold ConnectionState.disconnect
  split
  · exact h
  · exact h.close (.inr rfl) (fun _ => rfl) rfl (List.prefix_refl _) h.numbered

theorem numbered_concat {arrived : List (Arrival ρ)} (envelope : ρ)
    (h : ∀ arrival ∈ arrived, arrival.1 < arrived.length) :
    ∀ arrival ∈ arrived ++ [(arrived.length, envelope)],
      arrival.1 < (arrived ++ [(arrived.length, envelope)]).length := by
  intro arrival harrival
  rw [List.length_append, List.length_singleton]
  rcases List.mem_append.mp harrival with harrival | harrival
  · exact Nat.lt_succ_of_lt (h arrival harrival)
  · rw [List.mem_singleton.mp harrival]
    exact Nat.lt_succ_self _

theorem Inv.receive (h : state.Inv) {message : ClientMessage ρ}
    (hclean : state.KeepsOrder (.message message)) : (state.receive message).Inv := by
  unfold ConnectionState.receive
  split
  · exact h
  · next hopen =>
    have hopen : state.isTerminalConnection = false := by simpa using hopen
    cases message with
    | hello version =>
      unfold dispatchMessage
      dsimp only
      split
      · next hstage =>
        obtain ⟨hbegun, hwaiting, harrived⟩ := h.awaitingHello hstage
        have hconnected : state.disconnected = false := by
          simp only [isTerminalConnection, Bool.or_eq_false_iff] at hopen
          exact hopen.1.1
        unfold startHandshake
        split
        · exact ⟨h.numbered, h.starts, by simp [hconnected], nofun,
            fun _ => ⟨hbegun, .inl ⟨hwaiting.trans harrived.symm, .inl rfl⟩⟩, nofun⟩
        · have hfail := failProtocol_eq { state with stage := .handshaking, handshake := .failure }
            (by simp [isTerminalConnection, hconnected])
          rw [hfail]
          exact h.close (.inl rfl) (by simp [hconnected]) rfl (List.prefix_refl _) h.numbered
      · exact h.failProtocol
    | request envelope =>
      have hnumbered := numbered_concat envelope h.numbered
      have hprefix := List.prefix_append state.arrived [(state.arrived.length, envelope)]
      unfold dispatchMessage
      dsimp only
      split
      · next hstage =>
        rw [failProtocol_eq _ (by simpa [isTerminalConnection] using hopen)]
        exact h.close (.inl rfl) (fun hd => by simp [h.disconnected hd] at hstage) rfl hprefix hnumbered
      · next hstage =>
        have hwaiting := hclean envelope rfl hopen hstage
        have hall := h.ready hstage
        rw [hwaiting, List.append_nil] at hall
        refine ⟨hnumbered, ?_, h.disconnected, ?_, ?_, fun _ => ?_⟩
        · rw [hall]
        · simp [hstage]
        · simp [hstage]
        · rw [hwaiting, hall, List.append_nil]
      · next hstage =>
        obtain ⟨hbegun, hgoing⟩ := h.handshaking hstage
        refine ⟨hnumbered, h.starts.trans hprefix, h.disconnected, ?_, fun _ => ⟨hbegun, ?_⟩, ?_⟩
        · simp [hstage]
        · rcases hgoing with ⟨hwaiting, hgoing⟩ | hreturned
          · exact .inl ⟨by rw [hwaiting], hgoing⟩
          · exact .inr hreturned
        · simp [hstage]
      next hstage => simp [isTerminalConnection, hstage] at hopen
      next hstage => simp [isTerminalConnection, hstage] at hopen

/-- Only what the handshake awaits and who is closing changes. -/
theorem Inv.move (h : state.Inv)
    (hstage : state'.stage = state.stage) (hdisconnected : state'.disconnected = state.disconnected)
    (hwaiting : state'.waiting = state.waiting) (harrived : state'.arrived = state.arrived)
    (hbegun : state'.begun = state.begun)
    (hhandshaking : state.stage = .handshaking → (state.waiting = state.arrived ∧
        (state.handshake = .snapshot ∨ ∃ revision, state.handshake = .hello revision) ∨
        state.handshake = .returned ∧ (state.transportClosed = true ∨ state.serverClosing = true)) →
      (state.waiting = state.arrived ∧ (state'.handshake = .snapshot ∨ ∃ revision, state'.handshake = .hello revision) ∨
        state'.handshake = .returned ∧
          (state'.transportClosed = true ∨ state'.serverClosing = true))) : state'.Inv := by
  refine ⟨?_, ?_, ?_, ?_, ?_, ?_⟩
  · rw [harrived]
    exact h.numbered
  · rw [hbegun, harrived]
    exact h.starts
  · rw [hdisconnected, hstage]
    exact h.disconnected
  · rw [hstage, hbegun, hwaiting, harrived]
    exact h.awaitingHello
  · rw [hstage, hbegun, hwaiting, harrived]
    exact fun hs => ⟨(h.handshaking hs).1, hhandshaking hs (h.handshaking hs).2⟩
  · rw [hstage, hbegun, hwaiting, harrived]
    exact h.ready

theorem Inv.connected (h : state.Inv) (hstage : state.stage ≠ .closed) : state.disconnected = false := by
  cases hd : state.disconnected with
  | false => rfl
  | true => exact absurd (h.disconnected hd) hstage

theorem Inv.sendHello (h : state.Inv) (revision : Nat) : (state.sendHello revision).Inv := by
  unfold ConnectionState.sendHello
  split
  · next hreturn =>
    refine h.move rfl rfl rfl rfl rfl fun hstage _ => .inr ⟨rfl, ?_⟩
    have hconnected := h.connected (by simp [hstage])
    simp only [hconnected, hstage, ne_eq, not_true_eq_false, decide_false, Bool.or_false, Bool.or_eq_true] at hreturn
    exact hreturn.symm
  · next hgo =>
    refine h.move rfl rfl rfl rfl rfl fun hstage hgoing => .inl ⟨?_, .inr ⟨revision, rfl⟩⟩
    rcases hgoing with ⟨hwaiting, -⟩ | ⟨-, hclosed⟩
    · exact hwaiting
    · rcases hclosed with hclosed | hclosed <;> simp [hclosed] at hgo

/-- The stage becomes ready while all requests that have arrived wait. -/
theorem Inv.becomeReady (h : state.Inv) {sent : Bool}
    {revision currentRevision : Nat} (hhello : state.handshake = .hello revision)
    (hsent : sent = true ∨ state.disconnected = true ∨ state.transportClosed = true) :
    (state.becomeReady sent revision currentRevision).Inv := by
  unfold ConnectionState.becomeReady
  split
  · next hready =>
    simp only [Bool.and_eq_true, Bool.not_eq_true', decide_eq_true_eq] at hready
    obtain ⟨⟨-, hconnected⟩, hstage⟩ := hready
    obtain ⟨hbegun, ⟨hwaiting, -⟩ | ⟨hreturned, -⟩⟩ := h.handshaking hstage
    · have hall : state.begun ++ state.waiting = state.arrived := by rw [hbegun, hwaiting]; rfl
      split
      · exact ⟨h.numbered, h.starts, by simp [hconnected], nofun, nofun, fun _ => hall⟩
      · exact ⟨h.numbered, h.starts, by simp [hconnected], nofun, nofun, fun _ => hall⟩
    · rw [hhello] at hreturned
      cases hreturned
  · next hreturn =>
    refine h.move rfl rfl rfl rfl rfl fun hstage _ => .inr ⟨rfl, .inl ?_⟩
    have hconnected := h.connected (by simp [hstage])
    rcases hsent with hsent | hdisconnected | hclosed
    · simp [hsent, hconnected, hstage] at hreturn
    · rw [hconnected] at hdisconnected
      cases hdisconnected
    · exact hclosed

theorem Inv.runCallbacks (h : state.Inv) (hreturned : state.handshake = .returned) : state.runCallbacks.Inv := by
  unfold ConnectionState.runCallbacks
  split
  · next hready =>
    simp only [Bool.and_eq_true, Bool.not_eq_true', decide_eq_true_eq] at hready
    have hall := h.ready hready.1
    refine ⟨h.numbered, by rw [hall], h.disconnected, ?_, ?_, fun _ => ?_⟩
    · simp [hready.1]
    · simp [hready.1]
    · rw [List.append_nil, hall]
  · next hdrop =>
    refine ⟨h.numbered, h.starts, h.disconnected, fun hstage => ?_, fun hstage => ?_, ?_⟩
    · obtain ⟨hbegun, -, harrived⟩ := h.awaitingHello hstage
      exact ⟨hbegun, rfl, harrived⟩
    · obtain ⟨hbegun, ⟨-, hgoing⟩ | hclosed⟩ := h.handshaking hstage
      · simp [hreturned] at hgoing
      · exact ⟨hbegun, .inr hclosed⟩
    · intro hstage
      have hstage : state.stage = .ready := hstage
      simp [hstage, h.connected (by simp [hstage])] at hdrop

/-- **Every event keeps the invariant**, if it does not start a request too early. -/
theorem Inv.step {event : Event ρ} (h : state.Inv)
    (hclean : state.KeepsOrder event) (hstep : state.step event = some state') : state'.Inv := by
  cases event with
  | message message =>
    cases hstep
    exact h.receive hclean
  | protocolFailure =>
    cases hstep
    exact h.failProtocol
  | snapshot revision =>
    cases revision with
    | some revision =>
      dsimp only [ConnectionState.step] at hstep
      split at hstep
      · cases hstep
        exact h.sendHello revision
      · next hcurrent =>
        cases hstep
        refine h.move rfl rfl rfl rfl rfl fun _ hgoing => ?_
        simp [hcurrent] at hgoing
      · cases hstep
    | none =>
      obtain ⟨-, ⟨⟩⟩ := Option.ite_none_right_eq_some.mp hstep
      -- the connection has failed now, or was over before
      refine h.failProtocol.move rfl rfl rfl rfl rfl fun hstage _ => ?_
      unfold ConnectionState.failProtocol at hstage
      split at hstage
      next hterminal => simp [isTerminalConnection, hstage, h.connected] at hterminal
      · cases hstage
  | sent sent currentRevision =>
    dsimp only [ConnectionState.step] at hstep
    split at hstep
    · next hsent =>
      split at hstep
      · next revision hhello =>
        cases hstep
        -- the hello has been sent
        exact h.becomeReady hhello (by simpa [or_assoc] using hsent)
      · next hevent =>
        cases hstep
        refine h.move rfl rfl rfl rfl rfl fun _ hgoing => ?_
        simp [hevent] at hgoing
      · cases hstep
    · cases hstep
  | failed =>
    dsimp only [ConnectionState.step] at hstep
    split at hstep
    · next hfailure =>
      cases hstep
      refine h.move rfl rfl rfl rfl rfl fun _ hgoing => ?_
      simp [hfailure] at hgoing
    · cases hstep
  | callbacks =>
    dsimp only [ConnectionState.step] at hstep
    split at hstep
    · next hreturned =>
      cases hstep
      exact h.runCallbacks hreturned
    · cases hstep
  | disconnect =>
    cases hstep
    exact h.disconnect
  | transportClosed =>
    cases hstep
    refine h.move rfl rfl rfl rfl rfl fun _ hgoing => ?_
    exact hgoing.imp id fun hreturned => ⟨hreturned.1, .inl rfl⟩
  | serverClosing =>
    cases hstep
    refine h.move rfl rfl rfl rfl rfl fun _ hgoing => ?_
    exact hgoing.imp id fun hreturned => ⟨hreturned.1, .inr rfl⟩
  | closeServerState =>
    obtain ⟨-, ⟨⟩⟩ := Option.ite_none_right_eq_some.mp hstep
    split
    · exact h
    · next hconnected =>
      exact h.close (.inl rfl) (fun hd => absurd hd hconnected) rfl (List.prefix_refl _)
        h.numbered

theorem Inv.not_inOrder {event : Event ρ} (h : state.Inv)
    (hearly : ¬ state.KeepsOrder event) (hstep : state.step event = some state') :
    ¬ state'.InOrder := by
  simp only [KeepsOrder, not_forall] at hearly
  obtain ⟨envelope, rfl, hopen, hstage, hwaiting⟩ := hearly
  cases hstep
  intro horder
  have hall := h.ready hstage
  obtain ⟨first, rest, hfirst⟩ := List.exists_cons_of_ne_nil hwaiting
  have hstarts := horder.starts
  simp only [ConnectionState.receive, hopen, dispatchMessage, hstage, Bool.false_eq_true, if_false] at hstarts
  rw [← hall, hfirst, List.append_assoc, List.prefix_append_right_inj, List.cons_append,
    List.cons_prefix_cons] at hstarts
  have hnumber := h.numbered first (by rw [← hall, hfirst]; simp)
  rw [← hstarts.1, ← hall, hfirst] at hnumber
  exact Nat.lt_irrefl _ hnumber

/-- **Requests start in order** in every state along a run exactly if none arrives on a ready
connection while others wait for the handshake. -/
theorem requests_start_in_order (events : List (Event ρ)) (state : ConnectionState ρ)
    (hrun : Transition.run step {} events = some state) :
    Transition.Always step InOrder {} events ↔ Transition.Clean step KeepsOrder {} events :=
  Transition.always_iff_clean (fun _ => Inv.inOrder) (fun _ _ _ => Inv.step)
    (fun _ _ _ => Inv.not_inOrder) Inv.start hrun

/-- A handshake during which the revision of the snapshots does not change. -/
theorem requests_start_in_order_pipelined :
    Transition.Always step InOrder ({} : ConnectionState Nat)
      [.message (.hello 1), .message (.request 10), .snapshot (some 0), .sent true 0, .callbacks,
        .message (.request 20)] := by
  refine (requests_start_in_order _ _ rfl).mpr ?_
  refine ⟨nofun, fun s hs => ?_⟩
  cases hs
  refine ⟨fun _ _ _ hready => (nomatch hready), fun s hs => ?_⟩
  cases hs
  refine ⟨nofun, fun s hs => ?_⟩
  cases hs
  refine ⟨nofun, fun s hs => ?_⟩
  cases hs
  refine ⟨nofun, fun s hs => ?_⟩
  cases hs
  exact ⟨fun _ _ _ _ => rfl, fun _ _ => trivial⟩

/-- **The order is not kept** when the revision changes before the hello is sent, and a request
arrives while the handshake awaits the next snapshot. -/
theorem requests_out_of_order :
    let events : List (Event Nat) :=
      [.message (.hello 1), .message (.request 10), .snapshot (some 0), .sent true 1,
        .message (.request 20), .snapshot (some 1), .sent true 1, .callbacks]
    ¬ Transition.Always step InOrder {} events ∧ ∃ state, Transition.run step {} events = some state ∧ state.IsOpen ∧
        state.arrived = [(0, 10), (1, 20)] ∧ state.begun = [(1, 20), (0, 10)] := by
  intro events
  refine ⟨fun h => ?_, _, rfl, ⟨rfl, rfl, rfl⟩, rfl, rfl⟩
  have hstarts := (h events (List.prefix_refl _) _ rfl).starts
  have hnot : ¬ [((1 : Nat), (20 : Nat)), (0, 10)] <+: [(0, 10), (1, 20)] := by decide
  exact hnot hstarts

end ConnectionState

end Mcpi.Server
