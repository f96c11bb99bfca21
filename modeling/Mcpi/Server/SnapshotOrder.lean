import Mcpi.Server.Snapshots

/-!
# Snapshots are delivered in order, and none is missing

A broadcast that is skipped while a connection is handshaking leaves the revision as it is, so the
handshake does not notice that the snapshot of its hello is outdated; and a snapshot that a
handshake computes when the connection is ready can be sent after that of a later broadcast. In
runs without either, every connection gets newer and newer snapshots, the last one newer than all
requests.
-/

namespace Mcpi.Server

variable {ρ : Type}

/-! ## What a connection can do -/

namespace ConnectionState

variable {s s' : ConnectionState ρ} {e : Event ρ}

/-- A connection that has been closed. -/
def Ended (s : ConnectionState ρ) : Prop := s.stage = .closing ∨ s.stage = .closed

/-- A disconnected connection is closed. -/
def Coherent (s : ConnectionState ρ) : Prop := s.disconnected = true → s.stage = .closed

/-- The moves of the handshake. -/
inductive Moves (s s' : ConnectionState ρ) : Event ρ → Prop
  | stays {e : Event ρ} : s'.handshake = s.handshake → (s'.stage = s.stage ∨ s'.Ended) → Moves s s' e
  | hello {e : Event ρ} : s.stage = .awaitingHello → s'.stage = .handshaking →
      s'.handshake = .snapshot → Moves s s' e
  | answered {revision : Nat} : s.handshake = .snapshot → s.stage = .handshaking →
      s'.handshake = .hello revision → s'.stage = .handshaking → Moves s s' (.snapshot (some revision))
  | ready {revision current : Nat} : s.handshake = .hello revision → s.stage = .handshaking →
      s'.stage = .ready → s'.handshake = (if revision ≠ current then .current else .returned) →
      Moves s s' (.sent true current)
  | caughtUp {e : Event ρ} : s.handshake = .current → s'.handshake = .event → s'.stage = s.stage →
      Moves s s' e
  | returns {e : Event ρ} : s'.handshake = .returned ∨ s'.handshake = .failure →
      s'.Ended ∨ s'.stage = s.stage ∧ s.handshake ≠ .current ∧ s.handshake ≠ .none → Moves s s' e

theorem failProtocol_cases (h : s.Coherent) : s.failProtocol.Ended ∧ s.failProtocol.handshake = s.handshake := by
  rw [failProtocol]
  split
  next hterminal =>
    refine ⟨?_, rfl⟩
    simp only [isTerminalConnection, Bool.or_eq_true, decide_eq_true_eq] at hterminal
    rcases hterminal with (hdisconnected | hclosing) | hclosed
    · exact .inr (h hdisconnected)
    · exact .inl hclosing
    · exact .inr hclosed
  next => exact ⟨.inl rfl, rfl⟩

theorem moves_receive (h : s.Coherent) (message : ClientMessage ρ) (e : Event ρ) : Moves s (s.receive message) e := by
  rw [receive]
  split
  next => exact .stays rfl (.inl rfl)
  next hopen =>
    cases message with
    | hello version =>
      rw [dispatchMessage]
      split
      next hstage =>
        rw [startHandshake]
        split
        next => exact .hello hstage rfl rfl
        next =>
          have hend : ({ s with stage := .handshaking, handshake := .failure } :
              ConnectionState ρ).failProtocol.handshake = .failure := by
            rw [failProtocol]
            split <;> rfl
          refine .returns (.inr hend) (.inl ?_)
          rw [failProtocol, if_neg]
          · exact .inl rfl
          · simp only [isTerminalConnection, Bool.or_eq_true, decide_eq_true_eq] at hopen ⊢
            simp only [not_or] at hopen
            simpa using hopen.1.1
      next => exact .stays (failProtocol_cases h).2 (.inr (failProtocol_cases h).1)
    | request envelope =>
      rw [dispatchMessage]
      dsimp only
      split
      next =>
        have hcoherent : Coherent { s with arrived := s.arrived ++ [(s.arrived.length, envelope)] } := h
        have hfail := failProtocol_cases hcoherent
        exact .stays hfail.2 (.inr hfail.1)
      all_goals exact .stays rfl (.inl rfl)

/-- **Inversion.** Every step of a connection is one of these moves. -/
theorem moves_of_step (h : s.Coherent) (hstep : s.step e = some s') : Moves s s' e := by
  cases e with
  | message message =>
    cases hstep
    exact moves_receive h message _
  | protocolFailure =>
    cases hstep
    exact .stays (failProtocol_cases h).2 (.inr (failProtocol_cases h).1)
  | snapshot revision =>
    cases revision with
    | none =>
      obtain ⟨-, ⟨⟩⟩ := Option.ite_none_right_eq_some.mp hstep
      exact .returns (.inr rfl) (.inl (failProtocol_cases h).1)
    | some revision =>
      rw [step] at hstep
      -- The snapshot of the hello, or the one after it.
      split at hstep
      next hsnapshot =>
        cases hstep
        rw [sendHello]
        split
        next => exact .returns (.inl rfl) (.inr ⟨rfl, by rw [hsnapshot]; exact ⟨nofun, nofun⟩⟩)
        next hopen =>
          have hstage : s.stage = .handshaking := by
            simp only [Bool.or_eq_true, decide_eq_true_eq, not_or] at hopen
            simpa using hopen.1.2
          exact .answered hsnapshot hstage rfl hstage
      next hcurrent =>
        cases hstep
        exact .caughtUp hcurrent rfl rfl
      next => cases hstep
  | sent sent current =>
    obtain ⟨-, hstep⟩ := Option.ite_none_right_eq_some.mp hstep
    split at hstep
    next revision hhello =>
      cases hstep
      rw [becomeReady]
      split
      next hready =>
        simp only [Bool.and_eq_true, decide_eq_true_eq] at hready
        obtain ⟨⟨rfl, -⟩, hstage⟩ := hready
        dsimp only
        split
        next hne => exact .ready hhello hstage rfl (if_pos hne).symm
        next heq => exact .ready hhello hstage rfl (if_neg heq).symm
      next => exact .returns (.inl rfl) (.inr ⟨rfl, by rw [hhello]; exact ⟨nofun, nofun⟩⟩)
    next hevent =>
      cases hstep
      exact .returns (.inl rfl) (.inr ⟨rfl, by rw [hevent]; exact ⟨nofun, nofun⟩⟩)
    next => cases hstep
  | failed =>
    obtain ⟨hfailure, ⟨⟩⟩ := Option.ite_none_right_eq_some.mp hstep
    exact .returns (.inl rfl) (.inr ⟨rfl, by rw [hfailure]; exact ⟨nofun, nofun⟩⟩)
  -- The rest leaves the handshake as it is.
  | callbacks =>
    obtain ⟨-, ⟨⟩⟩ := Option.ite_none_right_eq_some.mp hstep
    rw [runCallbacks]
    split <;> exact .stays rfl (.inl rfl)
  | disconnect =>
    cases hstep
    rw [disconnect]
    split
    next => exact .stays rfl (.inl rfl)
    next => exact .stays rfl (.inr (.inr rfl))
  | transportClosed =>
    cases hstep
    exact .stays rfl (.inl rfl)
  | serverClosing =>
    cases hstep
    exact .stays rfl (.inl rfl)
  | closeServerState =>
    obtain ⟨-, ⟨⟩⟩ := Option.ite_none_right_eq_some.mp hstep
    split
    next => exact .stays rfl (.inl rfl)
    next => exact .stays rfl (.inr (.inl rfl))

/-- Nothing reaches a connection again that is disconnected or whose transport is closed. -/
theorem flags_of_step (hstep : s.step e = some s') :
    (s.disconnected = true → s'.disconnected = true ∧ s'.stage = s.stage) ∧
      (s.disconnected = false → s'.disconnected = true → s'.stage = .closed) ∧
      (s.transportClosed = true → s'.transportClosed = true) := by
  cases e with
  | message message =>
    cases hstep
    cases message <;> grind [receive, dispatchMessage, startHandshake, failProtocol, isTerminalConnection]
  | snapshot revision => cases revision <;> grind [step, sendHello, failProtocol, isTerminalConnection]
  | sent sent current => grind [step, becomeReady]
  | callbacks => grind [step, runCallbacks]
  | failed => grind [step]
  | protocolFailure => grind [step, failProtocol, isTerminalConnection]
  | disconnect => grind [step, disconnect]
  | transportClosed => grind [step]
  | serverClosing => grind [step]
  | closeServerState => grind [step]

theorem coherent_of_step (h : s.Coherent) (hstep : s.step e = some s') : s'.Coherent := by
  obtain ⟨hstill, hnow, -⟩ := flags_of_step hstep
  intro hdisconnected
  cases hbefore : s.disconnected with
  | true =>
    rw [(hstill hbefore).2]
    exact h hbefore
  | false => exact hnow hbefore hdisconnected

theorem reachable_of_step (hstep : s.step e = some s') (h : s'.reachable = true) : s.reachable = true := by
  obtain ⟨hdisconnected, -, hclosed⟩ := flags_of_step hstep
  simp only [reachable, Bool.and_eq_true, Bool.not_eq_true'] at h ⊢
  constructor
  · by_contra hnot
    rw [Bool.not_eq_false] at hnot
    rw [(hdisconnected hnot).1] at h
    cases h.1
  · by_contra hnot
    rw [Bool.not_eq_false] at hnot
    rw [hclosed hnot] at h
    cases h.2

end ConnectionState

/-! ## The invariant -/

namespace Publisher

variable {p p' : Publisher ρ} {i : Nat}

/-- The broadcast that is being performed comes to the connection. -/
def Awaits (p : Publisher ρ) (i : Nat) : Prop := ∃ b, p.broadcast = some b ∧ i ∈ b.readyConnections

/-- A snapshot that a handshake will find outdated, or that is newer than the broadcasts begun. -/
def Caught (p : Publisher ρ) (snapshot : ServerSnapshot) : Prop :=
  snapshot.revision < p.revision ∨ p.begun ≤ snapshot.requested

/-- The handshake is past its hello. -/
def PastHello (state : ConnectionState ρ) : Prop :=
  state.handshake = .current ∨ state.handshake = .event ∨ state.handshake = .returned ∨ state.handshake = .failure

/-- What holds of a connection of the publisher. -/
structure ClientInv (p : Publisher ρ) (i : Nat) (c : Client ρ) : Prop where
  coherent : c.state.Coherent
  bounded : ∀ x ∈ c.sent, x.revision ≤ p.revision
  increasing : c.sent.Pairwise fun a b => a.revision < b.revision
  awaitingHello : c.state.stage = .awaitingHello → c.sent = [] ∧ c.state.handshake = .none
  snapshot : c.state.handshake = .snapshot → c.sent = [] ∧ c.snapshot.revision ≤ p.revision ∧
      (c.state.stage = .handshaking → p.Caught c.snapshot)
  hello : ∀ revision, c.state.handshake = .hello revision → c.sent = [c.snapshot] ∧ c.snapshot.revision = revision ∧
      (c.state.stage = .handshaking → p.Caught c.snapshot)
  current : c.state.handshake = .current →
    (∀ x ∈ c.sent, x.revision < c.snapshot.revision) ∧ c.snapshot.revision ≤ p.revision ∧
      (c.state.stage = .ready → c.state.reachable = true → p.begun ≤ c.snapshot.requested ∨ p.Awaits i)
  ready : c.state.stage = .ready → PastHello c.state ∧ (c.state.reachable = true → c.state.handshake ≠ .current →
      ∃ last, c.sent.getLast? = some last ∧ (p.begun ≤ last.requested ∨ p.Awaits i))
  awaited : p.Awaits i → PastHello c.state ∧ (∀ x ∈ c.sent, x.revision < p.revision) ∧
    (c.state.handshake = .current → c.snapshot.revision < p.revision)

/-- What holds of the publisher in runs that keep up. -/
structure Inv (p : Publisher ρ) : Prop where
  begun : p.begun ≤ p.requested
  running : ∀ b, p.broadcast = some b → p.begun ≤ b.snapshot.requested ∧
    b.snapshot.revision = p.revision ∧ b.readyConnections.Nodup ∧ ∀ i ∈ b.readyConnections, i < p.connections.length
  clients : ∀ i c, p.connections[i]? = some c → p.ClientInv i c

theorem Inv.delivers (h : p.Inv) : p.Delivers where
  fresh := by
    rintro ⟨hnone, hall⟩ client hclient hserved
    obtain ⟨i, hi⟩ := List.mem_iff_getElem?.mp hclient
    simp only [Client.isServed, ConnectionState.isReady, Bool.and_eq_true, decide_eq_true_eq] at hserved
    obtain ⟨last, hlast, hfresh⟩ := ((h.clients i client hi).ready hserved.1.1.1).2 hserved.1.2 hserved.2
    refine ⟨last, hlast, ?_⟩
    rcases hfresh with hfresh | ⟨b, hb, -⟩
    · exact hall ▸ hfresh
    · rw [hnone] at hb
      cases hb
  increasing := by
    intro client hclient
    obtain ⟨i, hi⟩ := List.mem_iff_getElem?.mp hclient
    exact (h.clients i client hi).increasing

theorem inv_start : ({} : Publisher ρ).Inv where
  begun := Nat.le_refl 0
  running := nofun
  clients := by simp

/-- The invariant of a connection depends on little of the publisher. -/
theorem ClientInv.congr {c : Client ρ} (h : p.ClientInv i c) (hrevision : p'.revision = p.revision)
    (hbegun : p'.begun = p.begun) (hawaits : p'.Awaits i ↔ p.Awaits i) : p'.ClientInv i c where
  coherent := h.coherent
  bounded := by rw [hrevision]; exact h.bounded
  increasing := h.increasing
  awaitingHello := h.awaitingHello
  snapshot := by rw [Caught, hrevision, hbegun]; exact h.snapshot
  hello := by rw [Caught, hrevision, hbegun]; exact h.hello
  current := by rw [hrevision, hbegun, hawaits]; exact h.current
  ready := by rw [hbegun, hawaits]; exact h.ready
  awaited := by rw [hrevision, hawaits]; exact h.awaited

/-! ## Steps of a connection -/

section ClientStep

variable {c : Client ρ} {s' : ConnectionState ρ} (h : p.ClientInv i c) (hcoherent : s'.Coherent)
  (hreachable : s'.reachable = true → c.state.reachable = true)

include h hcoherent hreachable

theorem ClientInv.stays (hhandshake : s'.handshake = c.state.handshake) (hstage : s'.stage = c.state.stage ∨ s'.Ended) :
    p.ClientInv i ⟨s', c.snapshot, c.sent⟩ := by
  have hsame : ∀ stage, stage ≠ .closing → stage ≠ .closed → s'.stage = stage → c.state.stage = stage := by
    intro stage hclosing hclosed heq
    rcases hstage with hstage | hended | hended
    · rw [← hstage, heq]
    · exact absurd (heq.symm.trans hended) hclosing
    · exact absurd (heq.symm.trans hended) hclosed
  have hpast : PastHello s' ↔ PastHello c.state := by rw [PastHello, PastHello, hhandshake]
  refine ⟨hcoherent, h.bounded, h.increasing, fun hs => ?_, fun hs => ?_, fun r hs => ?_, fun hs => ?_,
    fun hs => ?_, fun ha => ?_⟩
  · obtain ⟨hsent, hnone⟩ := h.awaitingHello (hsame _ nofun nofun hs)
    exact ⟨hsent, hhandshake.trans hnone⟩
  · obtain ⟨hsent, hle, hcaught⟩ := h.snapshot (hhandshake ▸ hs)
    exact ⟨hsent, hle, fun hstage => hcaught (hsame _ nofun nofun hstage)⟩
  · obtain ⟨hsent, hle, hcaught⟩ := h.hello r (hhandshake ▸ hs)
    exact ⟨hsent, hle, fun hstage => hcaught (hsame _ nofun nofun hstage)⟩
  · obtain ⟨hsent, hle, hfresh⟩ := h.current (hhandshake ▸ hs)
    exact ⟨hsent, hle, fun hstage hr => hfresh (hsame _ nofun nofun hstage) (hreachable hr)⟩
  · obtain ⟨hold, hlast⟩ := h.ready (hsame _ nofun nofun hs)
    exact ⟨hpast.mpr hold, fun hr hcurrent => hlast (hreachable hr) (hhandshake ▸ hcurrent)⟩
  · obtain ⟨hold, hsent, hcurrent⟩ := h.awaited ha
    exact ⟨hpast.mpr hold, hsent, fun hs => hcurrent (hhandshake ▸ hs)⟩

omit hreachable in
/-- The handshake begins, and with it the computation of a snapshot. -/
theorem ClientInv.startHandshake (hrequested : p.begun ≤ p.requested)
    (hstage : c.state.stage = .awaitingHello) (hstage' : s'.stage = .handshaking)
    (hhandshake : s'.handshake = .snapshot) :
    p.ClientInv i ⟨s', ⟨p.revision, p.requested⟩, c.sent⟩ := by
  obtain ⟨hsent, hnone⟩ := h.awaitingHello hstage
  refine ⟨hcoherent, h.bounded, h.increasing, fun hs => ?_, fun _ => ?_, fun r hs => ?_, fun hs => ?_,
    fun hs => ?_, fun ha => ?_⟩
  · rw [hstage'] at hs
    cases hs
  · exact ⟨hsent, Nat.le_refl _, fun _ => .inr hrequested⟩
  · rw [hhandshake] at hs
    cases hs
  · rw [hhandshake] at hs
    cases hs
  · rw [hstage'] at hs
    cases hs
  · have hpast := (h.awaited ha).1
    rw [PastHello, hnone] at hpast
    simp at hpast

omit hreachable in
theorem ClientInv.sendHello (hhandshake : c.state.handshake = .snapshot)
    (hstage : c.state.stage = .handshaking) (hstage' : s'.stage = .handshaking)
    (hhandshake' : s'.handshake = .hello c.snapshot.revision) :
    p.ClientInv i ⟨s', c.snapshot, c.sent ++ [c.snapshot]⟩ := by
  obtain ⟨hsent, hle, hcaught⟩ := h.snapshot hhandshake
  rw [hsent, List.nil_append]
  refine ⟨hcoherent, ?_, List.pairwise_singleton _ _, fun hs => ?_, fun hs => ?_, fun r hs => ?_,
    fun hs => ?_, fun hs => ?_, fun ha => ?_⟩
  · intro x hx
    rw [List.mem_singleton.mp hx]
    exact hle
  · rw [hstage'] at hs
    cases hs
  · rw [hhandshake'] at hs
    cases hs
  · rw [hhandshake'] at hs
    cases hs
    exact ⟨rfl, rfl, fun _ => hcaught hstage⟩
  · rw [hhandshake'] at hs
    cases hs
  · rw [hstage'] at hs
    cases hs
  · have hpast := (h.awaited ha).1
    rw [PastHello, hhandshake] at hpast
    simp at hpast

omit hreachable in
/-- The connection is ready, and the snapshot of its hello is not outdated. -/
theorem ClientInv.becomeReady (hhandshake : c.state.handshake = .hello p.revision)
    (hstage : c.state.stage = .handshaking) (hstage' : s'.stage = .ready)
    (hhandshake' : s'.handshake = .returned) : p.ClientInv i ⟨s', c.snapshot, c.sent⟩ := by
  obtain ⟨hsent, hrevision, hcaught⟩ := h.hello _ hhandshake
  refine ⟨hcoherent, h.bounded, h.increasing, fun hs => ?_, fun hs => ?_, fun r hs => ?_, fun hs => ?_,
    fun _ => ⟨.inr (.inr (.inl hhandshake')), fun _ _ => ?_⟩, fun ha => ?_⟩
  · rw [hstage'] at hs
    cases hs
  · rw [hhandshake'] at hs
    cases hs
  · rw [hhandshake'] at hs
    cases hs
  · rw [hhandshake'] at hs
    cases hs
  · refine ⟨c.snapshot, by rw [hsent]; rfl, .inl ?_⟩
    exact (hcaught hstage).resolve_left (by omega)
  · have hpast := (h.awaited ha).1
    rw [PastHello, hhandshake] at hpast
    simp at hpast

omit hreachable in
/-- The connection is ready, and gets a newer snapshot since that of its hello is outdated. -/
theorem ClientInv.becomeReady_outdated (hrequested : p.begun ≤ p.requested) {revision : Nat}
    (hhandshake : c.state.handshake = .hello revision) (hne : revision ≠ p.revision)
    (hstage' : s'.stage = .ready) (hhandshake' : s'.handshake = .current) :
    p.ClientInv i ⟨s', ⟨p.revision, p.requested⟩, c.sent⟩ := by
  obtain ⟨hsent, hrevision, -⟩ := h.hello _ hhandshake
  refine ⟨hcoherent, h.bounded, h.increasing, fun hs => ?_, fun hs => ?_, fun r hs => ?_, fun _ => ?_,
    fun _ => ⟨.inl hhandshake', fun _ hs => absurd hhandshake' hs⟩, fun ha => ?_⟩
  · rw [hstage'] at hs
    cases hs
  · rw [hhandshake'] at hs
    cases hs
  · rw [hhandshake'] at hs
    cases hs
  · refine ⟨fun x hx => ?_, Nat.le_refl _, fun _ _ => .inl hrequested⟩
    have hle := h.bounded x hx
    rw [hsent, List.mem_singleton] at hx
    show x.revision < p.revision
    rw [hx] at hle ⊢
    omega
  · have hpast := (h.awaited ha).1
    rw [PastHello, hhandshake] at hpast
    simp at hpast

/-- The snapshot of a ready connection's own is sent. -/
theorem ClientInv.catchUp (hhandshake : c.state.handshake = .current)
    (hhandshake' : s'.handshake = .event) (hstage : s'.stage = c.state.stage) :
    p.ClientInv i ⟨s', c.snapshot,
      if c.state.reachable then c.sent ++ [c.snapshot] else c.sent⟩ := by
  obtain ⟨hless, hle, hfresh⟩ := h.current hhandshake
  have hmem : ∀ x ∈ (if c.state.reachable then c.sent ++ [c.snapshot] else c.sent), x ∈ c.sent ∨ x = c.snapshot := by
    intro x hx
    split at hx
    next => simpa using hx
    next => exact .inl hx
  refine ⟨hcoherent, fun x hx => ?_, ?_, fun hs => ?_, fun hs => ?_, fun r hs => ?_, fun hs => ?_,
    fun hs => ⟨.inr (.inl hhandshake'), fun hr _ => ?_⟩, fun ha => ⟨.inr (.inl hhandshake'), ?_, fun hs => ?_⟩⟩
  · rcases hmem x hx with hx | rfl
    · exact h.bounded x hx
    · exact hle
  · show List.Pairwise _ (if c.state.reachable then c.sent ++ [c.snapshot] else c.sent)
    split
    next =>
      rw [List.pairwise_append]
      refine ⟨h.increasing, List.pairwise_singleton _ _, fun x hx y hy => ?_⟩
      rw [List.mem_singleton.mp hy]
      exact hless x hx
    next => exact h.increasing
  · obtain ⟨-, hnone⟩ := h.awaitingHello (hstage ▸ hs)
    rw [hhandshake] at hnone
    cases hnone
  · rw [hhandshake'] at hs
    cases hs
  · rw [hhandshake'] at hs
    cases hs
  · rw [hhandshake'] at hs
    cases hs
  · refine ⟨c.snapshot, ?_, hfresh (hstage ▸ hs) (hreachable hr)⟩
    rw [if_pos (hreachable hr), List.getLast?_concat]
  · intro x hx
    obtain ⟨-, hsent, hcurrent⟩ := h.awaited ha
    rcases hmem x hx with hx | rfl
    · exact hsent x hx
    · exact hcurrent hhandshake
  · rw [hhandshake'] at hs
    cases hs

theorem ClientInv.returns (hhandshake' : s'.handshake = .returned ∨ s'.handshake = .failure)
    (hstage : s'.Ended ∨ s'.stage = c.state.stage ∧ c.state.handshake ≠ .current ∧
      c.state.handshake ≠ .none) : p.ClientInv i ⟨s', c.snapshot, c.sent⟩ := by
  have hpast : PastHello s' := .inr (.inr hhandshake')
  have hno : ∀ handshake, handshake ≠ .returned → handshake ≠ .failure → s'.handshake ≠ handshake := by
    intro handshake hreturned hfailure heq
    rcases hhandshake' with hs | hs
    · exact hreturned (heq.symm.trans hs)
    · exact hfailure (heq.symm.trans hs)
  have hsame : ∀ stage, stage ≠ .closing → stage ≠ .closed → s'.stage = stage →
      c.state.stage = stage ∧ c.state.handshake ≠ .current ∧ c.state.handshake ≠ .none := by
    intro stage hclosing hclosed heq
    rcases hstage with (hended | hended) | ⟨hstage, hcurrent⟩
    · exact absurd (heq.symm.trans hended) hclosing
    · exact absurd (heq.symm.trans hended) hclosed
    · exact ⟨hstage ▸ heq, hcurrent⟩
  refine ⟨hcoherent, h.bounded, h.increasing, fun hs => ?_, fun hs => absurd hs (hno _ nofun nofun),
    fun r hs => absurd hs (hno _ nofun nofun), fun hs => absurd hs (hno _ nofun nofun),
    fun hs => ⟨hpast, fun hr _ => ?_⟩,
    fun ha => ⟨hpast, (h.awaited ha).2.1, fun hs => absurd hs (hno _ nofun nofun)⟩⟩
  · obtain ⟨hold, -, hnone⟩ := hsame .awaitingHello nofun nofun hs
    exact absurd (h.awaitingHello hold).2 hnone
  · obtain ⟨hold, hcurrent, -⟩ := hsame .ready nofun nofun hs
    exact (h.ready hold).2 (hreachable hr) hcurrent

end ClientStep

/-- **A step of a connection** keeps what holds of it. -/
theorem ClientInv.step {c c' : Client ρ} (h : p.ClientInv i c) (hrequested : p.begun ≤ p.requested)
    {e : Event ρ} (hstep : c.step p e = some c') : p.ClientInv i c' := by
  obtain ⟨hcarries, hstep⟩ := Option.ite_none_right_eq_some.mp hstep
  obtain ⟨s', hs, rfl⟩ := Option.map_eq_some_iff.mp hstep
  have hcoherent := ConnectionState.coherent_of_step h.coherent hs
  have hreachable : s'.reachable = true → c.state.reachable = true :=
    ConnectionState.reachable_of_step hs
  cases ConnectionState.moves_of_step h.coherent hs with
  | stays hhandshake hstage =>
    have hstart : startsSnapshot c.state s' = false := by simp [startsSnapshot, hhandshake]
    have hsend : sendsSnapshot c.state s' = false := by
      rw [sendsSnapshot, hhandshake]
      cases c.state.handshake <;> rfl
    rw [hstart, hsend]
    exact h.stays hcoherent hreachable hhandshake hstage
  | hello hstage hstage' hhandshake =>
    obtain ⟨-, hnone⟩ := h.awaitingHello hstage
    have hstart : startsSnapshot c.state s' = true := by simp [startsSnapshot, hhandshake, hnone]
    have hsend : sendsSnapshot c.state s' = false := by rw [sendsSnapshot, hhandshake, hnone]
    rw [hstart, hsend]
    exact h.startHandshake hcoherent hrequested hstage hstage' hhandshake
  | answered hhandshake hstage hhandshake' hstage' =>
    have hstart : startsSnapshot c.state s' = false := by simp [startsSnapshot, hhandshake']
    have hsend : sendsSnapshot c.state s' = true := by rw [sendsSnapshot, hhandshake, hhandshake']
    obtain rfl := of_decide_eq_true hcarries
    rw [hstart, hsend]
    exact h.sendHello hcoherent hhandshake hstage hstage' hhandshake'
  | ready hhandshake hstage hstage' hhandshake' =>
    obtain rfl := of_decide_eq_true hcarries
    split at hhandshake'
    next hne =>
      have hstart : startsSnapshot c.state s' = true := by
        simp [startsSnapshot, hhandshake, hhandshake']
      have hsend : sendsSnapshot c.state s' = false := by
        rw [sendsSnapshot, hhandshake, hhandshake']
      rw [hstart, hsend]
      exact h.becomeReady_outdated hcoherent hrequested hhandshake hne hstage' hhandshake'
    next heq =>
      have hstart : startsSnapshot c.state s' = false := by simp [startsSnapshot, hhandshake']
      have hsend : sendsSnapshot c.state s' = false := by
        rw [sendsSnapshot, hhandshake, hhandshake']
      rw [not_not] at heq
      subst heq
      rw [hstart, hsend]
      exact h.becomeReady hcoherent hhandshake hstage hstage' hhandshake'
  | caughtUp hhandshake hhandshake' hstage =>
    have hstart : startsSnapshot c.state s' = false := by simp [startsSnapshot, hhandshake']
    have hsend : sendsSnapshot c.state s' = c.state.reachable := by
      rw [sendsSnapshot, hhandshake, hhandshake']
    rw [hstart, hsend]
    exact h.catchUp hcoherent hreachable hhandshake hhandshake' hstage
  | returns hhandshake' hstage =>
    have hstart : startsSnapshot c.state s' = false := by
      rcases hhandshake' with hs | hs <;> simp [startsSnapshot, hs]
    have hsend : sendsSnapshot c.state s' = false := by
      rw [sendsSnapshot]
      rcases hhandshake' with hs | hs <;> rw [hs] <;> cases c.state.handshake <;> rfl
    rw [hstart, hsend]
    exact h.returns hcoherent hreachable hhandshake' hstage

/-! ## Steps of the publisher -/

/-- A step that leaves the connections, and what their invariant is about, as they are. -/
theorem Inv.congr (h : p.Inv) (hbegun : p'.begun ≤ p'.requested)
    (hconnections : p'.connections = p.connections) (hrevision : p'.revision = p.revision)
    (hbegun' : p'.begun = p.begun) (hawaits : ∀ i, p'.Awaits i ↔ p.Awaits i)
    (hrunning : ∀ b', p'.broadcast = some b' → ∃ b, p.broadcast = some b ∧
      b'.snapshot = b.snapshot ∧ b'.readyConnections = b.readyConnections) : p'.Inv where
  begun := hbegun
  running b' hb' := by
    obtain ⟨b, hb, hsnapshot, hready⟩ := hrunning b' hb'
    rw [hsnapshot, hready, hrevision, hbegun', hconnections]
    exact h.running b hb
  clients i c hi := (h.clients i c (hconnections ▸ hi)).congr hrevision hbegun' (hawaits i)

theorem mem_readyConnections {i : Nat} :
    i ∈ p.readyConnections ↔ ∃ c, p.connections[i]? = some c ∧ c.state.isReady = true := by
  rw [readyConnections, List.mem_filter, List.mem_range, Option.any_eq_true]
  constructor
  · exact fun h => h.2
  · rintro ⟨c, hc, hready⟩
    exact ⟨(List.getElem?_eq_some_iff.mp hc).1, c, hc, hready⟩

theorem isReady_of_stage {c : Client ρ} (h : c.state.Coherent) (hstage : c.state.stage = .ready) :
    c.state.isReady = true := by
  rw [ConnectionState.isReady, hstage]
  cases hdisconnected : c.state.disconnected with
  | false => rfl
  | true =>
    rw [h hdisconnected] at hstage
    cases hstage

/-- A skipped broadcast is missed by nobody where no connection is ready or handshaking. -/
theorem Inv.skip (h : p.Inv) (hbegun : p.begun < p.requested) (hnone : p.broadcast = none)
    (hidle : ∀ c ∈ p.connections, c.isHandshaking = false ∧ c.state.isReady = false) :
    Inv { p with begun := p.begun + 1 } where
  begun := hbegun
  running b hb := by rw [hnone] at hb; cases hb
  clients i c hi := by
    have hc := h.clients i c hi
    obtain ⟨hquiet, hunready⟩ := hidle c (List.mem_of_getElem? hi)
    have hidle : c.state.stage = .ready → False := fun hstage => by
      rw [isReady_of_stage hc.coherent hstage] at hunready
      cases hunready
    refine ⟨hc.coherent, hc.bounded, hc.increasing, hc.awaitingHello, fun hs => ?_, fun r hs => ?_,
      fun hs => ?_, fun hs => (hidle hs).elim, hc.awaited⟩
    · obtain ⟨hsent, hle, -⟩ := hc.snapshot hs
      refine ⟨hsent, hle, fun hstage => ?_⟩
      simp [Client.isHandshaking, hs, hstage] at hquiet
    · obtain ⟨hsent, hle, -⟩ := hc.hello r hs
      refine ⟨hsent, hle, fun hstage => ?_⟩
      simp [Client.isHandshaking, hs, hstage] at hquiet
    · obtain ⟨hless, hle, -⟩ := hc.current hs
      exact ⟨hless, hle, fun hstage => (hidle hstage).elim⟩

/-- A broadcast begins: it comes to the connections that are ready, and the others will find the
snapshots of their hellos outdated. -/
theorem Inv.perform (h : p.Inv) (hbegun : p.begun < p.requested) :
    Inv { p with
      begun := p.begun + 1
      revision := p.revision + 1
      broadcast := some ⟨⟨p.revision + 1, p.requested⟩, false, p.readyConnections⟩ } where
  begun := hbegun
  running b hb := by
    obtain rfl := Option.some.inj hb
    refine ⟨hbegun, rfl, List.nodup_range.filter _, fun i hi => ?_⟩
    obtain ⟨c, hc, -⟩ := mem_readyConnections.mp hi
    exact (List.getElem?_eq_some_iff.mp hc).1
  clients i c hi := by
    have hc := h.clients i c hi
    have hawaits : c.state.stage = .ready → Awaits { p with
        begun := p.begun + 1
        revision := p.revision + 1
        broadcast := some ⟨⟨p.revision + 1, p.requested⟩, false, p.readyConnections⟩ } i :=
      fun hstage => ⟨_, rfl, mem_readyConnections.mpr ⟨c, hi, isReady_of_stage hc.coherent hstage⟩⟩
    refine ⟨hc.coherent, fun x hx => Nat.le_succ_of_le (hc.bounded x hx), hc.increasing,
      hc.awaitingHello, fun hs => ?_, fun r hs => ?_, fun hs => ?_, fun hs => ?_, fun ha => ?_⟩
    · obtain ⟨hsent, hle, -⟩ := hc.snapshot hs
      exact ⟨hsent, Nat.le_succ_of_le hle, fun _ => .inl (Nat.lt_succ_of_le hle)⟩
    · obtain ⟨hsent, hrevision, -⟩ := hc.hello r hs
      have hle := hc.bounded c.snapshot (by rw [hsent]; exact List.mem_cons_self)
      exact ⟨hsent, hrevision, fun _ => .inl (Nat.lt_succ_of_le hle)⟩
    · obtain ⟨hless, hle, -⟩ := hc.current hs
      exact ⟨hless, Nat.le_succ_of_le hle, fun hstage _ => .inr (hawaits hstage)⟩
    · obtain ⟨hpast, hlast⟩ := hc.ready hs
      refine ⟨hpast, fun hreachable hcurrent => ?_⟩
      obtain ⟨last, hlast, -⟩ := hlast hreachable hcurrent
      exact ⟨last, hlast, .inr (hawaits hs)⟩
    · obtain ⟨b, hb, hmem⟩ := ha
      obtain rfl := Option.some.inj hb
      obtain ⟨c', hc', hready⟩ := mem_readyConnections.mp hmem
      obtain rfl := Option.some.inj (hi.symm.trans hc')
      have hstage : c.state.stage = .ready := by
        simp only [ConnectionState.isReady, Bool.and_eq_true, decide_eq_true_eq] at hready
        exact hready.1
      refine ⟨(hc.ready hstage).1, fun x hx => Nat.lt_succ_of_le (hc.bounded x hx), fun hs => ?_⟩
      exact Nat.lt_succ_of_le (hc.current hs).2.1

variable {rest : List Nat}

theorem ClientInv.other {c : Client ρ} {b : Broadcast} {index : Nat}
    (h : p.ClientInv i c) (hb : p.broadcast = some b) (hready : b.readyConnections = index :: rest)
    (hother : i ≠ index) (hbroadcast : p'.broadcast = some { b with readyConnections := rest })
    (hrevision : p'.revision = p.revision) (hbegun : p'.begun = p.begun) : p'.ClientInv i c := by
  apply h.congr hrevision hbegun
  simp [Awaits, hb, hbroadcast, hready, hother]

theorem ClientInv.sendMessage {c : Client ρ} {b : Broadcast} (h : p.ClientInv i c)
    (hb : p.broadcast = some b) (hready : b.readyConnections = i :: rest) (hrest : i ∉ rest)
    (hrunning : p.begun ≤ b.snapshot.requested ∧ b.snapshot.revision = p.revision)
    (hkeeps : c.state.reachable = true → c.state.handshake ≠ .current) (sent : Bool)
    (hbroadcast : p'.broadcast = some { b with readyConnections := rest })
    (hrevision : p'.revision = p.revision) (hbegun : p'.begun = p.begun) :
    p'.ClientInv i (c.sendMessage b.snapshot sent) := by
  obtain ⟨hpast, hless, -⟩ := h.awaited ⟨b, hb, hready ▸ List.mem_cons_self⟩
  have hgone : ¬ p'.Awaits i := by
    rintro ⟨b', hb', hmem⟩
    obtain rfl := Option.some.inj (hbroadcast.symm.trans hb')
    exact hrest hmem
  have hsnapshot : c.state.handshake ≠ .snapshot := by
    intro hs
    rw [PastHello, hs] at hpast
    simp at hpast
  have hhello : ∀ r, c.state.handshake ≠ .hello r := by
    intro r hs
    rw [PastHello, hs] at hpast
    simp at hpast
  have hstarted : c.state.stage ≠ .awaitingHello := by
    intro hs
    rw [PastHello, (h.awaitingHello hs).2] at hpast
    simp at hpast
  -- what holds of a connection in any case, its own snapshot apart
  have hunsent : ∀ state : ConnectionState ρ, state.Coherent → state.stage = c.state.stage →
      state.handshake = c.state.handshake → state.reachable = false →
      p'.ClientInv i { c with state := state } := by
    intro state hcoherent hstage hhandshake hreachable
    refine ⟨hcoherent, hrevision ▸ h.bounded, h.increasing, fun hs => ?_, fun hs => ?_, fun r hs => ?_,
      fun hs => ?_, fun hs => ?_, fun ha => (hgone ha).elim⟩
    · exact absurd (hstage ▸ hs) hstarted
    · exact absurd (hhandshake ▸ hs) hsnapshot
    · exact absurd (hhandshake ▸ hs) (hhello r)
    · obtain ⟨hbefore, hle, -⟩ := h.current (hhandshake ▸ hs)
      refine ⟨hbefore, hrevision ▸ hle, fun _ hr => ?_⟩
      rw [hreachable] at hr
      cases hr
    · refine ⟨?_, fun hr => ?_⟩
      · rw [PastHello, hhandshake]
        exact hpast
      · rw [hreachable] at hr
        cases hr
  rw [Client.sendMessage]
  split
  next hreachable =>
    have hcurrent := hkeeps hreachable
    split
    next =>
      refine ⟨h.coherent, fun x hx => ?_, ?_, fun hs => absurd hs hstarted, fun hs => absurd hs hsnapshot,
        fun r hs => absurd hs (hhello r), fun hs => absurd hs hcurrent, fun _ => ⟨hpast, fun _ _ => ?_⟩,
        fun ha => (hgone ha).elim⟩
      · rw [hrevision]
        rcases List.mem_append.mp hx with hx | hx
        · exact h.bounded x hx
        · rw [List.mem_singleton.mp hx, hrunning.2]
      · rw [List.pairwise_append]
        refine ⟨h.increasing, List.pairwise_singleton _ _, fun x hx y hy => ?_⟩
        rw [List.mem_singleton.mp hy, hrunning.2]
        exact hless x hx
      · exact ⟨b.snapshot, List.getLast?_concat, .inl (hbegun ▸ hrunning.1)⟩
    next =>
      refine hunsent _ h.coherent rfl rfl ?_
      simp [ConnectionState.reachable]
  next hreachable =>
    exact hunsent c.state h.coherent rfl rfl (Bool.eq_false_iff.mpr hreachable)

theorem Inv.send (h : p.Inv) {b : Broadcast} {index : Nat}
    (hb : p.broadcast = some b) (hready : b.readyConnections = index :: rest)
    (hkeeps : ∀ c ∈ p.connections[index]?, c.state.reachable = true → c.state.handshake ≠ .current)
    (sent : Bool) :
    Inv { p with
      connections := p.connections.modify index fun c => c.sendMessage b.snapshot sent
      broadcast := some { b with readyConnections := rest } } := by
  obtain ⟨hbegun, hrevision, hnodup, hbound⟩ := h.running b hb
  rw [hready, List.nodup_cons] at hnodup
  refine ⟨h.begun, fun b' hb' => ?_, fun i c hi => ?_⟩
  · obtain rfl := Option.some.inj hb'
    refine ⟨hbegun, hrevision, hnodup.2, fun i hi => ?_⟩
    rw [List.length_modify]
    exact hbound i (hready ▸ List.mem_cons_of_mem index hi)
  · rw [List.getElem?_modify] at hi
    by_cases hsame : index = i
    · subst hsame
      obtain ⟨c, hc, rfl⟩ := Option.map_eq_some_iff.mp hi
      rw [if_pos rfl]
      exact (h.clients index c hc).sendMessage hb hready hnodup.1 ⟨hbegun, hrevision⟩ (hkeeps c hc) sent rfl rfl rfl
    · obtain ⟨c, hc, rfl⟩ := Option.map_eq_some_iff.mp hi
      rw [if_neg hsame]
      exact (h.clients i c hc).other hb hready (fun heq => hsame heq.symm) rfl rfl rfl

theorem clientInv_start (h : ¬ p.Awaits i) : p.ClientInv i {} where
  coherent := nofun
  bounded := by simp
  increasing := .nil
  awaitingHello _ := ⟨rfl, rfl⟩
  snapshot := nofun
  hello := nofun
  current := nofun
  ready := nofun
  awaited ha := (h ha).elim

theorem ClientInv.serverClosing {c : Client ρ} (h : p.ClientInv i c) :
    p.ClientInv i { c with state := { c.state with serverClosing := true } } :=
  ⟨h.coherent, h.bounded, h.increasing, h.awaitingHello, h.snapshot, h.hello, h.current, h.ready, h.awaited⟩

/-- **Steps that keep up** keep what holds of the publisher. -/
theorem Inv.step (h : p.Inv) {e : PublisherEvent ρ} (hkeeps : p.KeepsUp e) (hstep : p.step e = some p') : p'.Inv := by
  cases e with
  | connect =>
    cases hstep
    refine ⟨h.begun, fun b hb => ?_, fun i c hi => ?_⟩
    · -- no broadcast knows the new connection
      obtain ⟨hbegun, hrevision, hnodup, hbound⟩ := h.running b hb
      refine ⟨hbegun, hrevision, hnodup, fun i hi => ?_⟩
      rw [List.length_append]
      exact Nat.lt_add_right 1 (hbound i hi)
    · by_cases hlt : i < p.connections.length
      · rw [List.getElem?_append_left hlt] at hi
        exact (h.clients i c hi).congr rfl rfl Iff.rfl
      · rw [List.getElem?_append_right (Nat.le_of_not_lt hlt)] at hi
        obtain rfl := List.mem_singleton.mp (List.mem_of_getElem? hi)
        apply clientInv_start
        rintro ⟨b, hb, hmem⟩
        exact hlt ((h.running b hb).2.2.2 i hmem)
  | connection index e =>
    rw [Publisher.step] at hstep
    split at hstep
    next => cases hstep
    next c hc =>
      obtain ⟨c', hc', rfl⟩ := Option.map_eq_some_iff.mp hstep
      refine ⟨h.begun, fun b hb => ?_, fun i d hi => ?_⟩
      · rw [List.length_set]
        exact h.running b hb
      · rw [List.getElem?_set] at hi
        split at hi
        next hsame =>
          subst hsame
          obtain ⟨-, hi⟩ := Option.ite_none_right_eq_some.mp hi
          obtain rfl := Option.some.inj hi
          exact ((h.clients index c hc).step h.begun hc').congr rfl rfl Iff.rfl
        next => exact (h.clients i d hi).congr rfl rfl Iff.rfl
  | request =>
    cases hstep
    exact h.congr (Nat.le_succ_of_le h.begun) rfl rfl rfl (fun _ => Iff.rfl) fun b hb => ⟨b, hb, rfl, rfl⟩
  | begin =>
    obtain ⟨hmay, ⟨⟩⟩ := Option.ite_none_right_eq_some.mp hstep
    simp only [Bool.and_eq_true, decide_eq_true_eq] at hmay
    -- a broadcast that nobody is ready for is skipped
    rw [performBroadcast]
    split
    next hskip =>
      simp only [Bool.or_eq_true, decide_eq_true_eq] at hskip
      exact h.skip hmay.2 hmay.1 (hkeeps hskip)
    next => exact h.perform hmay.2
  | computed computed =>
    obtain rfl : computed = true := hkeeps
    rw [Publisher.step] at hstep
    split at hstep
    next b hb =>
      obtain ⟨-, ⟨⟩⟩ := Option.ite_none_left_eq_some.mp hstep
      refine h.congr h.begun rfl rfl rfl (fun i => ?_) fun b' hb' => ?_
      · simp [Awaits, hb]
      · obtain rfl := Option.some.inj hb'
        exact ⟨b, hb, rfl, rfl⟩
    next => cases hstep
  | send sent =>
    rw [Publisher.step] at hstep
    split at hstep
    next b hb =>
      split at hstep
      next index rest hcomputed hready =>
        cases hstep
        refine h.send hb hready ?_ sent
        exact hkeeps b hb index (by rw [hready]; rfl)
      next => cases hstep
    next => cases hstep
  | finish =>
    rw [Publisher.step] at hstep
    split at hstep
    next b hb =>
      obtain ⟨hdone, ⟨⟩⟩ := Option.ite_none_right_eq_some.mp hstep
      simp only [Bool.and_eq_true, decide_eq_true_eq] at hdone
      refine h.congr h.begun rfl rfl rfl (fun i => ?_) nofun
      simp [Awaits, hb, hdone.2]
    next => cases hstep
  | close =>
    cases hstep
    refine ⟨h.begun, fun b hb => ?_, fun i c hi => ?_⟩
    · rw [List.length_map]
      exact h.running b hb
    · rw [List.getElem?_map] at hi
      obtain ⟨d, hd, rfl⟩ := Option.map_eq_some_iff.mp hi
      exact (h.clients i d hd).serverClosing.congr rfl rfl Iff.rfl

/-! ## Runs -/

/-- **Snapshots are not lost.** In a run whose steps all keep up, every connection gets newer and
newer snapshots, and once the broadcasts have settled the last one is newer than all requests. -/
theorem snapshots_delivered (events : List (PublisherEvent ρ)) :
    Transition.Clean step KeepsUp ({} : Publisher ρ) events →
      Transition.Always step Delivers ({} : Publisher ρ) events :=
  Transition.always_of_clean (fun _ => Inv.delivers) (fun _ _ _ h hkeeps hstep => h.step hkeeps hstep)
    inv_start

/-- What a client that connects goes through until it is ready. -/
def joins (index revision : Nat) : List (PublisherEvent Unit) :=
  [.connect, .connection index (.message (.hello PROTOCOL_VERSION)),
    .connection index (.snapshot (some revision)), .connection index (.sent true revision)]

/-- A second client whose hello is outdated when it is ready, and gets a snapshot of its own. -/
def joinsLate : List (PublisherEvent Unit) :=
  joins 0 0 ++ [.connect, .connection 1 (.message (.hello PROTOCOL_VERSION)),
    .connection 1 (.snapshot (some 0)), .request, .begin, .connection 1 (.sent true 1),
    .computed true, .send true, .finish]

theorem snapshots_delivered_late :
    Transition.Always step Delivers ({} : Publisher Unit)
      (joinsLate ++ [.connection 1 (.snapshot (some 1)), .request, .begin, .computed true, .send true,
        .send true, .finish]) :=
  snapshots_delivered _ (by decide +kernel)

/-- A broadcast is skipped while the hello is being sent. -/
def skipped : List (PublisherEvent Unit) :=
  [.connect, .connection 0 (.message (.hello PROTOCOL_VERSION)), .connection 0 (.snapshot (some 0)),
    .request, .begin, .connection 0 (.sent true 0)]

/-- A snapshot of a connection's own is sent after that of a later broadcast. -/
def overtaken : List (PublisherEvent Unit) :=
  joinsLate ++ [.request, .begin, .computed true, .send true, .send true, .finish, .connection 1 (.snapshot (some 1))]

/-- After a skipped broadcast a ready connection has a snapshot that is older than the request, and
a connection can get a snapshot of a lower revision than the one before. -/
theorem snapshots_not_delivered :
    ¬ Transition.Always step Delivers ({} : Publisher Unit) skipped ∧
      ¬ Transition.Always step Delivers ({} : Publisher Unit) overtaken := by
  constructor
  · intro h
    have hdelivers := h skipped (List.prefix_refl _) _ rfl
    obtain ⟨last, hlast, hfresh⟩ :=
      hdelivers.fresh ⟨rfl, rfl⟩ _ List.mem_cons_self (by decide)
    obtain rfl : (⟨0, 0⟩ : ServerSnapshot) = last := Option.some.inj hlast
    exact absurd hfresh (by decide)
  · intro h
    have hdelivers := h overtaken (List.prefix_refl _) _ rfl
    have hincreasing := hdelivers.increasing _ (List.mem_cons_of_mem _ List.mem_cons_self)
    exact absurd hincreasing (by decide)

end Publisher

end Mcpi.Server
