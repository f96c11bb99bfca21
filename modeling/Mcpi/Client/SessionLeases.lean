import Mcpi.Client.LeaseInvariant

/-!
# Runs of session leases

The step lemma takes the events one by one. What an untimely event leaves is wrong in itself: a
lease of an earlier era is active, or the count is not the one of the leases.
-/

namespace Mcpi.Client

namespace PiClient

theorem Inv.step {client client' : PiClient} {event : Event} (h : client.Inv)
    (htimely : client.Timely event) (hstep : client.step event = some client') : client'.Inv := by
  cases event with
  | acquire mode =>
    cases hstep
    exact h.acquireSession mode
  | continueAcquire token =>
    obtain ⟨lease, hlease, hstep⟩ := Option.bind_eq_some_iff.mp hstep
    exact h.continueAcquire hlease (htimely lease hlease) hstep
  | created attached =>
    obtain ⟨-, ⟨⟩⟩ := Option.ite_none_right_eq_some.mp hstep
    exact h.created attached
  | continueCreate token =>
    obtain ⟨lease, hlease, hstep⟩ := Option.bind_eq_some_iff.mp hstep
    exact h.continueCreate hlease (htimely lease hlease) hstep
  | release token relinquishOnFailure =>
    obtain ⟨lease, hlease, hstep⟩ := Option.bind_eq_some_iff.mp hstep
    exact h.release hlease hstep
  | continueRelease token =>
    obtain ⟨lease, hlease, hstep⟩ := Option.bind_eq_some_iff.mp hstep
    exact h.continueRelease hlease (htimely lease hlease) hstep
  | releaseFailed token =>
    obtain ⟨lease, hlease, hstep⟩ := Option.bind_eq_some_iff.mp hstep
    exact h.releaseFailed hlease hstep
  | attachResponse attachment ok attached =>
    obtain ⟨-, ⟨⟩⟩ := Option.ite_none_right_eq_some.mp hstep
    exact h.frame rfl rfl rfl rfl rfl h.detaches
  -- The lease keeps the answer until its release goes on.
  | detachResponse token ok =>
    dsimp only [PiClient.step] at hstep
    split at hstep
    · rename_i mode era generation relinquishOnFailure hlease
      cases hstep
      have hdetached : ({ client with attached := client.attached && !ok } : PiClient).Inv :=
        h.frame rfl rfl rfl rfl rfl h.detaches
      exact hdetached.setWaiting hlease rfl rfl (.inr rfl)
    · cases hstep
  | reconcileResponse reconciliation ok =>
    dsimp only [PiClient.step] at hstep
    split at hstep
    · cases hstep
      exact h.frame rfl rfl rfl rfl rfl h.detaches
    · cases hstep
  | cleanedUp reconciliation =>
    dsimp only [PiClient.step] at hstep
    split at hstep
    · cases hstep
      exact h.frame rfl rfl rfl rfl rfl h.detaches
    · cases hstep
  | reconciled reconciliation =>
    dsimp only [PiClient.step] at hstep
    split at hstep
    · split at hstep
      · cases hstep
        exact h.frame rfl rfl rfl rfl rfl h.detaches
      · cases hstep
    · cases hstep
  | snapshot attached =>
    obtain ⟨-, ⟨⟩⟩ := Option.ite_none_right_eq_some.mp hstep
    exact h.frame rfl rfl rfl rfl rfl h.detaches
  | removed =>
    obtain ⟨-, ⟨⟩⟩ := Option.ite_none_right_eq_some.mp hstep
    exact h.handleRemoved
  | connected =>
    obtain ⟨-, ⟨⟩⟩ := Option.ite_none_right_eq_some.mp hstep
    exact h.frame rfl rfl rfl rfl rfl h.detaches
  | disconnected =>
    cases hstep
    exact h.handleDisconnected
  | dispose =>
    dsimp only [PiClient.step] at hstep
    split at hstep
    · cases hstep
      exact h
    · cases hstep
      exact h.handleDisconnected.frame rfl rfl rfl rfl rfl h.handleDisconnected.detaches

/-! ## Untimely events -/

section Untimely

variable {client client' : PiClient} {token : Nat} {lease : Lease}

theorem not_consistent_of_active (mode : SessionLeaseMode) {era : Nat} (hera : era ≠ client.era)
    (hmem : { mode, era, phase := .active client.generation } ∈ client.leases) :
    ¬ client.Consistent :=
  fun hconsistent => hera (hconsistent.current _ hmem rfl)

theorem not_consistent_createSessionLease (hlease : client.leases[token]? = some lease)
    (hera : lease.era ≠ client.era) : ¬ (client.createSessionLease token lease).Consistent := by
  have hlt := (List.getElem?_eq_some_iff.mp hlease).1
  exact not_consistent_of_active lease.mode hera (List.mem_of_getElem? (List.getElem?_set_self hlt))

/-- What is given back of an earlier era is missing from the count. -/
theorem not_consistent_giveBack (h : client.Inv) (hlease : client.leases[token]? = some lease)
    (hera : lease.era ≠ client.era) (hpos : client.count ≠ 0) :
    ¬ ((client.releaseSessionLease token).setLease token
      { lease with phase := .over }).Consistent := by
  intro hconsistent
  have hold : Lease.live client.era lease = false := by simp [Lease.live, hera]
  have hnew : Lease.live client.era { lease with phase := .over } = false := by
    simp [Lease.live, hera]
  have hset := countP_set_add (p := Lease.live client.era) hlease { lease with phase := .over }
  rw [hold, hnew, ← h.count] at hset
  have hcount : client.count - 1 = (client.leases.set token { lease with phase := .over }).countP
      (Lease.live client.era) := hconsistent.count
  simp at hset
  omega

theorem not_consistent_continueAcquire (h : client.Inv)
    (hlease : client.leases[token]? = some lease) (hera : lease.era ≠ client.era)
    (huntimely : client.completes lease = true ∨ client.givesBack lease = true ∧ client.count ≠ 0)
    (hstep : client.continueAcquire token lease = some client') : ¬ client'.Consistent := by
  unfold PiClient.continueAcquire at hstep
  split at hstep
  · rename_i detaching hphase
    have hcompletes : client.cleanupRequired = false ∧ client.attached = true := by
      simpa [completes, givesBack, hphase] using huntimely
    obtain ⟨-, ⟨⟩⟩ := Option.ite_none_right_eq_some.mp hstep
    rw [acquireReconciliation, acquireAttachment, hcompletes.1, hcompletes.2]
    exact not_consistent_createSessionLease hlease hera
  · rename_i reconciliation hphase
    split at hstep
    · rename_i hfinished
      simp [completes, givesBack, hphase, hfinished] at huntimely
    · have hpos : client.count ≠ 0 := by
        rcases huntimely with hcompletes | hgives
        · simp [completes, hphase] at hcompletes
        · exact hgives.2
      cases hstep
      exact not_consistent_giveBack h hlease hera hpos
    · cases hstep
  · rename_i attachment hphase
    have hcleared : ({ client with
        attachment := if client.attachment = some attachment then none else client.attachment } :
          PiClient).Inv := h.frame rfl rfl rfl rfl rfl h.detaches
    dsimp only at hstep
    split at hstep
    · cases hstep
      have hactive : ∀ attachment, ¬ (({ client with attachment } : PiClient).createSessionLease token
          lease).Consistent := fun _ => not_consistent_createSessionLease hlease hera
      exact hactive _
    · rename_i hfailed
      have hpos : client.count ≠ 0 := by
        rcases huntimely with hcompletes | hgives
        · simp [completes, hphase, hfailed] at hcompletes
        · exact hgives.2
      cases hstep
      exact not_consistent_giveBack hcleared hlease hera hpos
    · cases hstep
  · cases hstep

theorem not_consistent_continueCreate (hlease : client.leases[token]? = some lease)
    (hera : lease.era ≠ client.era) (hzero : client.count = 0)
    (hstep : client.continueCreate token lease = some client') : ¬ client'.Consistent := by
  have hlt := (List.getElem?_eq_some_iff.mp hlease).1
  unfold PiClient.continueCreate at hstep
  split at hstep
  · split at hstep
    · rename_i hfails
      simp [reservationFails, hzero] at hfails
    · cases hstep
      exact not_consistent_of_active .exclusive hera (List.mem_of_getElem? (List.getElem?_set_self hlt))
  · cases hstep

theorem not_consistent_continueRelease (h : client.Inv)
    (hlease : client.leases[token]? = some lease) (hera : lease.era ≠ client.era)
    (hgives : client.givesBack lease = true) (hpos : client.count ≠ 0)
    (hstep : client.continueRelease token lease = some client') : ¬ client'.Consistent := by
  have hsettled : ({ client with
      detachment := if client.detachment = some token then none else client.detachment } :
        PiClient).Inv := h.frame rfl rfl rfl rfl rfl h.detaches
  unfold PiClient.continueRelease at hstep
  dsimp only at hstep
  split at hstep
  · cases hstep
    exact not_consistent_giveBack hsettled hlease hera hpos
  · rename_i hphase
    simp [givesBack, hphase] at hgives
  · cases hstep

theorem Inv.not_consistent {event : Event} (h : client.Inv) (huntimely : ¬ client.Timely event)
    (hstep : client.step event = some client') : ¬ client'.Consistent := by
  cases event with
  | continueAcquire token =>
    obtain ⟨lease, hlease, hstep⟩ := Option.bind_eq_some_iff.mp hstep
    simp only [Timely, hlease, Option.some.injEq, forall_eq', Classical.not_imp, not_and_or,
      Bool.not_eq_false] at huntimely
    exact not_consistent_continueAcquire h hlease huntimely.1 huntimely.2 hstep
  | continueCreate token =>
    obtain ⟨lease, hlease, hstep⟩ := Option.bind_eq_some_iff.mp hstep
    simp only [Timely, hlease, Option.some.injEq, forall_eq', Classical.not_imp, Nat.not_lt, Nat.le_zero] at huntimely
    exact not_consistent_continueCreate hlease huntimely.1 huntimely.2 hstep
  | continueRelease token =>
    obtain ⟨lease, hlease, hstep⟩ := Option.bind_eq_some_iff.mp hstep
    simp only [Timely, hlease, Option.some.injEq, forall_eq', Classical.not_imp] at huntimely
    exact not_consistent_continueRelease h hlease huntimely.1 huntimely.2.1 huntimely.2.2 hstep
  | _ => exact absurd trivial huntimely

end Untimely

/-! ## Every run -/

/-- **Session leases are consistent** along exactly the runs all of whose events are timely. -/
theorem leases_consistent (events : List Event) (client : PiClient)
    (hrun : Transition.run step {} events = some client) :
    Transition.Always step Consistent {} events ↔ Transition.Clean step Timely {} events :=
  Transition.always_iff_clean (fun _ => Inv.consistent) (fun _ _ _ h => h.step)
    (fun _ _ _ h => h.not_consistent) Inv.start hrun

/-- Two shared leases, of which the last one released sends the request to detach. -/
def sharedRun : List Event :=
  [.connected, .acquire .shared, .attachResponse 0 true true, .continueAcquire 0, .acquire .shared,
    .release 0 false, .release 1 false, .detachResponse 1 true, .continueRelease 1]

/-- The theorem at that run. -/
theorem leases_consistent_shared : Transition.Always step Consistent {} sharedRun :=
  have hrun : (Transition.run step {} sharedRun).isSome = true := by decide
  (leases_consistent sharedRun _ (Option.some_get hrun).symm).mpr (by decide)

/-- The detachment of a disposed lease fails. The next acquire makes up for it, so a request to
detach is sent while its lease is reserved. -/
theorem detach_while_reserved :
    (Transition.run step {} [.connected, .acquire .shared, .attachResponse 0 true true,
      .continueAcquire 0, .release 0 true, .detachResponse 0 false, .continueRelease 0,
      .releaseFailed 0, .acquire .shared]).map PiClient.detaches =
    some [{ remaining := 0, cleanup := false }, { remaining := 1, cleanup := true }] := by
  decide

end PiClient

end Mcpi.Client
