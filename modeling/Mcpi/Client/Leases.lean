import Mcpi.Lib.Transition

/-!
# Session leases

`client.ts`, as one session sees it: everything here is kept for each session id. An event is a
call, a message of the server, a change of the connection, or one of the steps in which an
`async` function goes on after an `await`. What it awaits may have been settled long before.
-/

namespace Mcpi.Client

/-- `SessionLeaseMode` -/
inductive SessionLeaseMode where
  | shared
  | exclusive
  deriving DecidableEq

/-- How a request ended, if it did. -/
abbrev Outcome := Option Bool

/-- Where the call stands that a lease belongs to. A generation is the one its closures have. -/
inductive LeasePhase where
  /-- `acquireSession` awaits the detachment of another lease. -/
  | awaitingDetachment (lease : Nat)
  /-- `acquireSession` awaits a reconciliation. -/
  | awaitingReconciliation (reconciliation : Nat)
  /-- `acquireSession` awaits an attachment. -/
  | awaitingAttachment (attachment : Nat)
  /-- `createSession` has its response, but has not gone on. -/
  | created
  | active (generation : Nat)
  /-- Releasing, with a request to detach. -/
  | detaching (generation : Nat) (relinquishOnFailure : Bool) (outcome : Outcome)
  /-- Releasing, after the request has failed. -/
  | failing (generation : Nat) (relinquishOnFailure : Bool)
  /-- The call has failed, or the lease is released or invalidated. -/
  | over
  deriving DecidableEq

/-- A lease, which its number in the list stands for as `SessionLeaseToken`. The era is the one in
which it was reserved, or in which the response to `create` arrived. -/
structure Lease where
  mode : SessionLeaseMode
  era : Nat
  phase : LeasePhase
  deriving DecidableEq

/-- A promise of `#reconcileSessionCleanup`. -/
structure Reconciliation where
  outcome : Outcome
  cleared : Bool := false
  finished : Bool := false
  deriving DecidableEq

/-- A request to detach that was sent: how many leases of the era remained, and whether it makes up
for an earlier one. -/
structure DetachRequest where
  remaining : Nat
  cleanup : Bool
  deriving DecidableEq

/-- `PiClient`, for one session. `count` is its entry in `#sessionLeaseCounts`, or zero. An era ends
when the session is removed or the connection is lost; `era` and `detaches` only record that. -/
structure PiClient where
  connected : Bool := false
  disposed : Bool := false
  attached : Bool := false
  count : Nat := 0
  exclusive : Option Nat := none
  generation : Nat := 0
  attachment : Option Nat := none
  detachment : Option Nat := none
  cleanupRequired : Bool := false
  reconciliation : Option Nat := none
  attachments : List Outcome := []
  reconciliations : List Reconciliation := []
  leases : List Lease := []
  era : Nat := 0
  detaches : List DetachRequest := []
  deriving DecidableEq

/-- The phases of a lease that is reserved, active or releasing. -/
def LeasePhase.live : LeasePhase → Bool
  | .created | .over => false
  | _ => true

/-- A lease of an era that is reserved, active or releasing. -/
def Lease.live (era : Nat) (lease : Lease) : Bool := lease.era = era && lease.phase.live

namespace PiClient

/-! ## Reserving and releasing -/

/-- Put a lease where another was. -/
def setLease (client : PiClient) (token : Nat) (lease : Lease) : PiClient :=
  { client with leases := client.leases.set token lease }

/-- A promise of `#request`. -/
def request (client : PiClient) : Outcome :=
  if client.connected && !client.disposed then none else some false

/-- `#reserveSessionLease`, where it throws. -/
def reservationFails (client : PiClient) (mode : SessionLeaseMode) : Bool :=
  match mode with
  | .exclusive => 0 < client.count
  | .shared => client.exclusive.isSome

/-- `#reserveSessionLease`, where it does not throw. -/
def reserveSessionLease (client : PiClient) (mode : SessionLeaseMode) (token : Nat) : PiClient :=
  { client with
    count := client.count + 1
    exclusive := if mode = .exclusive then some token else client.exclusive }

/-- `#releaseSessionLease` -/
def releaseSessionLease (client : PiClient) (token : Nat) : PiClient :=
  { client with
    count := client.count - 1
    exclusive := if client.exclusive = some token then none else client.exclusive }

/-- `#invalidateSessionLeases` -/
def invalidateSessionLeases (client : PiClient) : PiClient :=
  { client with
    count := 0, exclusive := none, cleanupRequired := false, generation := client.generation + 1 }

/-- `#invalidateAllSessionLeases` -/
def invalidateAllSessionLeases (client : PiClient) : PiClient :=
  if 0 < client.count then client.invalidateSessionLeases
  else { client with cleanupRequired := false }

/-! ## `acquireSession` -/

/-- `#createSessionLease` -/
def createSessionLease (client : PiClient) (token : Nat) (lease : Lease) : PiClient :=
  client.setLease token { lease with phase := .active client.generation }

/-- The `catch` of `acquireSession`. -/
def failAcquire (client : PiClient) (token : Nat) (lease : Lease) : PiClient :=
  (client.releaseSessionLease token).setLease token { lease with phase := .over }

/-- `acquireSession`, from the test for an attachment on. -/
def acquireAttachment (client : PiClient) (token : Nat) (lease : Lease) (reconciled : Bool) :
    PiClient :=
  if reconciled || !client.attached then
    match client.attachment with
    | some attachment =>
      client.setLease token { lease with phase := .awaitingAttachment attachment }
    | none =>
      let attachment := client.attachments.length
      ({ client with
        attachment := some attachment
        attachments := client.attachments ++ [client.request] }).setLease token
          { lease with phase := .awaitingAttachment attachment }
  else client.createSessionLease token lease

/-- `acquireSession`, from the reconciliation on. -/
def acquireReconciliation (client : PiClient) (token : Nat) (lease : Lease) : PiClient :=
  if client.cleanupRequired then
    match client.reconciliation with
    | some reconciliation =>
      client.setLease token { lease with phase := .awaitingReconciliation reconciliation }
    | none =>
      let reconciliation := client.reconciliations.length
      let pending : Reconciliation := { outcome := client.request }
      let detach : DetachRequest :=
        { remaining := client.leases.countP (Lease.live client.era), cleanup := true }
      ({ client with
        reconciliation := some reconciliation
        reconciliations := client.reconciliations ++ [pending]
        detaches := if pending.outcome = none then client.detaches ++ [detach] else client.detaches
        }).setLease token
            { lease with phase := .awaitingReconciliation reconciliation }
  else client.acquireAttachment token lease false

/-- `acquireSession`, after the reservation. -/
def acquireReserved (client : PiClient) (token : Nat) (lease : Lease) : PiClient :=
  match client.detachment with
  | some detaching => client.setLease token { lease with phase := .awaitingDetachment detaching }
  | none => client.acquireReconciliation token lease

/-- `acquireSession`, up to its first `await`. -/
def acquireSession (client : PiClient) (mode : SessionLeaseMode) : PiClient :=
  if client.disposed || client.reservationFails mode then client
  else
    let token := client.leases.length
    let lease : Lease := { mode, era := client.era, phase := .active client.generation }
    ({ client.reserveSessionLease mode token with
      leases := client.leases ++ [lease] }).acquireReserved token lease

/-- The request to detach of a lease is settled. -/
def detachmentSettled (client : PiClient) (token : Nat) : Bool :=
  match client.leases[token]? with
  | some { phase := .detaching _ _ none, .. } => false
  | _ => true

/-- `acquireSession` goes on, if what it awaits is settled. -/
def continueAcquire (client : PiClient) (token : Nat) (lease : Lease) : Option PiClient :=
  match lease.phase with
  | .awaitingDetachment detaching =>
    if client.detachmentSettled detaching then some (client.acquireReconciliation token lease)
    else none
  | .awaitingReconciliation reconciliation =>
    match client.reconciliations[reconciliation]? with
    | some { outcome := some true, finished := true, .. } =>
      some (client.acquireAttachment token lease true)
    | some { outcome := some false, finished := true, .. } => some (client.failAcquire token lease)
    | _ => none
  | .awaitingAttachment attachment =>
    let client := { client with
      attachment := if client.attachment = some attachment then none else client.attachment }
    match client.attachments[attachment]? with
    | some (some true) => some (client.createSessionLease token lease)
    | some (some false) => some (client.failAcquire token lease)
    | _ => none
  | _ => none

/-! ## `createSession` -/

/-- `createSession`, after its response. -/
def continueCreate (client : PiClient) (token : Nat) (lease : Lease) : Option PiClient :=
  match lease.phase with
  | .created =>
    if client.reservationFails .exclusive then
      some (client.setLease token { lease with phase := .over })
    else
      some ((client.reserveSessionLease .exclusive token).createSessionLease token
        { lease with mode := .exclusive })
  | _ => none

/-! ## Releasing a lease -/

/-- `release`, up to its first `await`. -/
def release (client : PiClient) (token : Nat) (lease : Lease) (relinquishOnFailure : Bool) : Option PiClient :=
  match lease.phase with
  | .active generation =>
    if generation ≠ client.generation then
      some (client.setLease token { lease with phase := .over })
    else if client.disposed || !client.connected || !client.attached then some client
    else if client.count ≤ 1 then
      let detach : DetachRequest :=
        { remaining := client.leases.countP (Lease.live client.era) - 1, cleanup := false }
      some (({ client with
        detachment := some token
        detaches := client.detaches ++ [detach] }).setLease token
          { lease with phase := .detaching generation relinquishOnFailure none })
    else
      some ((client.releaseSessionLease token).setLease token { lease with phase := .over })
  | .detaching .. | .failing .. | .over => some client
  | _ => none

/-- `release` goes on, after its request to detach. -/
def continueRelease (client : PiClient) (token : Nat) (lease : Lease) : Option PiClient :=
  let settled := { client with
    detachment := if client.detachment = some token then none else client.detachment }
  match lease.phase with
  | .detaching _ _ (some true) =>
    some ((settled.releaseSessionLease token).setLease token { lease with phase := .over })
  | .detaching generation relinquishOnFailure (some false) =>
    some (settled.setLease token { lease with phase := .failing generation relinquishOnFailure })
  | _ => none

/-- The `catch` of `release`. -/
def releaseFailed (client : PiClient) (token : Nat) (lease : Lease) : Option PiClient :=
  match lease.phase with
  | .failing generation relinquishOnFailure =>
    if generation ≠ client.generation then
      some (client.setLease token { lease with phase := .over })
    else if relinquishOnFailure then
      some (({ client.releaseSessionLease token with cleanupRequired := true }).setLease token
        { lease with phase := .over })
    else some (client.setLease token { lease with phase := .active generation })
  | _ => none

/-! ## The connection -/

/-- A pending request is rejected. -/
def reject (outcome : Outcome) : Outcome := some (outcome.getD false)

/-- The same for the request of a release. -/
def rejectLease (lease : Lease) : Lease :=
  match lease.phase with
  | .detaching generation relinquishOnFailure outcome =>
    { lease with phase := .detaching generation relinquishOnFailure (reject outcome) }
  | _ => lease

/-- `#rejectPendingRequests` -/
def rejectPendingRequests (client : PiClient) : PiClient :=
  { client with
    attachments := client.attachments.map reject
    reconciliations := client.reconciliations.map fun r => { r with outcome := reject r.outcome }
    leases := client.leases.map rejectLease }

/-- `#handleConnectionStateChange`, when the connection is lost. -/
def handleDisconnected (client : PiClient) : PiClient :=
  ({ client with connected := false, attached := false, era := client.era + 1
    }).invalidateAllSessionLeases.rejectPendingRequests

/-- The session is removed. -/
def handleRemoved (client : PiClient) : PiClient :=
  { client.invalidateSessionLeases with attached := false, era := client.era + 1 }

end PiClient

/-! ## Events -/

/-- What can happen to the client. `attached` is what the snapshot of the session in a message leads
to; leases, attachments and reconciliations are given by their numbers. -/
inductive Event where
  | acquire (mode : SessionLeaseMode)
  | continueAcquire (token : Nat)
  | created (attached : Bool)
  | continueCreate (token : Nat)
  | release (token : Nat) (relinquishOnFailure : Bool)
  | continueRelease (token : Nat)
  | releaseFailed (token : Nat)
  | attachResponse (attachment : Nat) (ok attached : Bool)
  | detachResponse (token : Nat) (ok : Bool)
  | reconcileResponse (reconciliation : Nat) (ok : Bool)
  | cleanedUp (reconciliation : Nat)
  | reconciled (reconciliation : Nat)
  | snapshot (attached : Bool)
  | removed
  | connected
  | disconnected
  | dispose
  deriving DecidableEq

namespace PiClient

/-- The client after an event, if it can happen. -/
def step (client : PiClient) : Event → Option PiClient
  | .acquire mode => some (client.acquireSession mode)
  | .continueAcquire token => do client.continueAcquire token (← client.leases[token]?)
  | .created attached =>
    if client.connected then
      some { client with
        attached
        leases := client.leases ++ [{ mode := .exclusive, era := client.era, phase := .created }] }
    else none
  | .continueCreate token => do client.continueCreate token (← client.leases[token]?)
  | .release token relinquishOnFailure => do
      client.release token (← client.leases[token]?) relinquishOnFailure
  | .continueRelease token => do client.continueRelease token (← client.leases[token]?)
  | .releaseFailed token => do client.releaseFailed token (← client.leases[token]?)
  | .attachResponse attachment ok attached =>
    if client.attachments[attachment]? = some none then
      some { client with
        attachments := client.attachments.set attachment (some ok)
        attached := if ok then attached else client.attached }
    else none
  | .detachResponse token ok =>
    match client.leases[token]? with
    | some { mode, era, phase := .detaching generation relinquishOnFailure none } =>
      some ({ client with attached := client.attached && !ok }.setLease token
        { mode, era, phase := .detaching generation relinquishOnFailure (some ok) })
    | _ => none
  | .reconcileResponse reconciliation ok =>
    match client.reconciliations[reconciliation]? with
    | some { outcome := none, .. } =>
      some { client with
        reconciliations := client.reconciliations.set reconciliation { outcome := some ok }
        attached := client.attached && !ok }
    | _ => none
  | .cleanedUp reconciliation =>
    match client.reconciliations[reconciliation]? with
    | some { outcome := some true, cleared := false, .. } =>
      some { client with
        reconciliations := client.reconciliations.set reconciliation
          { outcome := some true, cleared := true }
        cleanupRequired := false }
    | _ => none
  | .reconciled reconciliation =>
    match client.reconciliations[reconciliation]? with
    | some { outcome := some ok, cleared, finished := false } =>
      if cleared = ok then
        some { client with
          reconciliations := client.reconciliations.set reconciliation
            { outcome := some ok, cleared, finished := true }
          reconciliation := none }
      else none
    | _ => none
  | .snapshot attached => if client.connected then some { client with attached } else none
  | .removed => if client.connected then some client.handleRemoved else none
  | .connected =>
    if !client.connected && !client.disposed then
      some { client with connected := true, attached := false }
    else none
  | .disconnected => some client.handleDisconnected
  | .dispose =>
    if client.disposed then some client
    else some { client.handleDisconnected with disposed := true }

end PiClient

end Mcpi.Client
