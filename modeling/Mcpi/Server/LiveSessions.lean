import Mcpi.Server.Handshake

/-!
# Live sessions

`sessions.ts`, with what `server.ts` tells it of a connection. An event is a request, a step of the
service, of a runtime or of a connection, or one of the steps in which an `async` function goes on
after an `await`. These may come late and in any order, with one exception: what waits for the same
microtask queue goes on in the order in which it got there, so the loop of `acquire` and the
continuation of `create` are `jobs`.
-/

namespace Mcpi.Server.Sessions

/-- `ConnectionState`: `transportClosed` is `connection.closed`. -/
structure ConnectionState where
  stage : ConnectionStage := .handshaking
  disconnected : Bool := false
  transportClosed : Bool := false
  sessionIds : List String := []
  deriving DecidableEq

/-- Where a call of the private `create` stands. -/
inductive CreationStage where
  /-- Awaits `acquireRuntime`. -/
  | calling
  /-- `acquireRuntime` has thrown. -/
  | rejected
  /-- `acquireRuntime` has returned, and `create` is about to go on. -/
  | opened
  | awaitingSnapshot
  /-- Awaits `dispose`, then throws. -/
  | discarding
  | discarded
  /-- The live session is returned. -/
  | live
  deriving DecidableEq

/-- A call of `create`. Its number stands for its promise, for the runtime and for the live session.
`idle` is whether the phase of the runtime is, `disposals` counts the calls of `dispose`, and
`disposed` is set when the one on a live session is settled. `waiters` are the requests that await
`disposing`. -/
structure Creation where
  id : String
  stage : CreationStage := .calling
  idle : Bool := false
  disposals : Nat := 0
  disposed : Bool := false
  connections : List Nat := []
  operationCount : Nat := 0
  terminal : Bool := false
  disposing : Bool := false
  waiters : List Nat := []
  deriving DecidableEq

/-- Where an attach or a create stands. -/
inductive RequestStage where
  /-- Awaits `existing.disposing`, or goes on after it. -/
  | awaitingDisposal
  /-- Awaits a promise of `openingSessions`, its own or another's. -/
  | awaitingOpening (creation : Nat) (own : Bool)
  /-- `acquire` has returned. -/
  | acquired (creation : Nat)
  /-- Attached, and awaits `broadcastSnapshot`. -/
  | awaitingSnapshot (creation : Nat)
  | failed
  | resolved
  deriving DecidableEq

/-- An attach or a create. -/
structure Request where
  connection : Nat
  stage : RequestStage
  deriving DecidableEq

/-- What is in the queue: the loop of `acquire` after a disposal, or `create` after
`acquireRuntime`. -/
inductive Job where
  | resume (id : String) (request : Nat)
  | opened (id : String) (creation : Nat)
  deriving DecidableEq

/-- An attach or a create that resolved, and what its live session and its connection were then. -/
structure Resolution where
  disconnected : Bool
  disposing : Bool
  terminal : Bool
  deriving DecidableEq

/-- `LiveSessionManager`. `closing` is the one of the server, `closeAwaits` are the promises that
`close` awaits, and `closed` is set when it has taken the live sessions. `resolutions` only records
what happened. -/
structure LiveSessionManager where
  connections : List ConnectionState := []
  creations : List Creation := []
  requests : List Request := []
  liveSessions : String → Option Nat := fun _ => none
  openingSessions : String → Option Nat := fun _ => none
  jobs : List Job := []
  closing : Bool := false
  closeAwaits : Option (List Nat) := none
  closed : Bool := false
  resolutions : List Resolution := []

namespace ConnectionState

/-- The server handles the requests of the connection. -/
def handlesRequests (connection : ConnectionState) : Bool :=
  !connection.disconnected && connection.stage = .ready

/-- What `attach` tests. -/
def attachable (connection : ConnectionState) : Bool :=
  connection.handlesRequests && !connection.transportClosed

end ConnectionState

namespace CreationStage

/-- The promise is not settled. -/
def pending : CreationStage → Bool
  | .calling | .opened | .awaitingSnapshot | .discarding => true
  | .rejected | .discarded | .live => false

/-- A runtime was opened. -/
def hasRuntime : CreationStage → Bool
  | .calling | .rejected => false
  | .opened | .awaitingSnapshot | .discarding | .discarded | .live => true

end CreationStage

namespace Creation

/-- A call of `acquireRuntime` is under way, or its runtime has not finished disposing. -/
def unfinished (creation : Creation) : Bool :=
  creation.stage.pending || creation.stage = .live && !creation.disposed

/-- `maybeDispose`, up to its first `await`. -/
def maybeDispose (closing : Bool) (live : Creation) : Creation :=
  if closing || live.stage ≠ .live || live.disposing || live.connections ≠ [] ||
      0 < live.operationCount || !live.terminal && !live.idle then live
  else { live with disposing := true, disposals := live.disposals + 1 }

end Creation

namespace LiveSessionManager

/-- Change a creation. -/
def setCreation (manager : LiveSessionManager) (k : Nat) (creation : Creation) :
    LiveSessionManager :=
  { manager with creations := manager.creations.set k creation }

/-- Change a request. -/
def setRequest (manager : LiveSessionManager) (r : Nat) (connection : Nat) (stage : RequestStage) :
    LiveSessionManager :=
  { manager with requests := manager.requests.set r { connection, stage } }

/-- Change a connection. -/
def setConnection (manager : LiveSessionManager) (c : Nat) (connection : ConnectionState) :
    LiveSessionManager :=
  { manager with connections := manager.connections.set c connection }

/-! ## `acquire` and `create` -/

/-- A turn of the loop of `acquire`. -/
def acquire (manager : LiveSessionManager) (id : String) (r connection : Nat) : LiveSessionManager :=
  match manager.liveSessions id with
  | some k =>
    match manager.creations[k]? with
    | some existing =>
      if existing.terminal then manager.setRequest r connection .failed
      else if existing.disposing then
        (manager.setCreation k { existing with waiters := existing.waiters ++ [r] }).setRequest
          r connection .awaitingDisposal
      else manager.setRequest r connection (.acquired k)
    | none => manager
  | none =>
    match manager.openingSessions id with
    | some opening => manager.setRequest r connection (.awaitingOpening opening false)
    | none =>
      let pending := manager.creations.length
      { manager with
        creations := manager.creations ++ [{ id }]
        openingSessions := Function.update manager.openingSessions id (some pending)
        requests := manager.requests.set r
          { connection, stage := .awaitingOpening pending true } }

/-- `acquire` starts. -/
def startAcquire (manager : LiveSessionManager) (id : String) (connection : Nat) :
    LiveSessionManager :=
  let request : Request := { connection, stage := .awaitingDisposal }
  ({ manager with requests := manager.requests ++ [request] } : LiveSessionManager).acquire id
    manager.requests.length connection

/-- `create`, after `acquireRuntime`. -/
def continueCreate (manager : LiveSessionManager) (k : Nat) (creation : Creation) :
    LiveSessionManager :=
  if manager.closing then
    manager.setCreation k
      { creation with stage := .discarding, disposals := creation.disposals + 1 }
  else manager.setCreation k { creation with stage := .awaitingSnapshot }

/-- `create`, after the snapshot: it goes well, or not. The runtime may report an error while it is
subscribed to. -/
def snapshotTaken (manager : LiveSessionManager) (k : Nat) (creation : Creation)
    (ok terminal : Bool) : LiveSessionManager :=
  if ok then
    { manager.setCreation k { creation with stage := .live, terminal } with
      liveSessions := Function.update manager.liveSessions creation.id (some k) }
  else
    manager.setCreation k
      { creation with stage := .discarding, disposals := creation.disposals + 1 }

/-- `acquire`, after the promise of `create`. The `finally` is that of the caller. -/
def openingSettled (manager : LiveSessionManager) (r connection k : Nat) (own : Bool)
    (creation : Creation) : Option LiveSessionManager :=
  if creation.stage.pending then none
  else
    let manager :=
      if own && manager.openingSessions creation.id = some k then
        { manager with openingSessions := Function.update manager.openingSessions creation.id none }
      else manager
    some (manager.setRequest r connection (if creation.stage = .live then .acquired k else .failed))

/-! ## `attach`, `detach` and `disconnect` -/

/-- `attach` -/
def attach (manager : LiveSessionManager) (r c k : Nat) (connection : ConnectionState)
    (live : Creation) : LiveSessionManager :=
  if connection.attachable then
    ((manager.setConnection c
      { connection with sessionIds := connection.sessionIds.insert live.id }).setCreation k
        { live with connections := live.connections.insert c }).setRequest r c (.awaitingSnapshot k)
  else (manager.setCreation k (live.maybeDispose manager.closing)).setRequest r c .failed

/-- An attach or a create goes on after `broadcastSnapshot`. -/
def resolve (manager : LiveSessionManager) (r c : Nat) (connection : ConnectionState)
    (live : Creation) : LiveSessionManager :=
  let resolution : Resolution :=
    { disconnected := connection.disconnected, disposing := live.disposing, terminal := live.terminal }
  { manager.setRequest r c .resolved with resolutions := manager.resolutions ++ [resolution] }

/-- Remove a connection from the live session of an id, which may be disposed then. -/
def removeConnection (manager : LiveSessionManager) (c : Nat) (ids : List String) : List Creation :=
  manager.creations.mapIdx fun k live =>
    if live.id ∈ ids ∧ manager.liveSessions live.id = some k then
      ({ live with connections := live.connections.filter (· ≠ c) } : Creation).maybeDispose
        manager.closing
    else live

/-- `detach`, up to its first `await`. It broadcasts a snapshot before it calls `maybeDispose` on a
session that still has connections. -/
def detach (manager : LiveSessionManager) (c : Nat) (connection : ConnectionState) (id : String) :
    LiveSessionManager :=
  if id ∈ connection.sessionIds then
    { manager.setConnection c
        { connection with sessionIds := connection.sessionIds.filter (· ≠ id) } with
      creations := manager.removeConnection c [id] }
  else manager

/-- `disconnect` of the server and the manager, up to their first `await`. -/
def disconnect (manager : LiveSessionManager) (c : Nat) (connection : ConnectionState) :
    LiveSessionManager :=
  if connection.disconnected then manager
  else
    { manager.setConnection c
        { connection with disconnected := true, stage := .closed, sessionIds := [] } with
      creations := manager.removeConnection c connection.sessionIds }

/-! ## Operations and disposal -/

/-- `requireAttached` and `runOperation`, up to its first `await`. -/
def startOperation (manager : LiveSessionManager) (connection : ConnectionState) (id : String) :
    LiveSessionManager :=
  match manager.liveSessions id with
  | some k =>
    match manager.creations[k]? with
    | some live =>
      if id ∈ connection.sessionIds ∧ live.terminal = false ∧ live.disposing = false then
        manager.setCreation k { live with operationCount := live.operationCount + 1 }
      else manager
    | none => manager
  | none => manager

/-- The `finally` of `runOperation`. -/
def finishOperation (manager : LiveSessionManager) (k : Nat) (live : Creation) :
    LiveSessionManager :=
  let live := { live with operationCount := live.operationCount - 1 }
  manager.setCreation k (live.maybeDispose manager.closing)

/-- `live.disposing` is settled, after its `finally`. -/
def disposed (manager : LiveSessionManager) (k : Nat) (live : Creation) (ok : Bool) :
    LiveSessionManager :=
  { manager.setCreation k { live with disposed := true, waiters := [] } with
    liveSessions :=
      if manager.liveSessions live.id = some k then
        Function.update manager.liveSessions live.id none
      else manager.liveSessions
    requests := manager.requests.mapIdx fun r request =>
      if r ∈ live.waiters ∧ ok = false then { request with stage := .failed } else request
    jobs := if ok then manager.jobs ++ live.waiters.map (.resume live.id) else manager.jobs }

/-- `close`, after the promises of `openingSessions`. -/
def continueClose (manager : LiveSessionManager) : LiveSessionManager :=
  { manager with
    creations := manager.creations.mapIdx fun k live =>
      if manager.liveSessions live.id = some k ∧ live.disposing = false then
        { live with disposals := live.disposals + 1 }
      else live
    liveSessions := fun _ => none
    closeAwaits := none
    closed := true }

/-- The promises that `close` awaits. -/
def openings (manager : LiveSessionManager) : List Nat :=
  (List.range manager.creations.length).filter fun k =>
    match manager.creations[k]? with
    | some creation => manager.openingSessions creation.id = some k
    | none => false

/-- They are settled. -/
def settled (manager : LiveSessionManager) (awaits : List Nat) : Bool :=
  awaits.all fun k =>
    match manager.creations[k]? with
    | some creation => !creation.stage.pending
    | none => true

end LiveSessionManager

/-! ## Events -/

/-- What can happen to the manager. Connections, requests and creations are given by their
numbers. -/
inductive Event where
  | accept
  /-- The handshake is complete. -/
  | ready (c : Nat)
  /-- The connection is closing, or its transport is closed. -/
  | closeConnection (c : Nat) (stage transport : Bool)
  | disconnect (c : Nat)
  /-- An attach or a create. -/
  | acquire (c : Nat) (id : String)
  /-- The next job goes on. -/
  | job
  | opened (k : Nat) (idle : Bool)
  | openFailed (k : Nat)
  | snapshotTaken (k : Nat) (ok terminal : Bool)
  /-- `create` throws after `dispose`. -/
  | discarded (k : Nat)
  | openingSettled (r : Nat)
  | attach (r : Nat)
  | resolve (r : Nat) (ok : Bool)
  | detach (c : Nat) (id : String)
  | startOperation (c : Nat) (id : String)
  | finishOperation (k : Nat)
  /-- A call of `maybeDispose`: after a snapshot or a progress of the runtime, a detach that
  broadcast a snapshot, or at the end of `terminate`. -/
  | maybeDispose (k : Nat)
  /-- `terminate`, up to its first `await`. -/
  | terminate (k : Nat)
  | phase (k : Nat) (idle : Bool)
  | disposed (k : Nat) (ok : Bool)
  /-- The `dispose` that `close` called is settled. -/
  | closeDisposed (k : Nat)
  /-- The server is closing. -/
  | closing
  /-- `close`, after all connections are disconnected. -/
  | close
  | continueClose
  deriving DecidableEq

namespace LiveSessionManager

/-- The manager after an event, if it can happen. -/
def step (manager : LiveSessionManager) : Event → Option LiveSessionManager
  | .accept =>
    if manager.closing then none
    else some { manager with connections := manager.connections ++ [{}] }
  | .ready c => do
      let connection ← manager.connections[c]?
      if connection.disconnected = false ∧ connection.stage = .handshaking then
        some (manager.setConnection c { connection with stage := .ready })
      else none
  | .closeConnection c stage transport => do
      let connection ← manager.connections[c]?
      some (manager.setConnection c
        { connection with
          stage := if stage && !connection.disconnected then .closing else connection.stage
          transportClosed := connection.transportClosed || transport })
  | .disconnect c => do some (manager.disconnect c (← manager.connections[c]?))
  | .acquire c id => do
      let connection ← manager.connections[c]?
      if connection.handlesRequests then some (manager.startAcquire id c) else none
  | .job =>
    match manager.jobs with
    | [] => none
    | .resume id r :: jobs => do
        some (({ manager with jobs } : LiveSessionManager).acquire id r (← manager.requests[r]?).connection)
    | .opened _ k :: jobs => do
        some (({ manager with jobs } : LiveSessionManager).continueCreate k (← manager.creations[k]?))
  | .opened k idle => do
      let creation ← manager.creations[k]?
      if creation.stage = .calling then
        some { manager.setCreation k { creation with stage := .opened, idle } with
          jobs := manager.jobs ++ [.opened creation.id k] }
      else none
  | .openFailed k => do
      let creation ← manager.creations[k]?
      if creation.stage = .calling then
        some (manager.setCreation k { creation with stage := .rejected })
      else none
  | .snapshotTaken k ok terminal => do
      let creation ← manager.creations[k]?
      if creation.stage = .awaitingSnapshot then
        some (manager.snapshotTaken k creation ok terminal)
      else none
  | .discarded k => do
      let creation ← manager.creations[k]?
      if creation.stage = .discarding then
        some (manager.setCreation k { creation with stage := .discarded })
      else none
  | .openingSettled r => do
      match ← manager.requests[r]? with
      | { connection, stage := .awaitingOpening k own } =>
        manager.openingSettled r connection k own (← manager.creations[k]?)
      | _ => none
  | .attach r => do
      match ← manager.requests[r]? with
      | { connection := c, stage := .acquired k } =>
        some (manager.attach r c k (← manager.connections[c]?) (← manager.creations[k]?))
      | _ => none
  | .resolve r ok => do
      match ← manager.requests[r]? with
      | { connection := c, stage := .awaitingSnapshot k } =>
        if ok then some (manager.resolve r c (← manager.connections[c]?) (← manager.creations[k]?))
        else some (manager.setRequest r c .failed)
      | _ => none
  | .detach c id => do
      let connection ← manager.connections[c]?
      if connection.handlesRequests then some (manager.detach c connection id) else none
  | .startOperation c id => do
      let connection ← manager.connections[c]?
      if connection.handlesRequests then some (manager.startOperation connection id) else none
  | .finishOperation k => do
      let live ← manager.creations[k]?
      if 0 < live.operationCount then some (manager.finishOperation k live) else none
  | .maybeDispose k => do
      let live ← manager.creations[k]?
      some (manager.setCreation k (live.maybeDispose manager.closing))
  | .terminate k => do
      let live ← manager.creations[k]?
      if live.stage = .live then some (manager.setCreation k { live with terminal := true }) else none
  | .phase k idle => do
      some (manager.setCreation k { ← manager.creations[k]? with idle })
  | .disposed k ok => do
      let live ← manager.creations[k]?
      if live.disposing = true ∧ live.disposed = false then some (manager.disposed k live ok) else none
  | .closeDisposed k => do
      let live ← manager.creations[k]?
      if manager.closed = true ∧ live.stage = .live ∧ live.disposing = false then
        some (manager.setCreation k { live with disposed := true })
      else none
  | .closing => some { manager with closing := true }
  | .close =>
    if manager.closing && manager.closeAwaits = none && manager.connections.all (·.disconnected) then
      some { manager with closeAwaits := some manager.openings }
    else none
  | .continueClose => do
      if manager.settled (← manager.closeAwaits) then some manager.continueClose else none

/-! ## What an event does -/

variable {manager manager' : LiveSessionManager}

/-- The ways in which an event can happen, and the manager after it. -/
inductive Moves (manager : LiveSessionManager) : Event → LiveSessionManager → Prop
  | accept (hopen : manager.closing = false) :
      Moves manager .accept { manager with connections := manager.connections ++ [{}] }
  | ready {c : Nat} {connection : ConnectionState} (hat : manager.connections[c]? = some connection)
      (hhandshaking : connection.disconnected = false ∧ connection.stage = .handshaking) :
      Moves manager (.ready c) (manager.setConnection c { connection with stage := .ready })
  | closeConnection {c : Nat} {connection : ConnectionState} (stage transport : Bool)
      (hat : manager.connections[c]? = some connection) :
      Moves manager (.closeConnection c stage transport) (manager.setConnection c
        { connection with
          stage := if stage && !connection.disconnected then .closing else connection.stage
          transportClosed := connection.transportClosed || transport })
  | disconnect {c : Nat} {connection : ConnectionState}
      (hat : manager.connections[c]? = some connection) :
      Moves manager (.disconnect c) (manager.disconnect c connection)
  | acquire {c : Nat} {connection : ConnectionState} (id : String)
      (hat : manager.connections[c]? = some connection) (hready : connection.handlesRequests = true) :
      Moves manager (.acquire c id) (manager.startAcquire id c)
  | resume {id : String} {r : Nat} {jobs : List Job} {request : Request}
      (hjobs : manager.jobs = .resume id r :: jobs) (hrequest : manager.requests[r]? = some request) :
      Moves manager .job (({ manager with jobs } : LiveSessionManager).acquire id r request.connection)
  | continueCreate {id : String} {k : Nat} {jobs : List Job} {creation : Creation}
      (hjobs : manager.jobs = .opened id k :: jobs) (hat : manager.creations[k]? = some creation) :
      Moves manager .job (({ manager with jobs } : LiveSessionManager).continueCreate k creation)
  | opened {k : Nat} {creation : Creation} (idle : Bool) (hat : manager.creations[k]? = some creation)
      (hstage : creation.stage = .calling) :
      Moves manager (.opened k idle)
        { manager.setCreation k { creation with stage := .opened, idle } with
          jobs := manager.jobs ++ [.opened creation.id k] }
  | openFailed {k : Nat} {creation : Creation} (hat : manager.creations[k]? = some creation)
      (hstage : creation.stage = .calling) :
      Moves manager (.openFailed k) (manager.setCreation k { creation with stage := .rejected })
  | snapshotTaken {k : Nat} {creation : Creation} (ok terminal : Bool)
      (hat : manager.creations[k]? = some creation) (hstage : creation.stage = .awaitingSnapshot) :
      Moves manager (.snapshotTaken k ok terminal) (manager.snapshotTaken k creation ok terminal)
  | discarded {k : Nat} {creation : Creation} (hat : manager.creations[k]? = some creation)
      (hstage : creation.stage = .discarding) :
      Moves manager (.discarded k) (manager.setCreation k { creation with stage := .discarded })
  | openingSettled {r c k : Nat} {own : Bool} {creation : Creation} {manager' : LiveSessionManager}
      (hrequest : manager.requests[r]? = some { connection := c, stage := .awaitingOpening k own })
      (hat : manager.creations[k]? = some creation)
      (hsettled : manager.openingSettled r c k own creation = some manager') :
      Moves manager (.openingSettled r) manager'
  | attach {r c k : Nat} {connection : ConnectionState} {live : Creation}
      (hrequest : manager.requests[r]? = some { connection := c, stage := .acquired k })
      (hconnection : manager.connections[c]? = some connection)
      (hlive : manager.creations[k]? = some live) :
      Moves manager (.attach r) (manager.attach r c k connection live)
  | resolve {r c k : Nat} {connection : ConnectionState} {live : Creation}
      (hrequest : manager.requests[r]? = some { connection := c, stage := .awaitingSnapshot k })
      (hconnection : manager.connections[c]? = some connection)
      (hlive : manager.creations[k]? = some live) :
      Moves manager (.resolve r true) (manager.resolve r c connection live)
  | resolveFailed {r c k : Nat}
      (hrequest : manager.requests[r]? = some { connection := c, stage := .awaitingSnapshot k }) :
      Moves manager (.resolve r false) (manager.setRequest r c .failed)
  | detach {c : Nat} {connection : ConnectionState} (id : String)
      (hat : manager.connections[c]? = some connection) (hready : connection.handlesRequests = true) :
      Moves manager (.detach c id) (manager.detach c connection id)
  | startOperation {c : Nat} {connection : ConnectionState} (id : String)
      (hat : manager.connections[c]? = some connection) (hready : connection.handlesRequests = true) :
      Moves manager (.startOperation c id) (manager.startOperation connection id)
  | finishOperation {k : Nat} {live : Creation} (hat : manager.creations[k]? = some live)
      (hcount : 0 < live.operationCount) :
      Moves manager (.finishOperation k) (manager.finishOperation k live)
  | maybeDispose {k : Nat} {live : Creation} (hat : manager.creations[k]? = some live) :
      Moves manager (.maybeDispose k) (manager.setCreation k (live.maybeDispose manager.closing))
  | terminate {k : Nat} {live : Creation} (hat : manager.creations[k]? = some live)
      (hstage : live.stage = .live) :
      Moves manager (.terminate k) (manager.setCreation k { live with terminal := true })
  | phase {k : Nat} {live : Creation} (idle : Bool) (hat : manager.creations[k]? = some live) :
      Moves manager (.phase k idle) (manager.setCreation k { live with idle })
  | disposed {k : Nat} {live : Creation} (ok : Bool) (hat : manager.creations[k]? = some live)
      (hdisposing : live.disposing = true) (hdisposed : live.disposed = false) :
      Moves manager (.disposed k ok) (manager.disposed k live ok)
  | closeDisposed {k : Nat} {live : Creation} (hat : manager.creations[k]? = some live)
      (hclosed : manager.closed = true) (hstage : live.stage = .live)
      (hdisposing : live.disposing = false) :
      Moves manager (.closeDisposed k) (manager.setCreation k { live with disposed := true })
  | closing : Moves manager .closing { manager with closing := true }
  | close (hclosing : manager.closing = true) (hfirst : manager.closeAwaits = none)
      (hgone : ∀ connection ∈ manager.connections, connection.disconnected = true) :
      Moves manager .close { manager with closeAwaits := some manager.openings }
  | continueClose {awaits : List Nat} (hawaits : manager.closeAwaits = some awaits)
      (hsettled : manager.settled awaits = true) :
      Moves manager .continueClose manager.continueClose

theorem moves_of_step {event : Event} (hstep : manager.step event = some manager') : manager.Moves event manager' := by
  -- what a step looks up and tests is what its move asks for
  cases event with
  | accept =>
    obtain ⟨hopen, ⟨⟩⟩ := Option.ite_none_left_eq_some.mp hstep
    exact .accept (eq_false_of_ne_true hopen)
  | ready c =>
    obtain ⟨connection, hat, hhandshaking, rfl⟩ := Transition.of_guarded hstep
    exact .ready hat hhandshaking
  | closeConnection c stage transport =>
    obtain ⟨connection, hat, hstep⟩ := Option.bind_eq_some_iff.mp hstep
    cases hstep
    exact .closeConnection stage transport hat
  | disconnect c =>
    obtain ⟨connection, hat, hstep⟩ := Option.bind_eq_some_iff.mp hstep
    cases hstep
    exact .disconnect hat
  | acquire c id =>
    obtain ⟨connection, hat, hready, rfl⟩ := Transition.of_guarded hstep
    exact .acquire id hat hready
  | job =>
    dsimp only [step] at hstep
    split at hstep
    · cases hstep
    next hjobs =>
      obtain ⟨request, hrequest, hstep⟩ := Option.bind_eq_some_iff.mp hstep
      cases hstep
      exact .resume hjobs hrequest
    next hjobs =>
      obtain ⟨creation, hat, hstep⟩ := Option.bind_eq_some_iff.mp hstep
      cases hstep
      exact .continueCreate hjobs hat
  | opened k idle =>
    obtain ⟨creation, hat, hstage, rfl⟩ := Transition.of_guarded hstep
    exact .opened idle hat hstage
  | openFailed k =>
    obtain ⟨creation, hat, hstage, rfl⟩ := Transition.of_guarded hstep
    exact .openFailed hat hstage
  | snapshotTaken k ok terminal =>
    obtain ⟨creation, hat, hstage, rfl⟩ := Transition.of_guarded hstep
    exact .snapshotTaken ok terminal hat hstage
  | discarded k =>
    obtain ⟨creation, hat, hstage, rfl⟩ := Transition.of_guarded hstep
    exact .discarded hat hstage
  | openingSettled r =>
    obtain ⟨request, hrequest, hstep⟩ := Option.bind_eq_some_iff.mp hstep
    split at hstep
    · obtain ⟨creation, hat, hstep⟩ := Option.bind_eq_some_iff.mp hstep
      exact .openingSettled hrequest hat hstep
    · cases hstep
  | attach r =>
    obtain ⟨request, hrequest, hstep⟩ := Option.bind_eq_some_iff.mp hstep
    split at hstep
    · obtain ⟨connection, hconnection, hstep⟩ := Option.bind_eq_some_iff.mp hstep
      obtain ⟨live, hlive, hstep⟩ := Option.bind_eq_some_iff.mp hstep
      cases hstep
      exact .attach hrequest hconnection hlive
    · cases hstep
  | resolve r ok =>
    obtain ⟨request, hrequest, hstep⟩ := Option.bind_eq_some_iff.mp hstep
    split at hstep
    · cases ok with
      | true =>
        obtain ⟨connection, hconnection, hstep⟩ := Option.bind_eq_some_iff.mp hstep
        obtain ⟨live, hlive, hstep⟩ := Option.bind_eq_some_iff.mp hstep
        cases hstep
        exact .resolve hrequest hconnection hlive
      | false =>
        cases hstep
        exact .resolveFailed hrequest
    · cases hstep
  | detach c id =>
    obtain ⟨connection, hat, hready, rfl⟩ := Transition.of_guarded hstep
    exact .detach id hat hready
  | startOperation c id =>
    obtain ⟨connection, hat, hready, rfl⟩ := Transition.of_guarded hstep
    exact .startOperation id hat hready
  | finishOperation k =>
    obtain ⟨live, hat, hcount, rfl⟩ := Transition.of_guarded hstep
    exact .finishOperation hat hcount
  | maybeDispose k =>
    obtain ⟨live, hat, hstep⟩ := Option.bind_eq_some_iff.mp hstep
    cases hstep
    exact .maybeDispose hat
  | terminate k =>
    obtain ⟨live, hat, hstage, rfl⟩ := Transition.of_guarded hstep
    exact .terminate hat hstage
  | phase k idle =>
    obtain ⟨live, hat, hstep⟩ := Option.bind_eq_some_iff.mp hstep
    cases hstep
    exact .phase idle hat
  | disposed k ok =>
    obtain ⟨live, hat, hdisposing, rfl⟩ := Transition.of_guarded hstep
    exact .disposed ok hat hdisposing.1 hdisposing.2
  | closeDisposed k =>
    obtain ⟨live, hat, hclosed, rfl⟩ := Transition.of_guarded hstep
    exact .closeDisposed hat hclosed.1 hclosed.2.1 hclosed.2.2
  | closing =>
    cases hstep
    exact .closing
  | close =>
    obtain ⟨hclose, ⟨⟩⟩ := Option.ite_none_right_eq_some.mp hstep
    simp only [Bool.and_eq_true, decide_eq_true_eq, List.all_eq_true] at hclose
    exact .close hclose.1.1 hclose.1.2 hclose.2
  | continueClose =>
    obtain ⟨awaits, hawaits, hsettled, rfl⟩ := Transition.of_guarded hstep
    exact .continueClose hawaits hsettled

end LiveSessionManager

end Mcpi.Server.Sessions
