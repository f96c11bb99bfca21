import Mcpi.Lib.Transition

/-!
# The handshake of a connection

`server.ts`, from the arrival of a message to the start of `handleRequest`. Requests that arrive
during the handshake wait for its promise. An event is what happens between two turns of the
event loop, or a microtask: a message arrives, something that the handshake awaits completes,
the callbacks of its promise run, or the connection is closed from elsewhere.
-/

namespace Mcpi.Server

/-- `ConnectionStage` -/
inductive ConnectionStage where
  | awaitingHello
  | handshaking
  | ready
  | closing
  | closed
  deriving DecidableEq

/-- `PROTOCOL_VERSION` -/
def PROTOCOL_VERSION : Nat := 1

/-- `isSupportedProtocolVersion` -/
def isSupportedProtocolVersion (version : Nat) : Bool := version = PROTOCOL_VERSION

/-- `ClientMessage`, with the requests of type `ρ`. -/
inductive ClientMessage (ρ : Type) where
  | hello (version : Nat)
  | request (envelope : ρ)
  deriving DecidableEq

/-- What `finishHandshake` awaits. It has returned once its promise is settled. -/
inductive Handshake where
  | none
  | snapshot
  | hello (revision : Nat)
  | current
  | event
  | failure
  | returned
  deriving DecidableEq

/-- A request and how many came before it. -/
abbrev Arrival (ρ : Type) := Nat × ρ

/-- `ConnectionState`, with what the server knows about it: `transportClosed` is
`connection.closed`, `serverClosing` is `closing` of the server, and `waiting` has the callbacks on
the promise of the handshake. `arrived` and `begun` record what happened. -/
structure ConnectionState (ρ : Type) where
  stage : ConnectionStage := .awaitingHello
  disconnected : Bool := false
  handshakeComplete : Bool := false
  handshake : Handshake := .none
  transportClosed : Bool := false
  serverClosing : Bool := false
  waiting : List (Arrival ρ) := []
  arrived : List (Arrival ρ) := []
  begun : List (Arrival ρ) := []
  deriving DecidableEq

namespace ConnectionState

variable {ρ : Type}

/-- `isTerminalConnection` -/
def isTerminalConnection (state : ConnectionState ρ) : Bool :=
  state.disconnected || state.stage = .closing || state.stage = .closed

/-- `failProtocol`, up to its first `await`. -/
def failProtocol (state : ConnectionState ρ) : ConnectionState ρ :=
  if state.isTerminalConnection then state else { state with stage := .closing }

/-- `disconnect`, up to its first `await`. -/
def disconnect (state : ConnectionState ρ) : ConnectionState ρ :=
  if state.disconnected then state else { state with disconnected := true, stage := .closed }

/-- `finishHandshake`, up to its first `await`. -/
def startHandshake (state : ConnectionState ρ) (version : Nat) : ConnectionState ρ :=
  if isSupportedProtocolVersion version then
    { state with stage := .handshaking, handshake := .snapshot }
  else failProtocol { state with stage := .handshaking, handshake := .failure }

/-- `dispatchMessage` -/
def dispatchMessage (state : ConnectionState ρ) (message : ClientMessage ρ) : ConnectionState ρ :=
  match message with
  | .hello version =>
    if state.stage = .awaitingHello then state.startHandshake version else state.failProtocol
  | .request envelope =>
    let arrival := (state.arrived.length, envelope)
    let state := { state with arrived := state.arrived ++ [arrival] }
    match state.stage with
    | .awaitingHello => state.failProtocol
    | .ready => { state with begun := state.begun ++ [arrival] }
    | .handshaking => { state with waiting := state.waiting ++ [arrival] }
    | .closing | .closed => state

/-- A message of the loop in `receive`. -/
def receive (state : ConnectionState ρ) (message : ClientMessage ρ) : ConnectionState ρ :=
  if state.isTerminalConnection then state else state.dispatchMessage message

/-- `finishHandshake`, after the first snapshot. -/
def sendHello (state : ConnectionState ρ) (revision : Nat) : ConnectionState ρ :=
  if state.serverClosing || state.disconnected || state.stage ≠ .handshaking || state.transportClosed then
    { state with handshake := .returned }
  else { state with handshake := .hello revision }

/-- `finishHandshake`, after the hello is sent. -/
def becomeReady (state : ConnectionState ρ) (sent : Bool) (revision currentRevision : Nat) : ConnectionState ρ :=
  if sent && !state.disconnected && state.stage = .handshaking then
    let state := { state with handshakeComplete := true, stage := .ready }
    if revision ≠ currentRevision then { state with handshake := .current }
    else { state with handshake := .returned }
  else { state with handshake := .returned }

/-- The callbacks on the promise of the handshake. -/
def runCallbacks (state : ConnectionState ρ) : ConnectionState ρ :=
  if state.stage = .ready && !state.disconnected then
    { state with begun := state.begun ++ state.waiting, waiting := [] }
  else { state with waiting := [] }

end ConnectionState

/-- What can happen to a connection. -/
inductive Event (ρ : Type) where
  /-- A message of a chunk arrives. -/
  | message (message : ClientMessage ρ)
  /-- The chunk is no message, or the handshake takes too long. -/
  | protocolFailure
  /-- `snapshots.get` returns a snapshot of some revision, or throws. -/
  | snapshot (revision : Option Nat)
  /-- `sendMessage` returns, at some current revision. -/
  | sent (sent : Bool) (currentRevision : Nat)
  /-- `failProtocol` returns to the handshake. -/
  | failed
  /-- The callbacks on the promise of the handshake run. -/
  | callbacks
  /-- `disconnect` is called. -/
  | disconnect
  /-- The transport is closed. -/
  | transportClosed
  /-- The server begins to close. -/
  | serverClosing
  /-- The server closes its connections. -/
  | closeServerState
  deriving DecidableEq

namespace ConnectionState

variable {ρ : Type}

/-- The state after an event, if it can happen. `sendMessage` returns `false` only on a connection
that is disconnected or closed. -/
def step (state : ConnectionState ρ) : Event ρ → Option (ConnectionState ρ)
  | .message message => some (state.receive message)
  | .protocolFailure => some state.failProtocol
  | .snapshot (some revision) =>
    match state.handshake with
    | .snapshot => some (state.sendHello revision)
    | .current => some { state with handshake := .event }
    | _ => none
  | .snapshot none =>
    if state.handshake = .snapshot || state.handshake = .current then
      some { state.failProtocol with handshake := .failure }
    else none
  | .sent sent currentRevision =>
    if sent || state.disconnected || state.transportClosed then
      match state.handshake with
      | .hello revision => some (state.becomeReady sent revision currentRevision)
      | .event => some { state with handshake := .returned }
      | _ => none
    else none
  | .failed =>
    if state.handshake = .failure then some { state with handshake := .returned } else none
  | .callbacks => if state.handshake = .returned then some state.runCallbacks else none
  | .disconnect => some state.disconnect
  | .transportClosed => some { state with transportClosed := true }
  | .serverClosing => some { state with serverClosing := true }
  | .closeServerState =>
    if state.serverClosing then
      some (if state.disconnected then state else { state with stage := .closing })
    else none

end ConnectionState

end Mcpi.Server
