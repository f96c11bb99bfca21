import Mcpi.Server.Handshake

/-!
# Snapshot broadcasts

`ServerSnapshotPublisher` and the connections it broadcasts to. Broadcasts are performed one after
another; one that finds no ready connection does nothing. A handshake computes a snapshot of its
own for the hello, and another one when the revision has changed by the time the connection is
ready.
-/

namespace Mcpi.Server

variable {ρ : Type}

/-- A snapshot, by its revision and by how many broadcasts had been requested when its computation
began. -/
structure ServerSnapshot where
  revision : Nat
  requested : Nat
  deriving DecidableEq

/-- A connection with its snapshots: the one that `snapshots.get` computes for its handshake, and
those that were sent, the last one at the end. -/
structure Client (ρ : Type) where
  state : ConnectionState ρ := {}
  snapshot : ServerSnapshot := ⟨0, 0⟩
  sent : List ServerSnapshot := []
  deriving DecidableEq

/-- A broadcast that is being performed, with the connections it has not come to. -/
structure Broadcast where
  snapshot : ServerSnapshot
  computed : Bool
  readyConnections : List Nat
  deriving DecidableEq

/-- The publisher and the connections of its server. Of the broadcasts that were requested some
have begun, and the others wait in the queue. -/
structure Publisher (ρ : Type) where
  connections : List (Client ρ) := []
  revision : Nat := 0
  requested : Nat := 0
  begun : Nat := 0
  broadcast : Option Broadcast := none
  closing : Bool := false
  deriving DecidableEq

/-- What can happen to the server. -/
inductive PublisherEvent (ρ : Type) where
  /-- A client connects. -/
  | connect
  /-- Something happens to a connection. -/
  | connection (index : Nat) (event : Event ρ)
  /-- `broadcast` is called. -/
  | request
  /-- `performBroadcast` begins. -/
  | begin
  /-- The snapshot of the broadcast is computed, or `listModels` or `listSessions` throws. -/
  | computed (computed : Bool)
  /-- The broadcast comes to its next connection, and the message can be sent to it or not. -/
  | send (sent : Bool)
  /-- The broadcast has come to all its connections. -/
  | finish
  /-- The server begins to close. -/
  | close
  deriving DecidableEq

/-! ## Connections -/

namespace ConnectionState

/-- `sendMessage` has somewhere to send a message to. -/
def reachable (state : ConnectionState ρ) : Bool := !state.disconnected && !state.transportClosed

/-- `connection.stage === "ready" && !connection.disconnected` -/
def isReady (state : ConnectionState ρ) : Bool := state.stage = .ready && !state.disconnected

end ConnectionState

/-- `snapshots.get` is called. -/
def startsSnapshot (before after : ConnectionState ρ) : Bool :=
  before.handshake ≠ after.handshake && (after.handshake = .snapshot || after.handshake = .current)

/-- The snapshot of the handshake is sent, with the hello or as an event. -/
def sendsSnapshot (before after : ConnectionState ρ) : Bool :=
  match before.handshake, after.handshake with
  | .snapshot, .hello _ => true
  | .current, .event => before.reachable
  | _, _ => false

/-- The revisions that an event carries are those of the snapshot and of the publisher. -/
def carries (publisher : Publisher ρ) (client : Client ρ) : Event ρ → Bool
  | .snapshot (some revision) => revision = client.snapshot.revision
  | .sent _ currentRevision => currentRevision = publisher.revision
  | .serverClosing => false
  | _ => true

/-- Something happens to a connection. -/
def Client.step (publisher : Publisher ρ) (client : Client ρ) (event : Event ρ) : Option (Client ρ) :=
  if carries publisher client event then
    (client.state.step event).map fun state =>
      { state := state
        snapshot :=
          if startsSnapshot client.state state then ⟨publisher.revision, publisher.requested⟩
          else client.snapshot
        sent :=
          if sendsSnapshot client.state state then client.sent ++ [client.snapshot]
          else client.sent }
  else none

/-- `sendMessage` of a broadcast: a message that cannot be sent closes the connection. -/
def Client.sendMessage (client : Client ρ) (snapshot : ServerSnapshot) (sent : Bool) : Client ρ :=
  if client.state.reachable then
    if sent then { client with sent := client.sent ++ [snapshot] }
    else { client with state := { client.state with transportClosed := true } }
  else client

/-! ## The publisher -/

namespace Publisher

/-- The ready connections, in the order they came. -/
def readyConnections (publisher : Publisher ρ) : List Nat :=
  (List.range publisher.connections.length).filter fun index =>
    publisher.connections[index]?.any fun client => client.state.isReady

/-- `performBroadcast`, up to its first `await`. -/
def performBroadcast (publisher : Publisher ρ) : Publisher ρ :=
  if publisher.readyConnections = [] || publisher.closing then
    { publisher with begun := publisher.begun + 1 }
  else
    { publisher with
      begun := publisher.begun + 1
      revision := publisher.revision + 1
      broadcast := some
        { snapshot := ⟨publisher.revision + 1, publisher.requested⟩
          computed := false
          readyConnections := publisher.readyConnections } }

/-- The state after an event, if it can happen. -/
def step (publisher : Publisher ρ) : PublisherEvent ρ → Option (Publisher ρ)
  | .connect => some { publisher with connections := publisher.connections ++ [{}] }
  | .connection index event =>
    match publisher.connections[index]? with
    | none => none
    | some client =>
      (client.step publisher event).map fun client =>
        { publisher with connections := publisher.connections.set index client }
  | .request => some { publisher with requested := publisher.requested + 1 }
  | .begin =>
    if publisher.broadcast = none && publisher.begun < publisher.requested then
      some publisher.performBroadcast
    else none
  | .computed computed =>
    match publisher.broadcast with
    | some broadcast =>
      if broadcast.computed then none
      else if computed then
        some { publisher with broadcast := some { broadcast with computed := true } }
      else some { publisher with broadcast := none }
    | none => none
  | .send sent =>
    match publisher.broadcast with
    | some broadcast =>
      match broadcast.computed, broadcast.readyConnections with
      | true, index :: rest =>
        some { publisher with
          connections := publisher.connections.modify index fun client =>
            client.sendMessage broadcast.snapshot sent
          broadcast := some { broadcast with readyConnections := rest } }
      | _, _ => none
    | none => none
  | .finish =>
    match publisher.broadcast with
    | some broadcast =>
      if broadcast.computed && broadcast.readyConnections = [] then
        some { publisher with broadcast := none }
      else none
    | none => none
  | .close =>
    some { publisher with
      closing := true
      connections := publisher.connections.map fun client =>
        { client with state := { client.state with serverClosing := true } } }

end Publisher

/-! ## What the broadcasts are for -/

/-- No broadcast is queued or being performed. -/
def Publisher.Settled (publisher : Publisher ρ) : Prop :=
  publisher.broadcast = none ∧ publisher.begun = publisher.requested

/-- A ready connection that can be reached, and waits for no snapshot of its own. -/
def Client.isServed (client : Client ρ) : Bool :=
  client.state.isReady && client.state.reachable && client.state.handshake ≠ .current

/-- The last snapshot of every connection is newer than all requests once the broadcasts have
settled, and the revisions that a connection gets increase. -/
structure Publisher.Delivers (publisher : Publisher ρ) : Prop where
  fresh : publisher.Settled → ∀ client ∈ publisher.connections, client.isServed = true →
    ∃ last, client.sent.getLast? = some last ∧ publisher.requested ≤ last.requested
  increasing : ∀ client ∈ publisher.connections, client.sent.Pairwise fun a b => a.revision < b.revision

/-- The snapshot of the hello is computed or being sent. -/
def Client.isHandshaking (client : Client ρ) : Bool :=
  client.state.stage = .handshaking &&
    match client.state.handshake with
    | .snapshot | .hello _ => true
    | _ => false

/-- No broadcast is skipped while a connection is handshaking or ready, none is sent to a connection
that still waits for a snapshot of its own, and none fails. -/
def Publisher.KeepsUp (publisher : Publisher ρ) : PublisherEvent ρ → Prop
  | .begin => publisher.readyConnections = [] ∨ publisher.closing = true →
      ∀ client ∈ publisher.connections, client.isHandshaking = false ∧ client.state.isReady = false
  | .send _ => ∀ broadcast ∈ publisher.broadcast,
      ∀ index ∈ broadcast.readyConnections.head?, ∀ client ∈ publisher.connections[index]?,
        client.state.reachable = true → client.state.handshake ≠ .current
  | .computed computed => computed = true
  | .connect | .connection .. | .request | .finish | .close => True

instance (publisher : Publisher ρ) : ∀ event, Decidable (publisher.KeepsUp event)
  | .begin => inferInstanceAs (Decidable (_ ∨ _ → _))
  | .send _ => inferInstanceAs (Decidable (∀ broadcast ∈ publisher.broadcast,
      ∀ index ∈ broadcast.readyConnections.head?, ∀ client ∈ publisher.connections[index]?,
        client.state.reachable = true → client.state.handshake ≠ .current))
  | .computed computed => inferInstanceAs (Decidable (computed = true))
  | .connect | .connection .. | .request | .finish | .close => .isTrue trivial

end Mcpi.Server
