import HarddriveParty.Shared.AnnounceAddress
import HarddriveParty.Shared.UiMessages
import HarddriveParty.Wishlist.Records
import Mathlib.Data.Finset.Basic
import Mathlib.Data.List.AList

/-!
# The connections of a node

Model of what `handle_connection` (`src/connections/mod.rs`), `connect_to_peer` and
`disconnect_peer` (`src/lib.rs`) do to the state they share. Each task is cut where it takes
a lock or awaits: a step runs one task from one such place to the next, and the steps of the
tasks interleave in any order. QUIC connections are named by their stable ids; what an await
gives, and when a connection is lost, are inputs.
-/

namespace HarddriveParty

/-- How a peer was found (`src/connections/discovery/mod.rs:44`). -/
inductive DiscoveryMethod where
  | direct
  | gossip
  | mdns
  deriving DecidableEq, Repr

/-- A peer to connect to, for the discovery task (`src/connections/discovery/mod.rs:481`). -/
structure PeerConnect where
  discoveryMethod : DiscoveryMethod
  announceAddress : AnnounceAddress
  deriving DecidableEq, Repr

/-- Why an end of a connection is closed, the part of `quinn::ConnectionError` that the node
causes or sees. -/
inductive ConnectionError where
  | locallyClosed (reason : String)
  | applicationClosed (reason : String)
  | lost
  deriving DecidableEq, Repr

/-- A connected peer (`src/peer.rs:52`). -/
structure Peer where
  connection : Nat
  publicKey : PublicKey
  announceAddress : Option AnnounceAddress
  deriving DecidableEq, Repr

/-- The part of the shared state (`src/lib.rs:63`) that connections use. The known peers are
those of `src/connections/known_peers.rs`, by name. -/
structure SharedState where
  peers : AList fun _ : String ↦ Peer
  knownPeers : AList fun _ : String ↦ PeerConnectionDetails
  announceAddress : AnnounceAddress
  shuttingDown : Bool
  manuallyDisconnectedPeers : Finset String
  pendingOutboundConnections : Finset String

/-- `KnownPeers::add_peer` (`src/connections/known_peers.rs:18`). -/
def SharedState.addKnownPeer (state : SharedState) (address : AnnounceAddress) : SharedState :=
  { state with knownPeers := state.knownPeers.insert address.name address.connectionDetails }

@[simp] theorem SharedState.addKnownPeer_peers (state : SharedState) (address : AnnounceAddress) :
    (state.addKnownPeer address).peers = state.peers :=
  rfl

/-- The shared state, the node's ends of its connections, and what the tasks have sent: UI
events, peers to connect to, and announce messages with their connection. -/
structure NodeState extends SharedState where
  closeReason : Nat → Option ConnectionError
  events : List UiEvent
  peerConnects : List PeerConnect
  announced : List (Nat × AnnounceAddress)

namespace NodeState

/-- The end of a connection closes, unless it has closed before. -/
def setClosed (node : NodeState) (conn : Nat) (error : ConnectionError) : NodeState :=
  match node.closeReason conn with
  | none => { node with closeReason := Function.update node.closeReason conn (some error) }
  | some _ => node

/-- `quinn::Connection::close`. -/
def close (node : NodeState) (conn : Nat) (reason : String) : NodeState :=
  node.setClosed conn (.locallyClosed reason)

/-- `SharedState::send_event` (`src/lib.rs:139`). -/
def sendEvent (node : NodeState) (event : UiEvent) : NodeState :=
  { node with events := node.events ++ [event] }

/-- The entry of a peer in the map of peers. -/
def peer? (node : NodeState) (name : String) : Option Peer := node.peers.lookup name

/-- The peers of the map, `peers.values()`. -/
def peerValues (node : NodeState) : List Peer := node.peers.entries.map (·.2)

variable (node : NodeState) (conn : Nat) (error : ConnectionError)

theorem mem_peers_iff {name : String} : name ∈ node.peers ↔ (node.peer? name).isSome :=
  AList.lookup_isSome.symm

@[simp] theorem setClosed_toSharedState :
    (node.setClosed conn error).toSharedState = node.toSharedState := by
  unfold setClosed
  cases node.closeReason conn <;> rfl

@[simp] theorem close_toSharedState (reason : String) :
    (node.close conn reason).toSharedState = node.toSharedState :=
  node.setClosed_toSharedState conn (.locallyClosed reason)

@[simp] theorem setClosed_events : (node.setClosed conn error).events = node.events := by
  unfold setClosed
  cases node.closeReason conn <;> rfl

@[simp] theorem close_events (reason : String) : (node.close conn reason).events = node.events :=
  node.setClosed_events conn (.locallyClosed reason)

@[simp] theorem setClosed_peer? (name : String) :
    (node.setClosed conn error).peer? name = node.peer? name := by
  simp only [peer?, setClosed_toSharedState]

@[simp] theorem close_peer? (reason name : String) :
    (node.close conn reason).peer? name = node.peer? name :=
  node.setClosed_peer? conn (.locallyClosed reason) name

/-- An end is open when it was before and is not the one closed. -/
theorem setClosed_closeReason_eq_none (other : Nat) :
    (node.setClosed conn error).closeReason other = none ↔
      node.closeReason other = none ∧ other ≠ conn := by
  unfold setClosed
  by_cases hother : other = conn
  · subst hother
    cases h : node.closeReason other <;> simp [h]
  · cases h : node.closeReason conn <;> simp [hother]

theorem close_closeReason_eq_none (reason : String) (other : Nat) :
    (node.close conn reason).closeReason other = none ↔
      node.closeReason other = none ∧ other ≠ conn :=
  node.setClosed_closeReason_eq_none conn (.locallyClosed reason) other

end NodeState

/-- What an await of a task gives. -/
inductive Answer where
  | ok
  | announcePeer (address : AnnounceAddress)
  | acceptError (err : String)
  | connectError (err : UiServerError)

/-! ### Explicit and automatic connects -/

/-- Where `SharedState::connect_to_peer` (`src/lib.rs:178`) is. -/
inductive ConnectToPeer where
  | start
  | send
  | response
  | clearManual
  | returned (result : Except UiServerError Unit)

/-- Run `SharedState::connect_to_peer` to its next lock or await. -/
def ConnectToPeer.next (announceAddress : AnnounceAddress) (node : NodeState)
    (answer : Answer) : ConnectToPeer → NodeState × ConnectToPeer
  | start =>
    if node.shuttingDown then
      (node, .returned (.error (.connectionError "Shutting down; not connecting to peer")))
    else (node, .send)
  | send =>
    match answer with
    | .connectError _ =>
      (node, .returned (.error (.peerDiscovery "Peer announce channel closed")))
    | _ =>
      ({ node with peerConnects := node.peerConnects ++ [⟨.direct, announceAddress⟩] },
        .response)
  | response =>
    match answer with
    | .connectError err => (node, .returned (.error err))
    | _ => (node, .clearManual)
  | clearManual =>
    ({ node with
        manuallyDisconnectedPeers := node.manuallyDisconnectedPeers.erase announceAddress.name },
      .returned (.ok ()))
  | returned result => (node, .returned result)

/-- A connect changes no more than the set of manual disconnects, of which it takes a peer out,
and what is sent to the discovery task. -/
theorem ConnectToPeer.next_node (connect : ConnectToPeer) (node : NodeState) (answer : Answer)
    (announceAddress : AnnounceAddress) :
    ∃ peerConnects manual, manual ⊆ node.manuallyDisconnectedPeers ∧
      (connect.next announceAddress node answer).1 =
        { node with peerConnects := peerConnects, manuallyDisconnectedPeers := manual } := by
  cases connect with
  | start =>
    simp only [ConnectToPeer.next]
    split <;> exact ⟨_, _, subset_rfl, rfl⟩
  | send => cases answer <;> exact ⟨_, _, subset_rfl, rfl⟩
  | response => cases answer <;> exact ⟨_, _, subset_rfl, rfl⟩
  | clearManual => exact ⟨_, _, Finset.erase_subset .., rfl⟩
  | returned result => exact ⟨_, _, subset_rfl, rfl⟩

/-! ### Manual disconnects -/

/-- Where `SharedState::disconnect_peer` (`src/lib.rs:216`) is. -/
inductive DisconnectPeer where
  | lookUp
  | mark (connection : Nat)
  | returned (result : Except UiServerError Unit)

/-- Run `SharedState::disconnect_peer` to its next lock or its end. -/
def DisconnectPeer.next (peerName : String) (node : NodeState) :
    DisconnectPeer → NodeState × DisconnectPeer
  | lookUp =>
    match node.peer? peerName with
    | none => (node, .returned (.error (.connectionError "Peer not connected")))
    | some peer => (node, .mark peer.connection)
  | mark connection =>
    (NodeState.close
      { node with
          manuallyDisconnectedPeers := insert peerName node.manuallyDisconnectedPeers }
      connection "disconnect",
      .returned (.ok ()))
  | returned result => (node, .returned result)

/-! ### Connections -/

/-- The arguments of `handle_connection` (`src/connections/mod.rs:371`), with the name and
key of the certificate in place of the certificate. -/
structure HandleConnection where
  conn : Nat
  incoming : Bool
  announceAddress : Option AnnounceAddress
  peerName : String
  peerPublicKey : PublicKey

namespace HandleConnection

/-- Where the task of `handle_connection` is, with the values it still needs. -/
inductive Stage where
  | checkManual
  | register
  | clearManual (otherConnections : List Nat) (otherAnnounces : List AnnounceAddress)
  | greet (otherConnections : List Nat) (otherAnnounces : List AnnounceAddress)
  | accept
  | cleanUp (err : String)
  | sayDisconnected (err : String) (reconnectAnnounceAddress : Option AnnounceAddress)
  | decideReconnect (wasConnected : Bool) (reconnectAnnounceAddress : Option AnnounceAddress)
  | reconnect (announceAddress : AnnounceAddress) (connect : ConnectToPeer)
  | finished

variable (h : HandleConnection) (node : NodeState)

/-- Reject the connection of a manually disconnected peer (`src/connections/mod.rs:389`). -/
def checkManual : NodeState × Stage :=
  if h.peerName ∈ node.manuallyDisconnectedPeers then
    (node.close h.conn "manually disconnected", .finished)
  else (node, .register)

/-- Enter the connection in the map of peers (`src/connections/mod.rs:417`). -/
def enter : NodeState × Stage :=
  ({ node with
      peers := node.peers.insert h.peerName ⟨h.conn, h.peerPublicKey, h.announceAddress⟩ },
    .clearManual (node.peerValues.map (·.connection))
      (node.peerValues.filterMap (·.announceAddress)))

/-- Register the connection unless a live one exists (`src/connections/mod.rs:400`). -/
def register : NodeState × Stage :=
  match node.peer? h.peerName with
  | some existingPeer =>
    if node.closeReason existingPeer.connection = none then
      (node.close h.conn "duplicate connection", .finished)
    else
      h.enter (NodeState.close { node with peers := node.peers.erase h.peerName }
        existingPeer.connection "replaced connection")
  | none => h.enter node

/-- Announce ourself to the peer, the peer to the others and the others to the peer, then
tell the UI (`src/connections/mod.rs:447`). The sends take no lock and are one step. -/
def greet (otherConnections : List Nat) (otherAnnounces : List AnnounceAddress) :
    NodeState × Stage :=
  let selfAnnounce := if h.incoming then [] else [(h.conn, node.announceAddress)]
  let announcePeer := match h.announceAddress with
    | some announceAddress => otherConnections.map fun conn ↦ (conn, announceAddress)
    | none => []
  let announceOthers := otherAnnounces.map fun address ↦ (h.conn, address)
  (NodeState.sendEvent
      { node with
          announced := node.announced ++ selfAnnounce ++ announcePeer ++ announceOthers }
      (.peerConnected h.peerName),
    .accept)

/-- `Rpc::handle_self_announcement` (`src/connections/rpc.rs:155`). -/
def handleSelfAnnouncement (address : AnnounceAddress) : NodeState :=
  let peers := match node.peer? h.peerName with
    | some peer => node.peers.insert h.peerName { peer with announceAddress := some address }
    | none => node.peers
  let others := peers.entries.filter fun entry ↦ entry.1 ≠ h.peerName
  { node with
      toSharedState := SharedState.addKnownPeer { node.toSharedState with peers := peers } address
      announced := node.announced ++ others.map fun other ↦ (other.2.connection, address) }

/-- Handle requests until one cannot be accepted (`src/connections/mod.rs:486`). Of the
requests only announcements (`src/connections/rpc.rs:120`) concern connections. -/
def accept : Answer → NodeState × Stage
  | .acceptError err => (node, .cleanUp err)
  | .announcePeer address =>
    if address.name = h.peerName then (h.handleSelfAnnouncement node address, .accept)
    else
      ({ node with peerConnects := node.peerConnects ++ [⟨.gossip, address⟩] }, .accept)
  | _ => (node, .accept)

/-- Remove the entry if it is still of this connection (`src/connections/mod.rs:498`). -/
def cleanUp (err : String) : NodeState × Stage :=
  match (node.peer? h.peerName).filter (·.connection = h.conn) with
  | some peer =>
    ({ node with peers := node.peers.erase h.peerName },
      .sayDisconnected err (h.announceAddress <|> peer.announceAddress))
  | none => (node, .decideReconnect false h.announceAddress)

/-- Tell the UI that the peer has disconnected (`src/connections/mod.rs:519`). -/
def sayDisconnected (err : String) (reconnectAnnounceAddress : Option AnnounceAddress) :
    NodeState × Stage :=
  (node.sendEvent (.peerDisconnected h.peerName err),
    .decideReconnect true reconnectAnnounceAddress)

/-- Whether to reconnect (`src/connections/mod.rs:531`). -/
def decideReconnect (wasConnected : Bool) (reconnectAnnounceAddress : Option AnnounceAddress) :
    NodeState × Stage :=
  if node.shuttingDown then (node, .finished)
  else if h.peerName ∈ node.manuallyDisconnectedPeers then (node, .finished)
  else
    match wasConnected, reconnectAnnounceAddress with
    | true, some announceAddress => (node, .reconnect announceAddress .start)
    | _, _ => (node, .finished)

/-- Run the task of `handle_connection` to its next lock or await. -/
def next (answer : Answer) : Stage → NodeState × Stage
  | .checkManual => h.checkManual node
  | .register => h.register node
  | .clearManual otherConnections otherAnnounces =>
    ({ node with
        manuallyDisconnectedPeers := node.manuallyDisconnectedPeers.erase h.peerName },
      .greet otherConnections otherAnnounces)
  | .greet otherConnections otherAnnounces => h.greet node otherConnections otherAnnounces
  | .accept => h.accept node answer
  | .cleanUp err => h.cleanUp node err
  | .sayDisconnected err address => h.sayDisconnected node err address
  | .decideReconnect wasConnected address => h.decideReconnect node wasConnected address
  | .reconnect address connect =>
    let (node, connect) := connect.next address node answer
    (node, .reconnect address connect)
  | .finished => (node, .finished)

end HandleConnection

/-- What a step of the task of a connection with this peer does to the shared state besides the
peers: no other peer gets known, and none gets into the set of manual disconnects. -/
structure NodeState.Keeps (peerName : String) (node node' : NodeState) : Prop where
  shuttingDown : node'.shuttingDown = node.shuttingDown
  pending : node'.pendingOutboundConnections = node.pendingOutboundConnections
  manual : node'.manuallyDisconnectedPeers ⊆ node.manuallyDisconnectedPeers
  known : ∀ name ∈ node'.knownPeers, name = peerName ∨ name ∈ node.knownPeers

theorem HandleConnection.next_keeps (h : HandleConnection) (node : NodeState) (answer : Answer)
    (stage : HandleConnection.Stage) :
    NodeState.Keeps h.peerName node (h.next node answer stage).1 := by
  have same (node : NodeState) : NodeState.Keeps h.peerName node node :=
    ⟨rfl, rfl, subset_rfl, fun _ hname ↦ Or.inr hname⟩
  cases stage with
  | checkManual =>
    simp only [next, checkManual]
    split
    · constructor <;> simp +contextual
    · exact same node
  | register =>
    simp only [next, register]
    split
    · split <;> constructor <;> simp +contextual [enter]
    · exact ⟨rfl, rfl, subset_rfl, fun _ hname ↦ Or.inr hname⟩
  | clearManual connections announces =>
    exact ⟨rfl, rfl, Finset.erase_subset .., fun _ hname ↦ Or.inr hname⟩
  | greet connections announces => exact ⟨rfl, rfl, subset_rfl, fun _ hname ↦ Or.inr hname⟩
  | accept =>
    simp only [next]
    cases answer with
    | announcePeer address =>
      simp only [accept]
      split
      · next hself =>
        refine ⟨rfl, rfl, subset_rfl, fun name hname ↦ ?_⟩
        rw [← hself]
        exact (AList.mem_insert _).mp hname
      · exact ⟨rfl, rfl, subset_rfl, fun _ hname ↦ Or.inr hname⟩
    | _ => exact same node
  | cleanUp err =>
    simp only [next, cleanUp]
    split
    · exact ⟨rfl, rfl, subset_rfl, fun _ hname ↦ Or.inr hname⟩
    · exact same node
  | sayDisconnected err address => exact ⟨rfl, rfl, subset_rfl, fun _ hname ↦ Or.inr hname⟩
  | decideReconnect wasConnected address =>
    simp only [next, decideReconnect]
    split
    · exact same node
    split
    · exact same node
    · split <;> exact same node
  | reconnect address connect =>
    obtain ⟨_, manual, hmanual, hnode⟩ := connect.next_node node answer address
    simp only [next, hnode]
    exact ⟨rfl, rfl, hmanual, fun _ hname ↦ Or.inr hname⟩
  | finished => exact same node

/-! ### Tasks -/

/-- A task of the node. Automatic reconnects are part of the task of a connection, so a task
of its own that connects is a call of the user. -/
inductive Task where
  | handleConnection (h : HandleConnection) (stage : HandleConnection.Stage)
  | connectToPeer (announceAddress : AnnounceAddress) (connect : ConnectToPeer)
  | disconnectPeer (peerName : String) (disconnect : DisconnectPeer)

/-- Run a task to its next lock or await. -/
def Task.next (node : NodeState) (answer : Answer) : Task → NodeState × Task
  | handleConnection h stage =>
    let (node, stage) := h.next node answer stage
    (node, .handleConnection h stage)
  | connectToPeer announceAddress connect =>
    let (node, connect) := connect.next announceAddress node answer
    (node, .connectToPeer announceAddress connect)
  | disconnectPeer peerName disconnect =>
    let (node, disconnect) := disconnect.next peerName node
    (node, .disconnectPeer peerName disconnect)

/-- No task starts a shutdown or reserves a dial. -/
theorem Task.next_keeps (task : Task) (node : NodeState) (answer : Answer) :
    (task.next node answer).1.shuttingDown = node.shuttingDown ∧
      (task.next node answer).1.pendingOutboundConnections = node.pendingOutboundConnections := by
  cases task with
  | handleConnection h stage =>
    have hkeeps := h.next_keeps node answer stage
    exact ⟨hkeeps.shuttingDown, hkeeps.pending⟩
  | connectToPeer address connect =>
    obtain ⟨_, _, -, hnode⟩ := connect.next_node node answer address
    simp only [next, hnode, and_self]
  | disconnectPeer name disconnect =>
    cases disconnect with
    | lookUp =>
      simp only [next, DisconnectPeer.next]
      split <;> exact ⟨rfl, rfl⟩
    | mark connection => simp [next, DisconnectPeer.next]
    | returned result => exact ⟨rfl, rfl⟩

/-- A call that starts a task. -/
inductive Call where
  | handleConnection (h : HandleConnection)
  | connectToPeer (announceAddress : AnnounceAddress)
  | disconnectPeer (peerName : String)

/-- The task of a call before its first step. -/
def Call.task : Call → Task
  | handleConnection h => .handleConnection h .checkManual
  | connectToPeer announceAddress => .connectToPeer announceAddress .start
  | disconnectPeer peerName => .disconnectPeer peerName .lookUp

/-- A node with its tasks. -/
structure Runtime where
  node : NodeState
  tasks : List Task

namespace Runtime

/-- What can happen next: a call, a step of a task, the end of a connection by the peer or
the network, or the start of a shutdown (`src/lib.rs:317`). -/
inductive Action where
  | call (c : Call)
  | run (i : Nat) (answer : Answer)
  | lose (conn : Nat) (error : ConnectionError)
  | shutDown

/-- A node that has just started, without connections (`src/lib.rs:98`). -/
def initial (announceAddress : AnnounceAddress) : Runtime :=
  ⟨⟨⟨∅, ∅, announceAddress, false, ∅, ∅⟩, fun _ ↦ none, [], [], []⟩, []⟩

/-- Run the task with index `i` to its next lock or await. -/
def runTask (r : Runtime) (i : Nat) (answer : Answer) : Runtime :=
  match r.tasks[i]? with
  | none => r
  | some task => ⟨(task.next r.node answer).1, r.tasks.set i (task.next r.node answer).2⟩

/-- The runtime after an action. -/
def step (r : Runtime) : Action → Runtime
  | .call c => { r with tasks := r.tasks ++ [c.task] }
  | .run i answer => r.runTask i answer
  | .lose conn error => { r with node := r.node.setClosed conn error }
  | .shutDown => { r with node := { r.node with shuttingDown := true } }

end Runtime

end HarddriveParty
