import HarddriveParty.Connections.Discovery

/-!
# The main loop of a node

Model of `Hdp::run` and `spawn_outbound_connect` (`src/connections/mod.rs`) and of the task that
handles peer announcements (`src/connections/discovery/mod.rs`), around the tasks of single
connections. What the network does is an input: which handshakes complete and with which
certificate, what hole punching and mDNS find, and when connections end.
-/

namespace HarddriveParty

/-- A completed handshake: the connection, and the name and key of the remote certificate. -/
structure Connected where
  conn : Nat
  peerName : String
  peerPublicKey : PublicKey

/-! ### Connecting to a peer -/

/-- Where the task of `spawn_outbound_connect` (`src/connections/mod.rs:314`) is. -/
inductive OutboundConnect where
  | checkPending
  | checkPeers
  | reserve
  | connect
  | release (result : Except UiServerError Unit)
  | fail (err : UiServerError)
  | finished

namespace OutboundConnect

/-- Run `spawn_outbound_connect` to its next lock or await. The last component is the call of
`handle_connection` that the step makes. A handshake with a certificate that is not of a known
peer does not complete (`src/connections/quic.rs:167`), and is tried again. -/
def next (peer : DiscoveredPeer) (node : NodeState) (result : Except UiServerError Connected) :
    OutboundConnect → NodeState × OutboundConnect × Option HandleConnection
  | checkPending =>
    if peer.announceAddress.name ∈ node.pendingOutboundConnections then (node, finished, none)
    else (node, checkPeers, none)
  | checkPeers =>
    if (node.peer? peer.announceAddress.name).isSome then (node, finished, none)
    else (node, reserve, none)
  | reserve =>
    if peer.announceAddress.name ∈ node.pendingOutboundConnections then (node, finished, none)
    else
      ({ node with
          pendingOutboundConnections :=
            insert peer.announceAddress.name node.pendingOutboundConnections },
        connect, none)
  | connect =>
    match result with
    | .ok connected =>
      if connected.peerName ∈ node.knownPeers then
        (node, release (.ok ()),
          some ⟨connected.conn, false, some peer.announceAddress, connected.peerName,
            connected.peerPublicKey⟩)
      else (node, connect, none)
    | .error err => (node, release (.error err), none)
  | release result =>
    ({ node with
        pendingOutboundConnections :=
          node.pendingOutboundConnections.erase peer.announceAddress.name },
      match result with
      | .ok () => finished
      | .error err => fail err,
      none)
  | fail err =>
    (node.sendEvent (.peerConnectionFailed peer.announceAddress.name err.display), finished, none)
  | finished => (node, finished, none)

end OutboundConnect

/-! ### The node -/

/-- Where the task that handles peer announcements (`src/connections/discovery/mod.rs:170`) is. -/
inductive PeerAnnouncement where
  | receive
  | checkPeers (peerConnect : PeerConnect)
  | handlePeer (peerConnect : PeerConnect)

/-- Where `Hdp::run` (`src/connections/mod.rs:212`) is. -/
inductive MainLoop where
  | select
  | handleIncoming (maybePeerDetails : Option (DiscoveryMethod × AnnounceAddress))
  | fail (name : String) (err : UiServerError)
  | returned

/-- A node with its tasks and channels. Of the announcements that were sent to the discovery
task, it has received the first `announcesReceived`. -/
structure Hdp extends Runtime where
  outbound : List (DiscoveredPeer × OutboundConnect)
  mainLoop : MainLoop
  peerAnnouncement : PeerAnnouncement
  announcesReceived : Nat
  peersRx : List DiscoveredPeer
  pendingPeerConnections : AList fun _ : SocketAddr ↦ DiscoveryMethod × AnnounceAddress

namespace Hdp

/-- `Hdp::run` once it has looked at the known peers (`src/connections/mod.rs:233`). -/
def start (announceAddress : AnnounceAddress)
    (knownPeers : AList fun _ : String ↦ PeerConnectionDetails) : Hdp where
  node := { (Runtime.initial announceAddress).node with knownPeers }
  tasks := []
  outbound := knownPeers.entries.filterMap fun ⟨name, connectionDetails⟩ ↦
    match connectionDetails with
    | .noNat socketAddress =>
      some (⟨socketAddress, none, .direct, ⟨connectionDetails, name⟩⟩, .checkPending)
    | _ => none
  mainLoop := .select
  peerAnnouncement := .receive
  announcesReceived := 0
  peersRx := []
  pendingPeerConnections := ∅

/-- What can happen next to the main loop. -/
inductive Input where
  | incoming (remoteAddress : SocketAddr)
  | discovered
  | gracefulShutdown
  | handshake (result : Except UiServerError Connected)

/-- What can happen next. A connection that is closed with its endpoint is lost. -/
inductive Action where
  | connectToPeer (announceAddress : AnnounceAddress)
  | disconnectPeer (peerName : String)
  | shutDown
  | lose (conn : Nat) (error : ConnectionError)
  | runTask (i : Nat) (answer : Answer)
  | runOutbound (i : Nat) (result : Except UiServerError Connected)
  | runMainLoop (input : Input)
  | runAnnouncement (sockets : Sockets) (holePuncher : HolePuncher)
  | mdns (announceAddress : AnnounceAddress) (connectTo : Option SocketAddr)

variable (hdp : Hdp)

/-- A step of the part without the main loop. -/
def stepRuntime (action : Runtime.Action) : Hdp :=
  { hdp with toRuntime := hdp.toRuntime.step action }

/-- Run a task of `spawn_outbound_connect` to its next lock or await. -/
def runOutbound (i : Nat) (result : Except UiServerError Connected) : Hdp :=
  match hdp.outbound[i]? with
  | none => hdp
  | some (peer, outboundConnect) =>
    let (node, outboundConnect, handle) := outboundConnect.next peer hdp.node result
    { hdp with
      node := node
      tasks := hdp.tasks ++ handle.toList.map fun h ↦ (Call.handleConnection h).task
      outbound := hdp.outbound.set i (peer, outboundConnect) }

/-- Decide whether to use client verification based on our NAT type
(`src/connections/discovery/mod.rs:228`). -/
def useClientVerification : Bool :=
  match hdp.node.announceAddress.connectionDetails with
  | .noNat _ => false
  | _ => true

/-- Only behind a symmetric NAT there is no endpoint for incoming connections
(`src/connections/mod.rs:166`), and no hole puncher (`src/connections/discovery/mod.rs:122`). -/
def hasEndpoint : Bool :=
  match hdp.node.announceAddress.connectionDetails with
  | .symmetric _ => false
  | _ => true

/-- Run `Hdp::run` to its next lock or await. -/
def runMainLoop (input : Input) : Hdp :=
  match hdp.mainLoop, input with
  | .select, .incoming remoteAddress =>
    if hdp.hasEndpoint then
      { hdp with
        mainLoop := .handleIncoming (hdp.pendingPeerConnections.lookup remoteAddress)
        -- `get_pending_peer` (`src/connections/discovery/mod.rs:211`)
        pendingPeerConnections := hdp.pendingPeerConnections.erase remoteAddress }
    else hdp
  | .select, .discovered =>
    match hdp.peersRx with
    | [] => hdp
    | peer :: peersRx =>
      { hdp with
        peersRx := peersRx
        outbound := hdp.outbound ++ [(peer, .checkPending)] }
  | .select, .gracefulShutdown =>
    if hdp.node.shuttingDown then
      { hdp with
        node := hdp.node.peerValues.foldl (fun node peer ↦ node.close peer.connection "shutdown")
          hdp.node
        mainLoop := .returned }
    else hdp
  | .handleIncoming maybePeerDetails, .handshake (.ok connected) =>
    -- a handshake with a certificate that is refused does not complete
    if hdp.useClientVerification ∧ connected.peerName ∉ hdp.node.knownPeers then hdp
    else
      { hdp with
        tasks := hdp.tasks ++ [(Call.handleConnection
          ⟨connected.conn, true, maybePeerDetails.map (·.2), connected.peerName,
            connected.peerPublicKey⟩).task]
        mainLoop := .select }
  | .handleIncoming maybePeerDetails, .handshake (.error err) =>
    { hdp with
      mainLoop :=
        match maybePeerDetails with
        | some (_, announceAddress) => .fail announceAddress.name err
        | none => .select }
  | .fail name err, _ =>
    { hdp with
      node := hdp.node.sendEvent (.peerConnectionFailed name err.display)
      mainLoop := .select }
  | _, _ => hdp

/-- Run `handle_peer_announcement` (`src/connections/discovery/mod.rs:249`) for the announcement
at hand to its next lock or await. -/
def runAnnouncement (sockets : Sockets) (holePuncher : HolePuncher) : Hdp :=
  match hdp.peerAnnouncement with
  | .receive =>
    match hdp.node.peerConnects[hdp.announcesReceived]? with
    | none => hdp
    | some peerConnect =>
      { hdp with
        node := { hdp.node with
          toSharedState := hdp.node.toSharedState.addKnownPeer peerConnect.announceAddress }
        announcesReceived := hdp.announcesReceived + 1
        -- Check it is not ourself
        peerAnnouncement :=
          if hdp.node.announceAddress = peerConnect.announceAddress then .receive
          else .checkPeers peerConnect }
  | .checkPeers peerConnect =>
    { hdp with
      peerAnnouncement :=
        if (hdp.node.peer? peerConnect.announceAddress.name).isSome then .receive
        else .handlePeer peerConnect }
  | .handlePeer peerConnect =>
    let holePuncher := if hdp.hasEndpoint then some holePuncher else none
    match handlePeer sockets holePuncher hdp.node.announceAddress.connectionDetails
        peerConnect.announceAddress peerConnect.discoveryMethod with
    | .error _ => { hdp with peerAnnouncement := .receive }
    | .ok (some discoveredPeer, _) =>
      { hdp with
        peerAnnouncement := .receive
        peersRx := hdp.peersRx ++ [discoveredPeer] }
    | .ok (none, socketAddress) =>
      { hdp with
        peerAnnouncement := .receive
        pendingPeerConnections := hdp.pendingPeerConnections.insert socketAddress
          (peerConnect.discoveryMethod, peerConnect.announceAddress) }

/-- A peer announces itself over mDNS; of two nodes that see each other, one connects
(`src/connections/discovery/mdns.rs:52`). -/
def mdns (announceAddress : AnnounceAddress) (connectTo : Option SocketAddr) : Hdp :=
  { hdp with
    node := { hdp.node with
      toSharedState := hdp.node.toSharedState.addKnownPeer announceAddress }
    peersRx := hdp.peersRx ++ connectTo.toList.map fun socketAddress ↦
      ⟨socketAddress, none, .mdns, announceAddress⟩ }

/-- The node after an action. -/
def step : Action → Hdp
  | .connectToPeer announceAddress => hdp.stepRuntime (.call (.connectToPeer announceAddress))
  | .disconnectPeer peerName => hdp.stepRuntime (.call (.disconnectPeer peerName))
  | .shutDown => hdp.stepRuntime .shutDown
  | .lose conn error => hdp.stepRuntime (.lose conn error)
  | .runTask i answer => hdp.stepRuntime (.run i answer)
  | .runOutbound i result => hdp.runOutbound i result
  | .runMainLoop input => hdp.runMainLoop input
  | .runAnnouncement sockets holePuncher => hdp.runAnnouncement sockets holePuncher
  | .mdns announceAddress connectTo => hdp.mdns announceAddress connectTo

end Hdp

end HarddriveParty
