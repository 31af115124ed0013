import HarddriveParty.Connections.Introductions
import HarddriveParty.Connections.SelfConnect

/-!
# Where the announce addresses of a node come from

A node holds announce addresses in many places: of the peers in its map and of known ones, in its
channels, in what it has dialled or waits for, and in what its tasks have noted. It makes up none
of them, and it keeps two kinds apart. What it has only heard of is known and dialled; what it
announces to others is its own address, what its peers have announced of themselves, and what it
was connected with when the connection came about.
-/

namespace HarddriveParty

open Runs

/-- Two properties of announce addresses: one of those that a node announces to others, and a
weaker one of all that it holds. -/
structure AddressKind where
  Held : AnnounceAddress → Prop
  Announced : AnnounceAddress → Prop
  held : ∀ address, Announced address → Held address

variable {K : AddressKind} {node : NodeState}

/-- All addresses of the shared state and of what was sent are of their kind. -/
structure NodeState.AllAddresses (K : AddressKind) (node : NodeState) : Prop where
  own : K.Announced node.announceAddress
  peers : ∀ name peer address, node.peer? name = some peer → peer.announceAddress = some address →
    K.Announced address
  known : ∀ name details, node.knownPeers.lookup name = some details → K.Held ⟨details, name⟩
  peerConnects : ∀ peerConnect ∈ node.peerConnects, K.Held peerConnect.announceAddress
  announced : ∀ message ∈ node.announced, K.Announced message.2

/-- All addresses that the task of a connection has noted are of their kind. -/
def HandleConnection.Stage.AllAddresses (K : AddressKind) : Stage → Prop
  | .clearManual _ otherAnnounces | .greet _ otherAnnounces =>
    ∀ address ∈ otherAnnounces, K.Announced address
  | .sayDisconnected _ reconnectAnnounceAddress | .decideReconnect _ reconnectAnnounceAddress =>
    ∀ address, reconnectAnnounceAddress = some address → K.Held address
  | .reconnect announceAddress _ => K.Held announceAddress
  | .checkManual | .register | .accept | .cleanUp _ | .finished => True

/-- All addresses that a task holds are of their kind. -/
def Task.AllAddresses (K : AddressKind) : Task → Prop
  | .handleConnection h stage =>
    (∀ address, h.announceAddress = some address → K.Announced address) ∧ stage.AllAddresses K
  | .connectToPeer announceAddress _ => K.Held announceAddress
  | .disconnectPeer _ _ => True

/-- The announcement that a connection accepts is of its kind. -/
def HandleConnection.Hears (K : AddressKind) (h : HandleConnection) : Answer → Prop
  | .announcePeer address =>
    K.Held address ∧ (address.name = h.peerName → K.Announced address)
  | _ => True

namespace NodeState

/-- A known peer is added. -/
theorem AllAddresses.addKnownPeer (h : node.AllAddresses K) {address : AnnounceAddress}
    (haddress : K.Held address) :
    NodeState.AllAddresses K
      { node with toSharedState := node.toSharedState.addKnownPeer address } := by
  refine { h with known := fun name details hlookup ↦ ?_ }
  by_cases hname : name = address.name
  · subst hname
    rw [SharedState.addKnownPeer, AList.lookup_insert] at hlookup
    cases hlookup
    exact haddress
  · rw [SharedState.addKnownPeer, AList.lookup_insert_ne hname] at hlookup
    exact h.known name details hlookup

/-- Closing a connection concerns no address. -/
theorem AllAddresses.close (h : node.AllAddresses K) (conn : Nat) (reason : String) :
    (node.close conn reason).AllAddresses K := by
  unfold NodeState.close setClosed
  cases node.closeReason conn
  · exact { h with }
  · exact h

end NodeState

/-- A connect sends the address that it was called with. -/
theorem ConnectToPeer.next_allAddresses {connect : ConnectToPeer} {address : AnnounceAddress}
    {answer : Answer} (hnode : node.AllAddresses K) (haddress : K.Held address) :
    (connect.next address node answer).1.AllAddresses K := by
  have hsend : NodeState.AllAddresses K
      { node with peerConnects := node.peerConnects ++ [⟨.direct, address⟩] } := by
    refine { hnode with peerConnects := fun peerConnect hmem ↦ ?_ }
    rcases List.mem_append.mp hmem with hmem | hmem
    · exact hnode.peerConnects peerConnect hmem
    · obtain rfl := List.mem_singleton.mp hmem
      exact haddress
  cases connect with
  | start =>
    simp only [ConnectToPeer.next]
    split <;> exact hnode
  | send => cases answer <;> first | exact hsend | exact hnode
  | response => cases answer <;> exact hnode
  | clearManual => exact { hnode with }
  | returned result => exact hnode

namespace HandleConnection

variable {h : HandleConnection}

/-- Entering a connection in the map. -/
theorem enter_allAddresses (hnode : node.AllAddresses K)
    (haddress : ∀ address, h.announceAddress = some address → K.Announced address) :
    (h.enter node).1.AllAddresses K ∧ (h.enter node).2.AllAddresses K := by
  refine ⟨{ hnode with peers := fun name peer address hpeer hannounce ↦ ?_ }, fun address hmem ↦ ?_⟩
  · by_cases hname : name = h.peerName
    · subst hname
      rw [enter, NodeState.peer?, AList.lookup_insert] at hpeer
      cases hpeer
      exact haddress address hannounce
    · rw [enter, NodeState.peer?, AList.lookup_insert_ne hname] at hpeer
      exact hnode.peers name peer address hpeer hannounce
  · obtain ⟨peer, hpeer, hannounce⟩ := List.mem_filterMap.mp hmem
    obtain ⟨⟨name, peer'⟩, hentry, rfl⟩ := List.mem_map.mp hpeer
    exact hnode.peers name peer' address (AList.mem_lookup_iff.mpr hentry) hannounce

/-- What the peer announces of itself. -/
theorem handleSelfAnnouncement_allAddresses (hnode : node.AllAddresses K)
    {address : AnnounceAddress} (haddress : K.Announced address) :
    (h.handleSelfAnnouncement node address).AllAddresses K := by
  have hpeers (name : String) (peer : Peer) (address' : AnnounceAddress)
      (hpeer : (h.handleSelfAnnouncement node address).peer? name = some peer)
      (hannounce : peer.announceAddress = some address') : K.Announced address' := by
    rw [handleSelfAnnouncement_peer] at hpeer
    split at hpeer
    · obtain ⟨peer', -, rfl⟩ := Option.map_eq_some_iff.mp hpeer
      cases hannounce
      exact haddress
    · exact hnode.peers name peer address' hpeer hannounce
  have hknown := (hnode.addKnownPeer (K.held _ haddress)).known
  refine ⟨hnode.own, hpeers, hknown, hnode.peerConnects, fun message hmem ↦ ?_⟩
  rcases List.mem_append.mp hmem with hmem | hmem
  · exact hnode.announced message hmem
  · obtain ⟨entry, -, rfl⟩ := List.mem_map.mp hmem
    exact haddress

/-- The task of a connection makes up no address. -/
theorem next_allAddresses {answer : Answer} {stage : Stage} (hnode : node.AllAddresses K)
    (haddress : ∀ address, h.announceAddress = some address → K.Announced address)
    (hstage : stage.AllAddresses K) (hanswer : stage = .accept → h.Hears K answer) :
    (h.next node answer stage).1.AllAddresses K ∧
      (h.next node answer stage).2.AllAddresses K := by
  cases stage with
  | checkManual =>
    rw [next, checkManual]
    split
    · exact ⟨hnode.close _ _, trivial⟩
    · exact ⟨hnode, trivial⟩
  | register =>
    rw [next, register]
    split
    · next existingPeer hexisting =>
      split
      · exact ⟨hnode.close _ _, trivial⟩
      · apply enter_allAddresses _ haddress
        apply NodeState.AllAddresses.close
        exact { hnode with
          peers := fun name peer address hpeer hannounce ↦
            hnode.peers name peer address (lookup_of_lookup_erase hpeer) hannounce }
    · exact enter_allAddresses hnode haddress
  | clearManual connections announces => exact ⟨{ hnode with }, hstage⟩
  | greet connections announces =>
    refine ⟨{ hnode with announced := fun message hmem ↦ ?_ }, trivial⟩
    rw [next, h.greet_announced] at hmem
    rcases List.mem_append.mp hmem with hmem | hmem
    · exact hnode.announced message hmem
    · rcases h.mem_greetings.mp hmem with ⟨-, rfl⟩ | ⟨hannounce, -⟩ | ⟨-, hother⟩
      · exact hnode.own
      · exact haddress _ hannounce
      · exact hstage _ hother
  | accept =>
    rw [next]
    cases answer with
    | announcePeer address =>
      unfold accept
      dsimp only
      split
      · next hname =>
        exact ⟨handleSelfAnnouncement_allAddresses hnode ((hanswer rfl).2 hname), trivial⟩
      · refine ⟨{ hnode with peerConnects := fun peerConnect hmem ↦ ?_ }, trivial⟩
        rcases List.mem_append.mp hmem with hmem | hmem
        · exact hnode.peerConnects peerConnect hmem
        · obtain rfl := List.mem_singleton.mp hmem
          exact (hanswer rfl).1
    | acceptError err => exact ⟨hnode, trivial⟩
    | ok => exact ⟨hnode, trivial⟩
    | connectError err => exact ⟨hnode, trivial⟩
  | cleanUp err =>
    rw [next, cleanUp]
    split
    · next peer hpeer =>
      have hentry := (Option.filter_eq_some_iff.mp hpeer).1
      refine ⟨{ hnode with
        peers := fun name peer' address hpeer' hannounce ↦
          hnode.peers name peer' address (lookup_of_lookup_erase hpeer') hannounce }, ?_⟩
      · intro address hreconnect
        cases hown : h.announceAddress with
        | some address' =>
          rw [hown] at hreconnect
          cases hreconnect
          exact K.held _ (haddress address hown)
        | none =>
          rw [hown] at hreconnect
          exact K.held _ (hnode.peers h.peerName peer address hentry hreconnect)
    · exact ⟨hnode, fun address hown ↦ K.held _ (haddress address hown)⟩
  | sayDisconnected err address => exact ⟨{ hnode with }, hstage⟩
  | decideReconnect wasConnected address =>
    rw [next]
    unfold decideReconnect
    split
    · exact ⟨hnode, trivial⟩
    split
    · exact ⟨hnode, trivial⟩
    · split
      · exact ⟨hnode, hstage _ rfl⟩
      · exact ⟨hnode, trivial⟩
  | reconnect address connect => exact ⟨connect.next_allAddresses hnode hstage, hstage⟩
  | finished => exact ⟨hnode, trivial⟩

end HandleConnection

/-- No task makes up an address. -/
theorem Task.next_allAddresses {task : Task} {answer : Answer} (hnode : node.AllAddresses K)
    (htask : task.AllAddresses K)
    (hanswer : ∀ h, task = .handleConnection h .accept → h.Hears K answer) :
    (task.next node answer).1.AllAddresses K ∧ (task.next node answer).2.AllAddresses K := by
  cases task with
  | handleConnection h stage =>
    obtain ⟨hnext, hstage⟩ := h.next_allAddresses hnode htask.1 htask.2
      fun hstage ↦ hanswer h (hstage ▸ rfl)
    exact ⟨hnext, htask.1, hstage⟩
  | connectToPeer address connect => exact ⟨connect.next_allAddresses hnode htask, htask⟩
  | disconnectPeer name disconnect =>
    refine ⟨?_, trivial⟩
    cases disconnect with
    | lookUp =>
      simp only [Task.next, DisconnectPeer.next]
      split <;> exact hnode
    | mark connection =>
      have hmarked : NodeState.AllAddresses K { node with
          manuallyDisconnectedPeers := insert name node.manuallyDisconnectedPeers } :=
        { hnode with }
      exact hmarked.close connection "disconnect"
    | returned result => exact hnode

/-! ### The node -/

/-- A peer that was discovered is the one that was announced, found as it was announced. -/
theorem handlePeer_discovers {sockets : Sockets} {holePuncher : Option HolePuncher}
    {localDetails : PeerConnectionDetails} {announceAddress : AnnounceAddress}
    {discoveryMethod : DiscoveryMethod} {peer : DiscoveredPeer} {addr : SocketAddr}
    (h : handlePeer sockets holePuncher localDetails announceAddress discoveryMethod =
      .ok (some peer, addr)) :
    peer.announceAddress = announceAddress ∧ peer.discoveryMethod = discoveryMethod := by
  unfold handlePeer at h
  cases hremote : announceAddress.connectionDetails with
  | symmetric remoteIp =>
    simp only [hremote] at h
    cases localDetails with
    | symmetric ip => cases h
    | asymmetric ours =>
      cases holePuncher with
      | none => cases h
      | some puncher =>
        obtain ⟨found, -, hfound⟩ := mapError_bind_eq_ok_iff.mp h
        cases hfound
    | noNat ours => cases h
  | asymmetric remote =>
    simp only [hremote] at h
    cases localDetails with
    | symmetric ip =>
      obtain ⟨found, -, hfound⟩ := mapError_bind_eq_ok_iff.mp h
      cases hfound
      exact ⟨rfl, rfl⟩
    | asymmetric ours =>
      cases holePuncher with
      | none => cases h
      | some puncher =>
        -- the addresses are compared after the hole punch, if there is one
        have hpair : (if remote < ours then
            (some (⟨remote, none, discoveryMethod, announceAddress⟩ : DiscoveredPeer), remote)
          else (none, remote)) = (some peer, addr) := by
          by_cases hip : ours.ip ≠ remote.ip
          · simp only [if_pos hip] at h
            obtain ⟨u, -, hfound⟩ := mapError_bind_eq_ok_iff.mp h
            injection hfound
          · simp only [if_neg hip] at h
            injection h
        split at hpair
        · cases hpair
          exact ⟨rfl, rfl⟩
        · cases hpair
    | noNat ours => cases h
  | noNat remote =>
    simp only [hremote] at h
    cases localDetails with
    | symmetric ip =>
      obtain ⟨socket, -, hfound⟩ := mapError_bind_eq_ok_iff.mp h
      cases hfound
      exact ⟨rfl, rfl⟩
    | asymmetric ours =>
      cases h
      exact ⟨rfl, rfl⟩
    | noNat ours =>
      simp only at h
      split at h
      · cases h
        exact ⟨rfl, rfl⟩
      · cases h

namespace Hdp

variable {hdp : Hdp}

/-- All addresses that a node holds are of their kind. -/
structure AllAddresses (K : AddressKind) (hdp : Hdp) : Prop where
  node : hdp.node.AllAddresses K
  tasks : ∀ task ∈ hdp.tasks, task.AllAddresses K
  outbound : ∀ dial ∈ hdp.outbound, K.Held dial.1.announceAddress
  peersRx : ∀ peer ∈ hdp.peersRx, K.Held peer.announceAddress
  pending : ∀ addr method address,
    hdp.pendingPeerConnections.lookup addr = some (method, address) → K.Held address
  incoming : ∀ method address,
    hdp.mainLoop = .handleIncoming (some (method, address)) → K.Held address
  announcement : ∀ peerConnect, hdp.peerAnnouncement = .checkPeers peerConnect ∨
    hdp.peerAnnouncement = .handlePeer peerConnect → K.Held peerConnect.announceAddress

/-- The address that the user or the local network gives has the property. -/
def Action.Enters (P : AnnounceAddress → Prop) : Action → Prop
  | .connectToPeer announceAddress | .mdns announceAddress _ => P announceAddress
  | _ => True

/-- An announcement that a step accepts is of its kind. -/
def Hears (K : AddressKind) (hdp : Hdp) : Action → Prop
  | .runTask i answer => ∀ h, hdp.tasks[i]? = some (.handleConnection h .accept) →
      h.Hears K answer
  | _ => True

/-- The address that a new connection comes with has the property. -/
def Connects (P : AnnounceAddress → Prop) (hdp : Hdp) (action : Action) : Prop :=
  ∀ h, hdp.Completes h action → ∀ address, h.announceAddress = some address → P address

/-- The announcement that a step accepts, with the connection on which it came. -/
def receives (hdp : Hdp) : Action → Option (Nat × AnnounceAddress)
  | .runTask i (.announcePeer address) =>
    match hdp.tasks[i]? with
    | some (.handleConnection h .accept) => some (h.conn, address)
    | _ => none
  | _ => none

theorem receives_eq_some_iff {action : Action} {message : Nat × AnnounceAddress} :
    hdp.receives action = some message ↔ ∃ i h, action = .runTask i (.announcePeer message.2) ∧
      hdp.tasks[i]? = some (.handleConnection h .accept) ∧ h.conn = message.1 := by
  unfold receives
  constructor
  · intro hreceives
    split at hreceives
    · next i address =>
      split at hreceives
      · next h htask =>
        cases hreceives
        exact ⟨i, h, rfl, htask, rfl⟩
      · cases hreceives
    · cases hreceives
  · rintro ⟨i, h, rfl, htask, hconn⟩
    simp only [htask, hconn]

/-- An outbound connect makes up no address. -/
private theorem AllAddresses.runOutbound (h : hdp.AllAddresses K) (i : Nat)
    (result : Except UiServerError Connected)
    (hconnects : hdp.Connects K.Announced (.runOutbound i result)) :
    (hdp.runOutbound i result).AllAddresses K := by
  unfold Hdp.runOutbound
  split
  · exact h
  · next peer outboundConnect houtbound =>
    have hpeer : K.Held peer.announceAddress := h.outbound _ (List.mem_of_getElem? houtbound)
    obtain ⟨_, _, hnode, -⟩ := outboundConnect.next_node peer hdp.node result
    refine { h with node := ?_, tasks := fun task hmem ↦ ?_, outbound := fun dial hmem ↦ ?_ }
    · dsimp only
      rw [hnode]
      exact { h.node with }
    · rcases List.mem_append.mp hmem with hmem | hmem
      · exact h.tasks task hmem
      · obtain ⟨handle, hhandle, rfl⟩ := List.mem_map.mp hmem
        obtain ⟨connected, rfl, rfl, hknown, rfl⟩ :=
          OutboundConnect.next_handle (Option.mem_toList.mp hhandle)
        exact ⟨hconnects _ ⟨peer, houtbound, hknown, rfl⟩, trivial⟩
    · rcases List.mem_or_eq_of_mem_set hmem with hmem | rfl
      · exact h.outbound dial hmem
      · exact hpeer

/-- The main loop makes up no address. -/
private theorem AllAddresses.runMainLoop (h : hdp.AllAddresses K) (input : Input)
    (hconnects : hdp.Connects K.Announced (.runMainLoop input)) :
    (hdp.runMainLoop input).AllAddresses K := by
  unfold Hdp.runMainLoop
  split
  · split
    · exact { h with
        pending := fun addr method address hlookup ↦
          h.pending addr method address (lookup_of_lookup_erase hlookup)
        incoming := fun method address hloop ↦
          h.pending _ method address (MainLoop.handleIncoming.inj hloop) }
    · exact h
  · split
    · exact h
    · next peer peersRx hpeers =>
      have hpeer : K.Held peer.announceAddress := h.peersRx peer (hpeers ▸ List.mem_cons_self)
      refine { h with
        peersRx := fun peer' hmem ↦ h.peersRx peer' (hpeers ▸ List.mem_cons_of_mem _ hmem)
        outbound := fun dial hmem ↦ ?_ }
      rcases List.mem_append.mp hmem with hmem | hmem
      · exact h.outbound dial hmem
      · obtain rfl := List.mem_singleton.mp hmem
        exact hpeer
  · split
    · refine { h with node := ?_, incoming := fun method address hloop ↦ by cases hloop }
      obtain ⟨_, hclosed⟩ := NodeState.closeAll_eq "shutdown" hdp.node.peerValues hdp.node
      dsimp only
      rw [hclosed]
      exact { h.node with }
    · exact h
  · next details connected hloop =>
    split
    · exact h
    · next haccepted =>
      refine { h with
        tasks := fun task hmem ↦ ?_, incoming := fun method address hloop ↦ by cases hloop }
      rcases List.mem_append.mp hmem with hmem | hmem
      · exact h.tasks task hmem
      · obtain rfl := List.mem_singleton.mp hmem
        exact ⟨hconnects _ ⟨details, hloop, haccepted, rfl⟩, trivial⟩
  · refine { h with incoming := fun method address hloop ↦ ?_ }
    dsimp only at hloop
    split at hloop <;> cases hloop
  · refine { h with node := { h.node with }, incoming := fun method address hloop ↦ ?_ }
    cases hloop
  · exact h

/-- Handling an announcement makes up no address. -/
private theorem AllAddresses.runAnnouncement (h : hdp.AllAddresses K) (sockets : Sockets)
    (holePuncher : HolePuncher) : (hdp.runAnnouncement sockets holePuncher).AllAddresses K := by
  unfold Hdp.runAnnouncement
  split
  · split
    · exact h
    · next peerConnect hconnect =>
      have haddress : K.Held peerConnect.announceAddress :=
        h.node.peerConnects _ (List.mem_of_getElem? hconnect)
      refine { h with
        node := h.node.addKnownPeer haddress, announcement := fun peerConnect' hstage ↦ ?_ }
      dsimp only at hstage
      split at hstage
      · rcases hstage with hstage | hstage <;> cases hstage
      · rcases hstage with hstage | hstage
        · cases hstage
          exact haddress
        · cases hstage
  · next peerConnect hstage =>
    refine { h with announcement := fun peerConnect' hstage' ↦ ?_ }
    dsimp only at hstage'
    split at hstage'
    · rcases hstage' with hstage' | hstage' <;> cases hstage'
    · rcases hstage' with hstage' | hstage'
      · cases hstage'
      · cases hstage'
        exact h.announcement peerConnect (Or.inl hstage)
  · next peerConnect hstage =>
    have haddress : K.Held peerConnect.announceAddress := h.announcement peerConnect (Or.inr hstage)
    have hdone (peerConnect' : PeerConnect) (hstage : PeerAnnouncement.receive =
        .checkPeers peerConnect' ∨ PeerAnnouncement.receive = .handlePeer peerConnect') :
        K.Held peerConnect'.announceAddress := by
      rcases hstage with hstage | hstage <;> cases hstage
    dsimp only
    split
    · exact { h with announcement := hdone }
    · next discovered addr hfound =>
      refine { h with announcement := hdone, peersRx := fun peer hmem ↦ ?_ }
      rcases List.mem_append.mp hmem with hmem | hmem
      · exact h.peersRx peer hmem
      · obtain rfl := List.mem_singleton.mp hmem
        exact (handlePeer_discovers hfound).1 ▸ haddress
    · next addr hwaits =>
      refine { h with announcement := hdone, pending := fun addr' method address hlookup ↦ ?_ }
      by_cases haddr : addr' = addr
      · subst haddr
        rw [AList.lookup_insert] at hlookup
        cases hlookup
        exact haddress
      · rw [AList.lookup_insert_ne haddr] at hlookup
        exact h.pending addr' method address hlookup

/-- A node makes up no address. -/
theorem AllAddresses.step (h : hdp.AllAddresses K) {action : Action}
    (henters : action.Enters K.Held) (hhears : hdp.Hears K action)
    (hconnects : hdp.Connects K.Announced action) : (hdp.step action).AllAddresses K := by
  cases action with
  | connectToPeer address =>
    refine { h with tasks := fun task hmem ↦ ?_ }
    rcases List.mem_append.mp hmem with hmem | hmem
    · exact h.tasks task hmem
    · obtain rfl := List.mem_singleton.mp hmem
      exact henters
  | disconnectPeer name =>
    refine { h with tasks := fun task hmem ↦ ?_ }
    rcases List.mem_append.mp hmem with hmem | hmem
    · exact h.tasks task hmem
    · obtain rfl := List.mem_singleton.mp hmem
      trivial
  | shutDown => exact { h with node := { h.node with } }
  | lose conn error =>
    refine { h with node := ?_ }
    unfold Hdp.step stepRuntime Runtime.step NodeState.setClosed
    dsimp only
    cases hdp.node.closeReason conn
    · exact { h.node with }
    · exact h.node
  | runTask i answer =>
    cases htask : hdp.tasks[i]? with
    | none =>
      rw [runTask_eq_self htask]
      exact h
    | some task =>
      obtain ⟨hnext, htask'⟩ :=
        task.next_allAddresses h.node (h.tasks task (List.mem_of_getElem? htask))
          fun h' haccept ↦ hhears h' (haccept ▸ htask)
      obtain ⟨hnode, htasks⟩ := runTask_eq htask answer
      refine { h with node := hnode ▸ hnext, tasks := fun task' hmem ↦ ?_ }
      rw [htasks] at hmem
      rcases List.mem_or_eq_of_mem_set hmem with hmem | rfl
      · exact h.tasks task' hmem
      · exact htask'
  | runOutbound i result => exact h.runOutbound i result hconnects
  | runMainLoop input => exact h.runMainLoop input hconnects
  | runAnnouncement sockets holePuncher => exact h.runAnnouncement sockets holePuncher
  | mdns address connectTo =>
    refine { h with node := h.node.addKnownPeer henters, peersRx := fun peer hmem ↦ ?_ }
    rcases List.mem_append.mp hmem with hmem | hmem
    · exact h.peersRx peer hmem
    · obtain ⟨addr, -, rfl⟩ := List.mem_map.mp hmem
      exact henters

/-- What holds of the address of a node and of the peers that it knows holds of all addresses that
it holds at the start. -/
theorem allAddresses_start {announceAddress : AnnounceAddress}
    {knownPeers : AList fun _ : String ↦ PeerConnectionDetails} (hown : K.Announced announceAddress)
    (hknown : ∀ name details, knownPeers.lookup name = some details → K.Held ⟨details, name⟩) :
    (start announceAddress knownPeers).AllAddresses K where
  node := {
    own := hown
    peers := fun name peer address hpeer ↦ by cases hpeer
    known := hknown
    peerConnects := fun peerConnect hmem ↦ by cases hmem
    announced := fun message hmem ↦ by cases hmem }
  tasks task hmem := by cases hmem
  outbound dial hmem := by
    obtain ⟨⟨name, details⟩, hentry, hdial⟩ := List.mem_filterMap.mp hmem
    dsimp only at hdial
    split at hdial
    · cases hdial
      exact hknown name _ (AList.mem_lookup_iff.mpr hentry)
    · cases hdial
  peersRx peer hmem := by cases hmem
  pending addr method address hlookup := by cases hlookup
  incoming method address hloop := by cases hloop
  announcement peerConnect hstage := by rcases hstage with hstage | hstage <;> cases hstage

/-- An address that a connection comes with was held before. -/
theorem AllAddresses.connects (h : hdp.AllAddresses K) (action : Action) :
    hdp.Connects K.Held action := by
  intro h' hcompletes address haddress
  rcases hcompletes.cases with ⟨i, connected, peer, rfl, houtbound, -, rfl⟩ |
    ⟨connected, details, rfl, hloop, -, rfl⟩
  · cases haddress
    exact h.outbound _ (List.mem_of_getElem? houtbound)
  · obtain ⟨⟨method, address'⟩, rfl, rfl⟩ := Option.map_eq_some_iff.mp haddress
    exact h.incoming method address' hloop

/-- The announcement of a peer about itself has the property. -/
def AnnouncesItself (P : AnnounceAddress → Prop) (hdp : Hdp) : Action → Prop
  | .runTask i (.announcePeer address) => ∀ h, hdp.tasks[i]? = some (.handleConnection h .accept) →
      address.name = h.peerName → P address
  | _ => True

/-- A node passes on no hearsay: what holds of its own address, of those that its connections come
with and of those that its peers announce of themselves holds of all that it ever announces,
whatever else its peers, its user and its network tell it. -/
theorem no_hearsay {P : AnnounceAddress → Prop} {announceAddress : AnnounceAddress}
    {knownPeers : AList fun _ : String ↦ PeerConnectionDetails} {actions : List Action}
    (hown : P announceAddress)
    (hconnects : EachStep step (Connects P) (start announceAddress knownPeers) actions)
    (hself : EachStep step (AnnouncesItself P) (start announceAddress knownPeers) actions) :
    EachState step (fun hdp ↦ ∀ message ∈ hdp.node.announced, P message.2)
      (start announceAddress knownPeers) actions := by
  have hall : EachState step (AllAddresses ⟨fun _ ↦ True, P, fun _ _ ↦ trivial⟩)
      (start announceAddress knownPeers) actions := by
    refine eachState_of_invariant (allAddresses_start hown fun _ _ _ ↦ trivial)
      (hconnects.and hself) fun hdp action h haction ↦ h.step ?_ ?_ haction.1
    · cases action <;> trivial
    · cases action with
      | runTask i answer =>
        intro h' htask
        cases answer with
        | announcePeer address => exact ⟨trivial, haction.2 h' htask⟩
        | _ => trivial
      | _ => trivial
  exact hall.mono fun hdp h ↦ h.node.announced

/-! ### A run with hearsay -/

/-- An address of which a peer has told. -/
def hearsay : AnnounceAddress := ⟨.noNat (.v4 0x7f000001 4000), "onyxDuneElk"⟩

/-- What a second peer announces of itself. -/
def ownAnnounce : AnnounceAddress := ⟨.noNat (.v4 0x7f000001 3000), "jadeRiverFox"⟩

/-- Two peers connect, the first one tells of a third, and the second one announces itself. -/
def hearsayTold : List Action :=
  let key : PublicKey := ⟨List.replicate 32 0, length_zeros⟩
  [.runMainLoop (.incoming (.v4 0x7f000001 2000)),
    .runMainLoop (.handshake (.ok ⟨1, "amberCloudYak", key⟩)),
    .runTask 0 .ok, .runTask 0 .ok, .runTask 0 .ok, .runTask 0 .ok,
    .runMainLoop (.incoming (.v4 0x7f000001 3000)),
    .runMainLoop (.handshake (.ok ⟨2, "jadeRiverFox", key⟩)),
    .runTask 1 .ok, .runTask 1 .ok, .runTask 1 .ok, .runTask 1 .ok,
    .runTask 0 (.announcePeer hearsay), .runTask 1 (.announcePeer ownAnnounce)]

/-- Of the third peer nobody is told. -/
theorem no_hearsay_told : ¬∃ message ∈ (finalState step (start ownAnnounceAddress ∅)
    hearsayTold).node.announced, message.2 = hearsay := by
  have hrun (hdp : Hdp) (i : Nat) (answer : Answer) :
      hdp.Connects (· ≠ hearsay) (.runTask i answer) := fun h hcompletes ↦ hcompletes.elim
  have hincoming (hdp : Hdp) (addr : SocketAddr) :
      hdp.Connects (· ≠ hearsay) (.runMainLoop (.incoming addr)) := fun h hcompletes ↦
    hcompletes.elim
  have hhandshake (hdp : Hdp) (connected : Connected)
      (hloop : hdp.mainLoop = .handleIncoming none) :
      hdp.Connects (· ≠ hearsay) (.runMainLoop (.handshake (.ok connected))) := by
    rintro h ⟨details, hdetails, -, rfl⟩ address haddress
    cases hloop.symm.trans hdetails
    cases haddress
  have hconnects : EachStep step (Connects (· ≠ hearsay)) (start ownAnnounceAddress ∅)
      hearsayTold :=
    ⟨hincoming _ _, hhandshake _ _ rfl, hrun _ _ _, hrun _ _ _, hrun _ _ _, hrun _ _ _,
      hincoming _ _, hhandshake _ _ rfl, hrun _ _ _, hrun _ _ _, hrun _ _ _, hrun _ _ _,
      hrun _ _ _, hrun _ _ _, trivial⟩
  have hself : EachStep step (AnnouncesItself (· ≠ hearsay)) (start ownAnnounceAddress ∅)
      hearsayTold := by
    refine ⟨trivial, trivial, trivial, trivial, trivial, trivial, trivial, trivial, trivial,
      trivial, trivial, trivial, fun h htask hname ↦ ?_, fun h htask hname ↦ ?_, trivial⟩
    · cases htask
      exact absurd hname (by decide)
    · decide
  rintro ⟨message, hmem, hmessage⟩
  exact (no_hearsay (P := (· ≠ hearsay)) (by decide) hconnects hself).final message hmem hmessage

end Hdp

end HarddriveParty
