import HarddriveParty.Connections.Addresses

/-!
# A network of nodes that announce each other

Each node of a network runs as before; an announcement that it accepts on a connection has been
sent by the node at the other end, and may be on its way for as long as it likes. Two things hold
of the network as a whole, in whatever order the nodes go on. No announce address is wrong
anywhere, as long as none is that is entered from outside. And any two peers of one node learn of
each other: the address of the one is known to the other, or on its way to it.
-/

namespace HarddriveParty

open Runs

namespace Hdp

variable {hdp : Hdp} {address : AnnounceAddress}

/-- The announcements that the discovery task has not received. -/
def waiting (hdp : Hdp) : List PeerConnect := hdp.node.peerConnects.drop hdp.announcesReceived

/-- The peer of an announcement is known, or it is going to be. -/
def Learns (hdp : Hdp) (address : AnnounceAddress) : Prop :=
  address.name ∈ hdp.node.knownPeers ∨ ∃ peerConnect ∈ hdp.waiting,
    peerConnect.announceAddress = address

end Hdp

/-! ### What a node has learnt -/

/-- Known peers stay known, and what was sent to the discovery task stays sent. -/
structure NodeState.Grows (node node' : NodeState) : Prop where
  known : ∀ name ∈ node.knownPeers, name ∈ node'.knownPeers
  peerConnects : node.peerConnects <+: node'.peerConnects

namespace NodeState

variable {node node' : NodeState}

theorem Grows.refl (node : NodeState) : node.Grows node := ⟨fun _ ↦ id, List.prefix_rfl⟩

/-- What no known peer and no announcement is lost of has grown. -/
theorem Grows.of_eq (hknown : node'.knownPeers = node.knownPeers)
    (hconnects : node'.peerConnects = node.peerConnects) : node.Grows node' :=
  ⟨fun name hname ↦ by rwa [hknown], by rw [hconnects]⟩

theorem grows_setClosed (node : NodeState) (conn : Nat) (error : ConnectionError) :
    node.Grows (node.setClosed conn error) := by
  unfold setClosed
  split <;> exact .of_eq rfl rfl

theorem grows_addKnownPeer (address : AnnounceAddress) :
    node.Grows { node with toSharedState := node.toSharedState.addKnownPeer address } :=
  ⟨fun _ hname ↦ (AList.mem_insert _).mpr (Or.inr hname), List.prefix_rfl⟩

end NodeState

section Tasks

variable {node : NodeState}

theorem ConnectToPeer.next_grows (connect : ConnectToPeer) (answer : Answer)
    (address : AnnounceAddress) : node.Grows (connect.next address node answer).1 := by
  cases connect with
  | start =>
    simp only [ConnectToPeer.next]
    split <;> exact .refl _
  | send => cases answer <;> exact ⟨fun _ ↦ id, by simp [ConnectToPeer.next]⟩
  | response => cases answer <;> exact .refl _
  | clearManual => exact .of_eq rfl rfl
  | returned result => exact .refl _

theorem HandleConnection.next_grows (h : HandleConnection) (answer : Answer) (stage : Stage) :
    node.Grows (h.next node answer stage).1 := by
  cases stage with
  | checkManual =>
    rw [next, checkManual]
    split
    · exact NodeState.grows_setClosed _ _ _
    · exact .refl _
  | register =>
    rw [next, register]
    split
    · next existingPeer _ =>
      split
      · exact NodeState.grows_setClosed _ _ _
      · have hclosed := NodeState.grows_setClosed
          { node with peers := node.peers.erase h.peerName } existingPeer.connection
          (.locallyClosed "replaced connection")
        exact ⟨hclosed.known, hclosed.peerConnects⟩
    · exact .of_eq rfl rfl
  | accept =>
    cases answer with
    | announcePeer address =>
      rw [next]
      unfold accept
      dsimp only
      split
      · exact ⟨fun _ hname ↦ (AList.mem_insert _).mpr (Or.inr hname), List.prefix_rfl⟩
      · exact ⟨fun _ ↦ id, List.prefix_append _ _⟩
    | _ => exact .refl _
  | cleanUp err =>
    rw [next, cleanUp]
    split <;> exact .of_eq rfl rfl
  | decideReconnect wasConnected address =>
    rw [next, (h.decideReconnect_cases node wasConnected address).1]
    exact .refl _
  | reconnect address connect => exact connect.next_grows answer address
  | _ => exact .of_eq rfl rfl

theorem Task.next_grows (task : Task) (answer : Answer) :
    node.Grows (task.next node answer).1 := by
  cases task with
  | handleConnection h stage => exact h.next_grows answer stage
  | connectToPeer address connect => exact connect.next_grows answer address
  | disconnectPeer name disconnect =>
    cases disconnect with
    | lookUp =>
      simp only [Task.next, DisconnectPeer.next]
      split <;> exact .refl _
    | mark connection =>
      have hclosed := NodeState.grows_setClosed { node with
        manuallyDisconnectedPeers := insert name node.manuallyDisconnectedPeers } connection
        (.locallyClosed "disconnect")
      exact ⟨hclosed.known, hclosed.peerConnects⟩
    | returned result => exact .refl _

end Tasks

namespace Hdp

variable {hdp : Hdp} {action : Action} {address : AnnounceAddress}

/-- Only the discovery task receives what was sent to it. -/
theorem step_grows (h : ∀ sockets holePuncher, action ≠ .runAnnouncement sockets holePuncher) :
    hdp.node.Grows (hdp.step action).node ∧
      (hdp.step action).announcesReceived = hdp.announcesReceived := by
  cases action with
  | runTask i answer =>
    cases htask : hdp.tasks[i]? with
    | none =>
      rw [runTask_eq_self htask]
      exact ⟨.refl _, rfl⟩
    | some task =>
      refine ⟨?_, rfl⟩
      rw [(runTask_eq htask answer).1]
      exact task.next_grows answer
  | lose conn error => exact ⟨NodeState.grows_setClosed _ conn error, rfl⟩
  | runOutbound i result =>
    obtain ⟨_, _, hnode, -⟩ := hdp.runOutbound_node i result
    rw [step, hnode, runOutbound]
    refine ⟨.of_eq rfl rfl, ?_⟩
    split <;> rfl
  | runMainLoop input =>
    obtain ⟨_, _, hnode⟩ := hdp.runMainLoop_eq input
    rw [step, hnode, runMainLoop.eq_def]
    refine ⟨.of_eq rfl rfl, ?_⟩
    split
    · split <;> rfl
    · split <;> rfl
    · split <;> rfl
    · split <;> rfl
    · rfl
    · rfl
    · rfl
  | runAnnouncement sockets holePuncher => exact absurd rfl (h sockets holePuncher)
  | mdns announceAddress connectTo => exact ⟨NodeState.grows_addKnownPeer _, rfl⟩
  | connectToPeer announceAddress => exact ⟨.refl _, rfl⟩
  | disconnectPeer peerName => exact ⟨.refl _, rfl⟩
  | shutDown => exact ⟨.of_eq rfl rfl, rfl⟩

/-- The discovery task receives the next announcement and makes its peer known, or it changes
nothing of what is known and sent. -/
theorem runAnnouncement_receives (hdp : Hdp) (sockets : Sockets) (holePuncher : HolePuncher) :
    (hdp.runAnnouncement sockets holePuncher).node = hdp.node ∧
      (hdp.runAnnouncement sockets holePuncher).announcesReceived = hdp.announcesReceived ∨
    ∃ peerConnect, hdp.node.peerConnects[hdp.announcesReceived]? = some peerConnect ∧
      (hdp.runAnnouncement sockets holePuncher).node = { hdp.node with
        toSharedState := hdp.node.toSharedState.addKnownPeer peerConnect.announceAddress } ∧
      (hdp.runAnnouncement sockets holePuncher).announcesReceived = hdp.announcesReceived + 1 := by
  unfold runAnnouncement
  split
  · split
    · exact Or.inl ⟨rfl, rfl⟩
    · next peerConnect hconnect => exact Or.inr ⟨peerConnect, hconnect, rfl, rfl⟩
  · exact Or.inl ⟨rfl, rfl⟩
  · dsimp only
    split <;> exact Or.inl ⟨rfl, rfl⟩

/-- The discovery task has received no more than was sent to it. -/
theorem announcesReceived_le_step (action : Action)
    (h : hdp.announcesReceived ≤ hdp.node.peerConnects.length) :
    (hdp.step action).announcesReceived ≤ (hdp.step action).node.peerConnects.length := by
  by_cases hrun : ∃ sockets holePuncher, action = .runAnnouncement sockets holePuncher
  · obtain ⟨sockets, holePuncher, rfl⟩ := hrun
    rw [step]
    rcases hdp.runAnnouncement_receives sockets holePuncher with ⟨hnode, hreceived⟩ |
      ⟨peerConnect, hconnect, hnode, hreceived⟩
    · rwa [hnode, hreceived]
    · rw [hnode, hreceived]
      exact (List.getElem?_eq_some_iff.mp hconnect).1
  · obtain ⟨hgrows, hreceived⟩ : hdp.node.Grows (hdp.step action).node ∧ _ :=
      step_grows fun sockets holePuncher heq ↦ hrun ⟨sockets, holePuncher, heq⟩
    rw [hreceived]
    exact h.trans hgrows.peerConnects.length_le

/-- What a node has learnt it keeps. -/
theorem Learns.step (h : hdp.Learns address) (action : Action) :
    (hdp.step action).Learns address := by
  by_cases hrun : ∃ sockets holePuncher, action = .runAnnouncement sockets holePuncher
  · obtain ⟨sockets, holePuncher, rfl⟩ := hrun
    rw [Hdp.step]
    rcases hdp.runAnnouncement_receives sockets holePuncher with ⟨hnode, hreceived⟩ |
      ⟨peerConnect, hconnect, hnode, hreceived⟩
    · rwa [Learns, waiting, hnode, hreceived]
    · have hwaiting : hdp.waiting =
          peerConnect :: hdp.node.peerConnects.drop (hdp.announcesReceived + 1) := by
        obtain ⟨hlt, rfl⟩ := List.getElem?_eq_some_iff.mp hconnect
        exact List.drop_eq_getElem_cons hlt
      rw [Learns, waiting, hnode, hreceived]
      rcases h with hknown | ⟨peerConnect', hmem, haddress⟩
      · exact Or.inl ((AList.mem_insert _).mpr (Or.inr hknown))
      · rw [hwaiting] at hmem
        rcases List.mem_cons.mp hmem with rfl | hmem
        · exact Or.inl ((AList.mem_insert _).mpr (Or.inl (congrArg (·.name) haddress.symm)))
        · exact Or.inr ⟨peerConnect', hmem, haddress⟩
  · obtain ⟨hgrows, hreceived⟩ : hdp.node.Grows (hdp.step action).node ∧ _ :=
      step_grows fun sockets holePuncher heq ↦ hrun ⟨sockets, holePuncher, heq⟩
    rcases h with hknown | ⟨peerConnect, hmem, haddress⟩
    · exact Or.inl (hgrows.known _ hknown)
    · refine Or.inr ⟨peerConnect, ?_, haddress⟩
      rw [waiting, hreceived]
      exact (hgrows.peerConnects.drop _).subset hmem

/-- A node learns of a peer by each announcement that it accepts, whomever it is from. -/
theorem learns_of_receives {conn : Nat}
    (hle : hdp.announcesReceived ≤ hdp.node.peerConnects.length)
    (h : hdp.receives action = some (conn, address)) : (hdp.step action).Learns address := by
  obtain ⟨i, handle, rfl, htask, -⟩ := receives_eq_some_iff.mp h
  obtain ⟨hnode, -⟩ := runTask_eq htask (.announcePeer address)
  have hreceived : (hdp.step (.runTask i (.announcePeer address))).announcesReceived =
      hdp.announcesReceived := rfl
  rw [Learns, waiting, hreceived, hnode, Task.next, HandleConnection.next]
  unfold HandleConnection.accept
  dsimp only
  split
  · exact Or.inl ((AList.mem_insert _).mpr (Or.inl rfl))
  · refine Or.inr ⟨⟨.gossip, address⟩, ?_, rfl⟩
    rw [List.drop_append_of_le_length hle]
    exact List.mem_append_right _ List.mem_cons_self

end Hdp

/-! ### The network -/

/-- A network of nodes, and the announcements that they have accepted, each with the node and its
end of the connection. -/
structure Network (ι : Type) where
  nodes : ι → Hdp
  received : List (ι × Nat × AnnounceAddress)

namespace Network

variable {ι : Type} [DecidableEq ι]

/-- All nodes have just started. -/
def start (own : ι → AnnounceAddress)
    (knownPeers : ι → AList fun _ : String ↦ PeerConnectionDetails) : Network ι :=
  ⟨fun x ↦ Hdp.start (own x) (knownPeers x), []⟩

/-- The network after a step of one of its nodes. -/
def step (net : Network ι) (action : ι × Hdp.Action) : Network ι where
  nodes := Function.update net.nodes action.1 ((net.nodes action.1).step action.2)
  received := net.received ++
    ((net.nodes action.1).receives action.2).toList.map fun message ↦ (action.1, message)

/-- An address is right if the node with its name has no other. -/
def Truthful (own : ι → AnnounceAddress) (address : AnnounceAddress) : Prop :=
  ∀ x, (own x).name = address.name → own x = address

variable (farEnd : ι → Nat → ι × Nat)

/-- An announcement that a node accepts was sent by the node at the other end of the connection. -/
def Faithful (net : Network ι) (action : ι × Hdp.Action) : Prop :=
  ∀ message ∈ (net.nodes action.1).receives action.2,
    ((farEnd action.1 message.1).2, message.2) ∈
      (net.nodes (farEnd action.1 message.1).1).node.announced

/-- A node is going to announce an address on a connection, or the announcement has been sent and
not been accepted, or the node at the other end has not looked at it. -/
def OnItsWay (net : Network ι) (hub : ι) (conn : Nat) (address : AnnounceAddress) : Prop :=
  (conn, address) ∈ (net.nodes hub).announcing ∨
  (conn, address) ∈ (net.nodes hub).node.announced ∧
    ((farEnd hub conn).1, (farEnd hub conn).2, address) ∉ net.received ∨
  ∃ peerConnect ∈ (net.nodes (farEnd hub conn).1).waiting, peerConnect.announceAddress = address

/-- What holds in every state of a network. -/
structure Consistent (net : Network ι) : Prop where
  introduced : ∀ x, (net.nodes x).Introduced
  sent : ∀ x, (net.nodes x).announcesReceived ≤ (net.nodes x).node.peerConnects.length
  learns : ∀ x conn address, (x, conn, address) ∈ net.received → (net.nodes x).Learns address

variable {farEnd} {own : ι → AnnounceAddress} {net : Network ι}

/-- What holds of the node that has made the step and of all other nodes before it holds of all
nodes. -/
private theorem forall_nodes {Q : ι → Hdp → Prop} {x : ι} {hdp : Hdp} (hnext : Q x hdp)
    (hother : ∀ y, Q y (net.nodes y)) (y : ι) : Q y (Function.update net.nodes x hdp y) :=
  (Function.forall_update_iff net.nodes Q).mpr ⟨hnext, fun z _ ↦ hother z⟩ y

theorem Consistent.step {action : ι × Hdp.Action} (h : net.Consistent) :
    (net.step action).Consistent where
  introduced := forall_nodes ((h.introduced action.1).step action.2) h.introduced
  sent := forall_nodes
    (Q := fun _ hdp ↦ hdp.announcesReceived ≤ hdp.node.peerConnects.length)
    (Hdp.announcesReceived_le_step action.2 (h.sent action.1)) h.sent
  learns x conn address hmem := by
    rcases List.mem_append.mp hmem with hmem | hmem
    · refine forall_nodes (Q := fun y hdp ↦ (y, conn, address) ∈ net.received → hdp.Learns address)
        (fun hmem ↦ (h.learns action.1 conn address hmem).step action.2)
        (fun y ↦ h.learns y conn address) x hmem
    · obtain ⟨message, hreceives, hmessage⟩ := List.mem_map.mp hmem
      cases hmessage
      show (Function.update net.nodes _ _ _).Learns address
      rw [Function.update_self]
      exact Hdp.learns_of_receives (h.sent action.1) (Option.mem_toList.mp hreceives)

/-- All addresses are to be right. -/
def truthful (own : ι → AnnounceAddress) : AddressKind := ⟨Truthful own, Truthful own, fun _ ↦ id⟩

/-- As long as only right addresses come from outside, all addresses stay right. -/
theorem allAddresses_step {action : ι × Hdp.Action}
    (h : ∀ x, (net.nodes x).AllAddresses (truthful own))
    (henters : action.2.Enters (Truthful own)) (hfaithful : net.Faithful farEnd action) (x : ι) :
    ((net.step action).nodes x).AllAddresses (truthful own) := by
  obtain ⟨y, action⟩ := action
  refine forall_nodes (Q := fun _ hdp ↦ hdp.AllAddresses (truthful own))
    ((h y).step henters ?_ ((h y).connects action)) h x
  cases action with
  | runTask i answer =>
    intro h' htask
    cases answer with
    | announcePeer address =>
      have hsent := (h (farEnd y h'.conn).1).node.announced _
        (hfaithful (h'.conn, address) (Hdp.receives_eq_some_iff.mpr ⟨i, h', rfl, htask, rfl⟩))
      exact ⟨hsent, fun _ ↦ hsent⟩
    | _ => trivial
  | _ => trivial

/-- In every state of every network, if two peers are in the map of a node and the address of the
one is known there, then it is on its way to the other, or the other knows the peer with its
name. -/
theorem peers_learn (farEnd : ι → Nat → ι × Nat) (own : ι → AnnounceAddress)
    (knownPeers : ι → AList fun _ : String ↦ PeerConnectionDetails)
    (actions : List (ι × Hdp.Action)) :
    EachState step (fun net ↦ ∀ hub name other peer otherPeer address, name ≠ other →
      (net.nodes hub).node.peer? name = some peer → peer.announceAddress = some address →
      (net.nodes hub).node.peer? other = some otherPeer →
      net.OnItsWay farEnd hub otherPeer.connection address ∨
        address.name ∈ (net.nodes (farEnd hub otherPeer.connection).1).node.knownPeers)
      (start own knownPeers) actions := by
  have hstart : (start own knownPeers).Consistent := by
    refine ⟨fun x name other peer otherPeer address hne hpeer ↦ ?_, fun x ↦ Nat.zero_le _,
      fun x conn address hmem ↦ by cases hmem⟩
    cases hpeer
  have hall : EachState step Consistent (start own knownPeers) actions :=
    eachState_of_invariant (A := fun _ _ ↦ True) hstart (eachStep_of_forall fun _ _ ↦ trivial)
      fun net action h _ ↦ h.step
  refine hall.mono fun net h ↦ ?_
  intro hub name other peer otherPeer address hne hpeer haddress hother
  have hsaid := h.introduced hub name other peer otherPeer address hne hpeer haddress hother
  rcases List.mem_append.mp hsaid with hsent | hnoted
  · by_cases hreceived : ((farEnd hub otherPeer.connection).1,
        (farEnd hub otherPeer.connection).2, address) ∈ net.received
    · rcases h.learns _ _ _ hreceived with hlearnt | hwaits
      · exact Or.inr hlearnt
      · exact Or.inl (Or.inr (Or.inr hwaits))
    · exact Or.inl (Or.inr (Or.inl ⟨hsent, hreceived⟩))
  · exact Or.inl (Or.inl hnoted)

/-- As long as the addresses that users enter, that nodes find on their local networks and that
they know at the start are right, all announce addresses are right that any node holds, in every
state of the network. -/
theorem addresses_truthful {knownPeers : ι → AList fun _ : String ↦ PeerConnectionDetails}
    {actions : List (ι × Hdp.Action)} (hnames : Function.Injective fun x ↦ (own x).name)
    (hknown : ∀ x name details, (knownPeers x).lookup name = some details →
      Truthful own ⟨details, name⟩)
    (henters : ∀ action ∈ actions, action.2.Enters (Truthful own))
    (hfaithful : EachStep step (Faithful farEnd) (start own knownPeers) actions) :
    EachState step (fun net ↦ ∀ x, (net.nodes x).AllAddresses (truthful own))
      (start own knownPeers) actions := by
  have hstart (x : ι) : ((start own knownPeers).nodes x).AllAddresses (truthful own) :=
    Hdp.allAddresses_start (fun y hname ↦ by rw [hnames hname]) (hknown x)
  exact eachState_of_invariant hstart ((eachStep_of_forall henters).and hfaithful)
    fun net action h haction ↦ allAddresses_step h haction.1 haction.2

/-! ### A node with two peers -/

instance (net : Network ι) (action : ι × Hdp.Action) : Decidable (net.Faithful farEnd action) :=
  inferInstanceAs (Decidable (∀ message ∈ (net.nodes action.1).receives action.2,
    ((farEnd action.1 message.1).2, message.2) ∈
      (net.nodes (farEnd action.1 message.1).1).node.announced))

/-- Three nodes without NAT. -/
def threeOwn : Fin 3 → AnnounceAddress
  | 0 => ⟨.noNat (.v4 0x7f000001 1000), "onyxDuneElk"⟩
  | 1 => ⟨.noNat (.v4 0x7f000001 2000), "amberCloudYak"⟩
  | 2 => ⟨.noNat (.v4 0x7f000001 3000), "jadeRiverFox"⟩

/-- The second and the third one know the first. -/
def threeKnownPeers (x : Fin 3) : AList fun _ : String ↦ PeerConnectionDetails :=
  if x = 0 then ∅ else AList.singleton (threeOwn 0).name (threeOwn 0).connectionDetails

/-- The connections of the first node are `0` and `1`, and its peers call theirs `0`. -/
def threeEnds (x : Fin 3) (conn : Nat) : Fin 3 × Nat :=
  if x = 0 then (if conn = 0 then 1 else 2, 0) else (0, if x = 1 then 0 else 1)

/-- A node dials the first one, and announces itself. -/
def dialsFirst (x : Fin 3) (conn : Nat) : List (Fin 3 × Hdp.Action) :=
  let key : PublicKey := ⟨List.replicate 32 0, length_zeros⟩
  let dials : Hdp.Action := .runOutbound 0 (.ok ⟨0, (threeOwn 0).name, key⟩)
  [(x, dials), (x, dials), (x, dials), (x, dials), (x, .runTask 0 .ok), (x, .runTask 0 .ok),
    (x, .runTask 0 .ok), (x, .runTask 0 .ok),
    (0, .runMainLoop (.incoming (.v4 0x7f000001 4000))),
    (0, .runMainLoop (.handshake (.ok ⟨conn, (threeOwn x).name, key⟩))),
    (0, .runTask conn .ok), (0, .runTask conn .ok), (0, .runTask conn .ok), (0, .runTask conn .ok),
    (0, .runTask conn (.announcePeer (threeOwn x)))]

/-- Both other nodes connect to the first one, which announces the second to the third. -/
def thirdLearns : List (Fin 3 × Hdp.Action) :=
  dialsFirst 1 0 ++ dialsFirst 2 1 ++
    [(2, .runTask 0 (.announcePeer (threeOwn 1))),
      (2, .runAnnouncement ⟨fun _ ↦ .error "", .error ""⟩ ⟨fun _ ↦ .error "", fun _ ↦ .error ""⟩)]

/-- The third node knows the address of the second one, to which it has no connection. -/
theorem addresses_truthful_third :
    ((finalState step (start threeOwn threeKnownPeers) thirdLearns).nodes 2).node.knownPeers.lookup
      "amberCloudYak" = some (threeOwn 1).connectionDetails := by
  have hnames : ∀ x y : Fin 3, (threeOwn x).name = (threeOwn y).name → x = y := by decide
  have hfirst : ∀ x : Fin 3, (threeOwn x).name = (threeOwn 0).name → threeOwn x = threeOwn 0 := by
    decide
  have hknown (x : Fin 3) (name : String) (details : PeerConnectionDetails)
      (hlookup : (threeKnownPeers x).lookup name = some details) :
      Truthful threeOwn ⟨details, name⟩ := by
    have hentry : (⟨name, details⟩ : Sigma fun _ : String ↦ PeerConnectionDetails) ∈
        (threeKnownPeers x).entries := AList.mem_lookup_iff.mp hlookup
    unfold threeKnownPeers at hentry
    split at hentry
    · cases hentry
    · cases List.mem_singleton.mp hentry
      exact hfirst
  have henters : ∀ action ∈ thirdLearns, action.2.Enters (Truthful threeOwn) :=
    List.forall_iff_forall_mem.mp (by repeat constructor)
  have hfaithful : EachStep step (Faithful threeEnds) (start threeOwn threeKnownPeers)
      thirdLearns := by decide +kernel
  have hall := addresses_truthful (fun x y ↦ hnames x y) hknown henters hfaithful
  have hlearnt : (((finalState step (start threeOwn threeKnownPeers) thirdLearns).nodes
      2).node.knownPeers.lookup "amberCloudYak").isSome = true := by decide +kernel
  obtain ⟨details, hlookup⟩ := Option.isSome_iff_exists.mp hlearnt
  have htrue := (hall.final 2).node.known _ _ hlookup 1 rfl
  rw [hlookup, htrue]

end Network

end HarddriveParty
