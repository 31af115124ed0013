import HarddriveParty.Connections.Network
import HarddriveParty.Discovery.Mdns

/-!
# Nodes on a local network

The nodes of a local network announce themselves over mDNS, and each one resolves services, those
of the others and any that somebody else announces, in any order and as often as it likes. Of two
nodes that have found each other, one is told to connect to the other, whatever else goes on; both
are told to only if one has seen the other with a scope id.
-/

namespace HarddriveParty

open Runs

/-! ### What a node sends to its discovery task -/

section Tasks

variable {node : NodeState} {peerConnect : PeerConnect}

theorem ConnectToPeer.next_sends (connect : ConnectToPeer) (answer : Answer)
    (address : AnnounceAddress)
    (h : peerConnect ∈ (connect.next address node answer).1.peerConnects) :
    peerConnect ∈ node.peerConnects ∨ peerConnect.discoveryMethod = .direct := by
  cases connect with
  | start =>
    simp only [ConnectToPeer.next] at h
    split at h <;> exact Or.inl h
  | send =>
    cases answer with
    | connectError err => exact Or.inl h
    | _ =>
      rcases List.mem_append.mp h with h | h
      · exact Or.inl h
      · obtain rfl := List.mem_singleton.mp h
        exact Or.inr rfl
  | response => cases answer <;> exact Or.inl h
  | clearManual => exact Or.inl h
  | returned result => exact Or.inl h

theorem NodeState.sends_of_setClosed {conn : Nat} {error : ConnectionError}
    (h : peerConnect ∈ (node.setClosed conn error).peerConnects) :
    peerConnect ∈ node.peerConnects := by
  unfold setClosed at h
  split at h <;> exact h

theorem HandleConnection.next_sends (h : HandleConnection) (answer : Answer) (stage : Stage)
    (hsends : peerConnect ∈ (h.next node answer stage).1.peerConnects) :
    peerConnect ∈ node.peerConnects ∨ peerConnect.discoveryMethod ≠ .mdns := by
  cases stage with
  | checkManual =>
    rw [next, checkManual] at hsends
    split at hsends
    · exact Or.inl (NodeState.sends_of_setClosed hsends)
    · exact Or.inl hsends
  | register =>
    rw [next, register] at hsends
    split at hsends
    · split at hsends
      · exact Or.inl (NodeState.sends_of_setClosed hsends)
      · have hsent := NodeState.sends_of_setClosed hsends
        exact Or.inl hsent
    · exact Or.inl hsends
  | accept =>
    cases answer with
    | announcePeer address =>
      rw [next] at hsends
      unfold accept at hsends
      dsimp only at hsends
      split at hsends
      · exact Or.inl hsends
      · rcases List.mem_append.mp hsends with hsends | hsends
        · exact Or.inl hsends
        · obtain rfl := List.mem_singleton.mp hsends
          exact Or.inr DiscoveryMethod.noConfusion
    | _ => exact Or.inl hsends
  | cleanUp err =>
    rw [next, cleanUp] at hsends
    split at hsends <;> exact Or.inl hsends
  | decideReconnect wasConnected address =>
    rw [next, (h.decideReconnect_cases node wasConnected address).1] at hsends
    exact Or.inl hsends
  | reconnect address connect =>
    refine (connect.next_sends answer address hsends).imp_right fun hdirect ↦ ?_
    rw [hdirect]
    decide
  | _ => exact Or.inl hsends

/-- No task sends a peer to the discovery task that was found over mDNS. -/
theorem Task.next_sends (task : Task) (answer : Answer)
    (hsends : peerConnect ∈ (task.next node answer).1.peerConnects) :
    peerConnect ∈ node.peerConnects ∨ peerConnect.discoveryMethod ≠ .mdns := by
  cases task with
  | handleConnection h stage => exact h.next_sends answer stage hsends
  | connectToPeer address connect =>
    refine (connect.next_sends answer address hsends).imp_right fun hdirect ↦ ?_
    rw [hdirect]
    decide
  | disconnectPeer name disconnect =>
    cases disconnect with
    | lookUp =>
      simp only [Task.next, DisconnectPeer.next] at hsends
      split at hsends <;> exact Or.inl hsends
    | mark connection =>
      have hsent := NodeState.sends_of_setClosed hsends
      exact Or.inl hsent
    | returned result => exact Or.inl hsends

end Tasks

namespace Hdp

/-- The discovery task is handling this announcement. -/
def AtHand (hdp : Hdp) (peerConnect : PeerConnect) : Prop :=
  hdp.peerAnnouncement = .checkPeers peerConnect ∨ hdp.peerAnnouncement = .handlePeer peerConnect

/-- No announcement for the discovery task was found over mDNS. -/
structure SendsNoMdns (hdp : Hdp) : Prop where
  sent : ∀ peerConnect ∈ hdp.node.peerConnects, peerConnect.discoveryMethod ≠ .mdns
  announcement : ∀ peerConnect, hdp.AtHand peerConnect → peerConnect.discoveryMethod ≠ .mdns

/-- The peers found over mDNS that the node has been told to connect to. -/
def mdnsPeers (hdp : Hdp) : List DiscoveredPeer :=
  (hdp.outbound.map (·.1) ++ hdp.peersRx).filter fun peer ↦ peer.discoveryMethod = .mdns

/-- The action is one of the node itself, and not one of its mDNS task. -/
def Action.OffMdns : Action → Prop
  | .mdns _ _ => False
  | _ => True

variable {hdp : Hdp} {action : Action} {peerConnect : PeerConnect}

/-- The main loop and the dials leave the discovery task alone. -/
theorem runMainLoop_peerAnnouncement (input : Input) :
    (hdp.runMainLoop input).peerAnnouncement = hdp.peerAnnouncement := by
  unfold runMainLoop
  split
  · split <;> rfl
  · split <;> rfl
  · split <;> rfl
  · split <;> rfl
  · rfl
  · rfl
  · rfl

theorem runOutbound_peerAnnouncement (i : Nat) (result : Except UiServerError Connected) :
    (hdp.runOutbound i result).peerAnnouncement = hdp.peerAnnouncement := by
  unfold runOutbound
  split <;> rfl

theorem not_atHand_receive (h : hdp.peerAnnouncement = .receive) : ¬hdp.AtHand peerConnect := by
  rintro (hstage | hstage)
  · rw [h] at hstage
    cases hstage
  · rw [h] at hstage
    cases hstage

/-- The discovery task handles what was sent to it. -/
theorem runAnnouncement_atHand {sockets : Sockets} {holePuncher : HolePuncher}
    (h : (hdp.runAnnouncement sockets holePuncher).AtHand peerConnect) :
    hdp.AtHand peerConnect ∨ peerConnect ∈ hdp.node.peerConnects := by
  unfold runAnnouncement at h
  split at h
  · split at h
    · exact Or.inl h
    · next peerConnect' hconnect =>
      rw [AtHand] at h
      dsimp only at h
      split at h
      · rcases h with h | h <;> cases h
      · rcases h with h | h
        · cases h
          exact Or.inr (List.mem_of_getElem? hconnect)
        · cases h
  · next peerConnect' hstage =>
    rw [AtHand] at h
    dsimp only at h
    split at h
    · rcases h with h | h <;> cases h
    · rcases h with h | h
      · cases h
      · cases h
        exact Or.inl (Or.inl hstage)
  · dsimp only at h
    split at h
    · exact absurd h (not_atHand_receive rfl)
    · exact absurd h (not_atHand_receive rfl)
    · exact absurd h (not_atHand_receive rfl)

theorem atHand_step (h : (hdp.step action).AtHand peerConnect) :
    hdp.AtHand peerConnect ∨ peerConnect ∈ hdp.node.peerConnects := by
  cases action with
  | runMainLoop input =>
    rw [step, AtHand, runMainLoop_peerAnnouncement] at h
    exact Or.inl h
  | runOutbound i result =>
    rw [step, AtHand, runOutbound_peerAnnouncement] at h
    exact Or.inl h
  | runAnnouncement sockets holePuncher => exact runAnnouncement_atHand h
  | _ => exact Or.inl h

/-- No step sends a peer to the discovery task that was found over mDNS. -/
theorem sends_step (h : peerConnect ∈ (hdp.step action).node.peerConnects) :
    peerConnect ∈ hdp.node.peerConnects ∨ peerConnect.discoveryMethod ≠ .mdns := by
  cases action with
  | runTask i answer =>
    cases htask : hdp.tasks[i]? with
    | none =>
      rw [runTask_eq_self htask] at h
      exact Or.inl h
    | some task =>
      rw [(runTask_eq htask answer).1] at h
      exact task.next_sends answer h
  | lose conn error => exact Or.inl (NodeState.sends_of_setClosed h)
  | runOutbound i result =>
    obtain ⟨_, _, hnode, -⟩ := hdp.runOutbound_node i result
    rw [step, hnode] at h
    exact Or.inl h
  | runMainLoop input =>
    obtain ⟨_, _, hnode⟩ := hdp.runMainLoop_eq input
    rw [step, hnode] at h
    exact Or.inl h
  | runAnnouncement sockets holePuncher =>
    rw [step] at h
    rcases hdp.runAnnouncement_receives sockets holePuncher with ⟨hnode, -⟩ | ⟨_, -, hnode, -⟩
    · exact Or.inl (hnode ▸ h)
    · rw [hnode] at h
      exact Or.inl h
  | _ => exact Or.inl h

theorem SendsNoMdns.step (h : hdp.SendsNoMdns) (action : Action) :
    (hdp.step action).SendsNoMdns where
  sent peerConnect hmem := (sends_step hmem).elim (h.sent peerConnect) id
  announcement peerConnect hstage :=
    (atHand_step hstage).elim (h.announcement peerConnect) (h.sent peerConnect)

/-- Only the mDNS task finds peers over mDNS. -/
theorem mdnsPeers_step (h : hdp.SendsNoMdns) (haction : action.OffMdns) :
    (hdp.step action).mdnsPeers = hdp.mdnsPeers := by
  cases action with
  | runOutbound i result =>
    rw [step]
    unfold runOutbound
    split
    · rfl
    · next peer outboundConnect houtbound =>
      have hpeers (outboundConnect' : OutboundConnect) :
          (hdp.outbound.set i (peer, outboundConnect')).map (·.1) = hdp.outbound.map (·.1) := by
        obtain ⟨hlt, hget⟩ := List.getElem?_eq_some_iff.mp houtbound
        rw [List.map_set]
        exact List.set_getElem_self (by simpa using hlt) ▸ by simp [hget]
      rw [mdnsPeers, mdnsPeers, hpeers]
  | runMainLoop input =>
    rw [step]
    unfold runMainLoop
    split
    · split <;> rfl
    · split
      · rfl
      · next peer peersRx hpeers =>
        rw [mdnsPeers, mdnsPeers, hpeers]
        simp
    · split <;> rfl
    · split <;> rfl
    · rfl
    · rfl
    · rfl
  | runAnnouncement sockets holePuncher =>
    rw [step]
    unfold runAnnouncement
    split
    · split <;> rfl
    · rfl
    · next peerConnect hstage =>
      dsimp only
      split
      · rfl
      · next discovered addr hfound =>
        have hmethod : discovered.discoveryMethod ≠ .mdns := by
          rw [(handlePeer_discovers hfound).2]
          exact h.announcement peerConnect (Or.inr hstage)
        rw [mdnsPeers, mdnsPeers]
        simp [hmethod]
      · rfl
  | runTask i answer => rfl
  | lose conn error => rfl
  | connectToPeer announceAddress => rfl
  | disconnectPeer peerName => rfl
  | shutDown => rfl
  | mdns announceAddress connectTo => exact haction.elim

theorem mdnsPeers_mdns (announceAddress : AnnounceAddress) (connectTo : Option SocketAddr) :
    (hdp.step (.mdns announceAddress connectTo)).mdnsPeers = hdp.mdnsPeers ++
      connectTo.toList.map fun socketAddress ↦ ⟨socketAddress, none, .mdns, announceAddress⟩ := by
  cases connectTo <;> simp [step, mdns, mdnsPeers]

/-- Known peers stay known. -/
theorem known_step {name : String} (h : name ∈ hdp.node.knownPeers) (action : Action) :
    name ∈ (hdp.step action).node.knownPeers := by
  by_cases hrun : ∃ sockets holePuncher, action = .runAnnouncement sockets holePuncher
  · obtain ⟨sockets, holePuncher, rfl⟩ := hrun
    rw [step]
    rcases hdp.runAnnouncement_receives sockets holePuncher with ⟨hnode, -⟩ |
      ⟨peerConnect, -, hnode, -⟩
    · rwa [hnode]
    · rw [hnode]
      exact (AList.mem_insert _).mpr (Or.inr h)
  · exact (step_grows fun sockets holePuncher heq ↦ hrun ⟨sockets, holePuncher, heq⟩).1.known _ h

theorem mdnsPeers_subset_step (h : hdp.SendsNoMdns) (action : Action) :
    hdp.mdnsPeers ⊆ (hdp.step action).mdnsPeers := by
  by_cases hmdns : action.OffMdns
  · rw [mdnsPeers_step h hmdns]
    exact List.Subset.refl _
  · cases action with
    | mdns announceAddress connectTo =>
      rw [mdnsPeers_mdns]
      exact List.subset_append_left _ _
    | _ => exact absurd trivial hmdns

variable {engine : Base64.NoPadCodec} {addr : SocketAddr} {info : ResolvedService}

/-- What comes of a service that was resolved: its peer is known, and if our address is the greater
one, the node has been told to connect to it. -/
def Found (engine : Base64.NoPadCodec) (addr : SocketAddr) (info : ResolvedService) (hdp : Hdp) :
    Prop :=
  ∀ theirAddr announceAddress,
    MdnsServer.parsePeerInfo engine info addr = .ok (theirAddr, announceAddress) →
    theirAddr ≠ addr →
    announceAddress.name ∈ hdp.node.knownPeers ∧
      (Utf8.compareBytes addr.text theirAddr.text = .gt →
        ⟨theirAddr, none, .mdns, announceAddress⟩ ∈ hdp.mdnsPeers)

theorem Found.step (hfound : hdp.Found engine addr info) (h : hdp.SendsNoMdns) (action : Action) :
    (hdp.step action).Found engine addr info := by
  intro theirAddr announceAddress hparse hne
  obtain ⟨hknown, hconnects⟩ := hfound theirAddr announceAddress hparse hne
  exact ⟨known_step hknown action, fun hgt ↦ mdnsPeers_subset_step h action (hconnects hgt)⟩

/-- What holds of a node in every state, when its mDNS task has received these services: the task
has found them all, and it tells the node to connect only to addresses smaller than ours. -/
structure Discovers (engine : Base64.NoPadCodec) (addr : SocketAddr)
    (received : List ResolvedService) (hdp : Hdp) : Prop where
  sends : hdp.SendsNoMdns
  greater : ∀ peer ∈ hdp.mdnsPeers, Utf8.compareBytes addr.text peer.socketAddress.text = .gt
  found : ∀ info ∈ received, hdp.Found engine addr info

variable {received : List ResolvedService}

theorem Discovers.act (h : hdp.Discovers engine addr received) (haction : action.OffMdns) :
    (hdp.step action).Discovers engine addr received where
  sends := h.sends.step action
  greater peer hmem := h.greater peer (mdnsPeers_step h.sends haction ▸ hmem)
  found info hmem := (h.found info hmem).step h.sends action

/-- A peer that was found is to be connected to from the greater address. -/
theorem Discovers.find (h : hdp.Discovers engine addr received) (theirAddr : SocketAddr)
    (announceAddress : AnnounceAddress) :
    (hdp.step (.mdns announceAddress
      (if Utf8.compareBytes addr.text theirAddr.text = .gt then some theirAddr
        else none))).Discovers engine addr received where
  sends := h.sends.step _
  greater peer hmem := by
    rw [mdnsPeers_mdns] at hmem
    rcases List.mem_append.mp hmem with hmem | hmem
    · exact h.greater peer hmem
    · split at hmem
      · next hgt =>
        obtain rfl := List.mem_singleton.mp hmem
        exact hgt
      · cases hmem
  found info hmem := (h.found info hmem).step h.sends _

theorem Discovers.receive (h : hdp.Discovers engine addr received)
    (hfound : hdp.Found engine addr info) : hdp.Discovers engine addr (received ++ [info]) where
  sends := h.sends
  greater := h.greater
  found info' hmem := by
    rcases List.mem_append.mp hmem with hmem | hmem
    · exact h.found info' hmem
    · obtain rfl := List.mem_singleton.mp hmem
      exact hfound

theorem discovers_start (announceAddress : AnnounceAddress)
    (knownPeers : AList fun _ : String ↦ PeerConnectionDetails) :
    (start announceAddress knownPeers).Discovers engine addr [] where
  sends := by
    refine ⟨fun _ hmem ↦ ?_, fun _ hstage ↦ absurd hstage (not_atHand_receive rfl)⟩
    cases hmem
  greater peer hmem := by
    -- the peers that are known at the start are connected to directly
    obtain ⟨hpeer, hmethod⟩ := List.mem_filter.mp hmem
    rcases List.mem_append.mp hpeer with hpeer | hpeer
    · obtain ⟨dial, hdial, rfl⟩ := List.mem_map.mp hpeer
      obtain ⟨⟨name, details⟩, -, hknown⟩ := List.mem_filterMap.mp hdial
      cases details with
      | noNat socketAddress =>
        cases hknown
        cases of_decide_eq_true hmethod
      | _ => cases hknown
    · cases hpeer
  found info hmem := by cases hmem

end Hdp

/-! ### A node with its mDNS task -/

/-- The service of an event. -/
def ServiceEvent.service? : ServiceEvent → Option ResolvedService
  | serviceResolved info => some info
  | _ => none

/-- A node with its mDNS task: whether the task has panicked, and the services that it has
received. -/
structure MdnsNode extends Hdp where
  panicked : Bool
  received : List ResolvedService

namespace MdnsNode

/-- What can happen next: a step of the node, or an event for its mDNS task. -/
inductive Action where
  | node (action : Hdp.Action) (offMdns : action.OffMdns)
  | event (event : ServiceEvent)

variable (engine : Base64.NoPadCodec) (addr : SocketAddr)

/-- The mDNS task receives an event, unless it has panicked. -/
def receive (node : MdnsNode) (event : ServiceEvent) : MdnsNode :=
  if node.panicked then node
  else
    let received := node.received ++ event.service?.toList
    match MdnsServer.handleEvent engine addr event with
    | .ok action =>
      { toHdp := action.elim node.toHdp node.toHdp.step, panicked := false, received }
    | .error _ => { node with panicked := true, received }

/-- The node after an action. -/
def step (node : MdnsNode) : Action → MdnsNode
  | .node action _ => { node with toHdp := node.toHdp.step action }
  | .event event => node.receive engine addr event

/-- The node has just started. -/
def start (announceAddress : AnnounceAddress)
    (knownPeers : AList fun _ : String ↦ PeerConnectionDetails) : MdnsNode :=
  ⟨Hdp.start announceAddress knownPeers, false, []⟩

variable {engine addr} {node : MdnsNode}

theorem discovers_step (h : node.Discovers engine addr node.received) (action : Action) :
    (node.step engine addr action).Discovers engine addr
      (node.step engine addr action).received := by
  cases action with
  | node action haction => exact h.act haction
  | event event =>
    rw [step, receive]
    split
    · exact h
    · cases event with
      | serviceResolved info =>
        rw [MdnsServer.handleEvent]
        cases hparse : MdnsServer.parsePeerInfo engine info addr with
        | ok peer =>
          obtain ⟨theirAddr, announceAddress⟩ := peer
          dsimp only
          rw [MdnsServer.serviceResolved]
          split
          · next hself =>
            refine h.receive fun theirAddr' announceAddress' hparse' hne ↦ ?_
            rw [hparse] at hparse'
            cases hparse'
            exact absurd hself hne
          · refine (h.find theirAddr announceAddress).receive
              fun theirAddr' announceAddress' hparse' hne ↦ ?_
            rw [hparse] at hparse'
            cases hparse'
            refine ⟨(AList.mem_insert _).mpr (Or.inl rfl), fun hgt ↦ ?_⟩
            rw [Hdp.mdnsPeers_mdns, if_pos hgt]
            exact List.mem_append_right _ List.mem_cons_self
        | error fault =>
          have hfound : node.Found engine addr info := by
            intro theirAddr announceAddress hparse'
            rw [hparse] at hparse'
            cases hparse'
          cases fault <;> exact h.receive hfound
      | serviceRemoved fullname => exact (List.append_nil _).symm ▸ h
      | other => exact (List.append_nil _).symm ▸ h

/-- A task that runs receives the event, and panics at a service that breaks it. -/
theorem receive_spec (h : node.panicked = false) (event : ServiceEvent) :
    (node.receive engine addr event).received = node.received ++ event.service?.toList ∧
      ((node.receive engine addr event).panicked = true ↔
        ∃ info ∈ event.service?, info.Breaks) := by
  rw [receive, h, if_neg Bool.false_ne_true]
  cases event with
  | serviceResolved info =>
    have hbreaks := MdnsServer.panicked_parsePeerInfo_iff engine info addr
    rw [MdnsServer.handleEvent]
    cases hparse : MdnsServer.parsePeerInfo engine info addr with
    | ok peer => exact ⟨rfl, by simpa [hparse, ServiceEvent.service?] using hbreaks⟩
    | error fault =>
      cases fault <;> exact ⟨rfl, by simpa [hparse, ServiceEvent.service?] using hbreaks⟩
  | serviceRemoved fullname => exact ⟨rfl, by simp [ServiceEvent.service?, MdnsServer.handleEvent]⟩
  | other => exact ⟨rfl, by simp [ServiceEvent.service?, MdnsServer.handleEvent]⟩

/-- A service that breaks the task is the last one that it has received. -/
def EndsAtBreak (node : MdnsNode) : Prop :=
  (node.panicked = false ∧ ∀ info ∈ node.received, ¬info.Breaks) ∨
  (node.panicked = true ∧ ∃ before info, node.received = before ++ [info] ∧ info.Breaks ∧
    ∀ info' ∈ before, ¬info'.Breaks)

theorem EndsAtBreak.receive (h : node.EndsAtBreak) (event : ServiceEvent) :
    (node.receive engine addr event).EndsAtBreak := by
  rcases h with ⟨hruns, hclean⟩ | ⟨hpanicked, hbreak⟩
  · obtain ⟨hreceived, hiff⟩ : (node.receive engine addr event).received = _ ∧ _ :=
      receive_spec hruns event
    cases hstate : (node.receive engine addr event).panicked with
    | false =>
      refine Or.inl ⟨hstate, fun info hmem hbreaks ↦ ?_⟩
      rw [hreceived] at hmem
      rcases List.mem_append.mp hmem with hmem | hmem
      · exact hclean info hmem hbreaks
      · have hpanicked := hiff.mpr ⟨info, Option.mem_toList.mp hmem, hbreaks⟩
        rw [hstate] at hpanicked
        cases hpanicked
    | true =>
      obtain ⟨info, hservice, hbreaks⟩ := hiff.mp hstate
      refine Or.inr ⟨hstate, node.received, info, ?_, hbreaks, hclean⟩
      rw [hreceived, Option.mem_def.mp hservice]
      rfl
  · rw [MdnsNode.receive, if_pos hpanicked]
    exact Or.inr ⟨hpanicked, hbreak⟩

/-- In every state of every run of a node, its mDNS task has panicked if and only if the last
service that it has received has an announce address that cannot be cut, as none that it has
received before has: from the first such service on, the node finds nobody on its local network. -/
theorem broken_service_ends_discovery (engine : Base64.NoPadCodec) (addr : SocketAddr)
    (announceAddress : AnnounceAddress)
    (knownPeers : AList fun _ : String ↦ PeerConnectionDetails) (actions : List Action) :
    EachState (step engine addr) EndsAtBreak (start announceAddress knownPeers) actions := by
  have hstart : (start announceAddress knownPeers).EndsAtBreak :=
    Or.inl ⟨rfl, fun info hmem ↦ by cases hmem⟩
  refine eachState_of_invariant (A := fun _ _ ↦ True) hstart (eachStep_of_forall fun _ _ ↦ trivial)
    fun node action h _ ↦ ?_
  cases action with
  | node action offMdns => exact h
  | event event => exact h.receive event

end MdnsNode

/-! ### The network -/

/-- A node of a local network with the service that it announces. -/
structure Member (engine : Base64.NoPadCodec) where
  id : String
  addr : SocketAddr
  announceAddress : AnnounceAddress
  service : ServiceInfo
  created : MdnsServer.createServiceInfo engine id addr announceAddress = .ok service

/-- The nodes of a local network. -/
abbrev LocalNetwork (ι : Type) := ι → MdnsNode

namespace LocalNetwork

variable {ι : Type} {engine : Base64.NoPadCodec} (members : ι → Member engine)

/-- All nodes have just started. -/
def start (knownPeers : ι → AList fun _ : String ↦ PeerConnectionDetails) : LocalNetwork ι :=
  fun x ↦ MdnsNode.start (members x).announceAddress (knownPeers x)

/-- The network after a step of one of its nodes. -/
def step [DecidableEq ι] (net : LocalNetwork ι) (action : ι × MdnsNode.Action) : LocalNetwork ι :=
  Function.update net action.1 ((net action.1).step engine (members action.1).addr action.2)

/-- A node has found another one: it has received the service that the other one announces. -/
def Finds (net : LocalNetwork ι) (x y : ι) : Prop :=
  ∃ info ∈ (net x).received, (members y).service.ResolvesTo info

/-- A node has been told by its mDNS task to connect to another one at this address. -/
def ConnectsAt (net : LocalNetwork ι) (x y : ι) (theirAddr : SocketAddr) : Prop :=
  (members y).addr.SeenAt theirAddr ∧
    ⟨theirAddr, none, .mdns, (members y).announceAddress⟩ ∈ (net x).mdnsPeers

/-- All nodes find what they receive. -/
def AllDiscover (net : LocalNetwork ι) : Prop :=
  ∀ x, (net x).Discovers engine (members x).addr (net x).received

variable {members} {net : LocalNetwork ι}

theorem AllDiscover.step [DecidableEq ι] (h : net.AllDiscover members)
    (action : ι × MdnsNode.Action) : (net.step members action).AllDiscover members :=
  (Function.forall_update_iff net fun x (node : MdnsNode) ↦
    node.Discovers engine (members x).addr node.received).mpr
      ⟨MdnsNode.discovers_step (h action.1) action.2, fun x _ ↦ h x⟩

/-- A node that has found another one knows it, and from the greater address it has been told to
connect to it. -/
theorem AllDiscover.finds (h : net.AllDiscover members) {x y : ι}
    (hunscoped : ∀ x, (members x).addr.Unscoped ∧
      (members x).announceAddress.connectionDetails.Unscoped)
    (hne : (members x).addr ≠ (members y).addr) (hfinds : net.Finds members x y) :
    (members y).announceAddress.name ∈ (net x).node.knownPeers ∧
      ∃ theirAddr, (members y).addr.SeenAt theirAddr ∧
        (Utf8.compareBytes (members x).addr.text theirAddr.text = .gt →
          net.ConnectsAt members x y theirAddr) := by
  obtain ⟨info, hmem, hresolves⟩ := hfinds
  obtain ⟨theirAddr, hseen, hparse⟩ := MdnsServer.parsePeerInfo_createServiceInfo
    (hunscoped y).2 (members y).created hresolves (members x).addr
  have hother : theirAddr ≠ (members x).addr := by
    rintro rfl
    exact hne (hseen.eq (hunscoped y).1 (hunscoped x).1)
  obtain ⟨hknown, hconnects⟩ := (h x).found info hmem theirAddr _ hparse hother
  exact ⟨hknown, theirAddr, hseen, fun hgt ↦ ⟨hseen, hconnects hgt⟩⟩

/-- Two nodes are not told to connect to each other at the addresses that they have themselves. -/
theorem AllDiscover.not_both (h : net.AllDiscover members) {x y : ι}
    (hx : net.ConnectsAt members x y (members y).addr)
    (hy : net.ConnectsAt members y x (members x).addr) : False := by
  have hgt := (h x).greater _ hx.2
  have hlt := (h y).greater _ hy.2
  rw [Std.OrientedCmp.gt_iff_lt] at hlt
  rw [hlt] at hgt
  cases hgt

/-- In every state of every local network, whatever services are announced there and in whatever
order they are received: if two nodes with different addresses have found each other, then each
knows the other by its name, and at least one of them has been told to connect to the other at an
address at which that one is seen. Both of them have only if one is seen with a scope id. -/
theorem one_connects [DecidableEq ι] (members : ι → Member engine)
    (knownPeers : ι → AList fun _ : String ↦ PeerConnectionDetails)
    (actions : List (ι × MdnsNode.Action))
    (hunscoped : ∀ x, (members x).addr.Unscoped ∧
      (members x).announceAddress.connectionDetails.Unscoped) :
    EachState (step members) (fun net ↦ ∀ x y, (members x).addr ≠ (members y).addr →
      net.Finds members x y → net.Finds members y x →
      (members y).announceAddress.name ∈ (net x).node.knownPeers ∧
      (members x).announceAddress.name ∈ (net y).node.knownPeers ∧
      ((∃ theirAddr, net.ConnectsAt members x y theirAddr) ∨
        ∃ theirAddr, net.ConnectsAt members y x theirAddr) ∧
      ∀ theirAddr theirAddr', net.ConnectsAt members x y theirAddr →
        net.ConnectsAt members y x theirAddr' → ¬(theirAddr.Unscoped ∧ theirAddr'.Unscoped))
      (start members knownPeers) actions := by
  have hall : EachState (step members) (AllDiscover members) (start members knownPeers) actions :=
    eachState_of_invariant (A := fun _ _ ↦ True) (fun x ↦ Hdp.discovers_start _ _)
      (eachStep_of_forall fun _ _ ↦ trivial) fun net action h _ ↦ h.step action
  refine hall.mono fun net h x y hne hxy hyx ↦ ?_
  obtain ⟨hknown, theirAddr, hseen, hconnects⟩ := h.finds hunscoped hne hxy
  obtain ⟨hknown', theirAddr', hseen', hconnects'⟩ := h.finds hunscoped hne.symm hyx
  refine ⟨hknown, hknown', ?_, fun s t hs ht hboth ↦ ?_⟩
  · rcases SocketAddr.one_greater (hunscoped x).1 (hunscoped y).1 hne hseen hseen' with hgt | hgt
    · exact Or.inl ⟨theirAddr, hconnects hgt⟩
    · exact Or.inr ⟨theirAddr', hconnects' hgt⟩
  · obtain rfl := hs.1.eq (hunscoped y).1 hboth.1
    obtain rfl := ht.1.eq (hunscoped x).1 hboth.2
    exact h.not_both hs ht

/-! ### Two nodes that find each other -/

/-- Two nodes without NAT. -/
def twoAddrs (x : Fin 2) : SocketAddr := .v4 (if x = 0 then 0xc0a80009 else 0xc0a8000a) 1000

/-- They announce their own addresses. -/
def twoAnnounceAddresses (x : Fin 2) : AnnounceAddress :=
  ⟨.noNat (twoAddrs x), if x = 0 then "onyxDuneElk" else "amberCloudYak"⟩

/-- The services of the two nodes. -/
def twoMembers (x : Fin 2) : Member Base64.standard where
  id := "0123456789abcdef"
  addr := twoAddrs x
  announceAddress := twoAnnounceAddresses x
  service :=
    { tyDomain := MdnsServer.serviceType
      instanceName := "0123456789abcdef"
      hostName := "0123456789abcdef.local."
      ip := (twoAddrs x).ip
      port := 1000
      properties := [(MdnsServer.announceAddressPropertyName,
        (twoAnnounceAddresses x).toText Base64.standard)] }
  created := by
    have hname : Utf8.slice "0123456789abcdef" 0 (min 16 "0123456789abcdef".utf8ByteSize) =
        some "0123456789abcdef" := by decide +kernel
    rw [MdnsServer.createServiceInfo, hname]
    rfl

/-- What the service of a node is resolved to. -/
def twoResolved (x : Fin 2) : ResolvedService where
  tyDomain := MdnsServer.serviceType
  port := 1000
  addresses := [.v4 (if x = 0 then 0xc0a80009 else 0xc0a8000a)]
  properties := (twoMembers x).service.properties

/-- Each of the two resolves the service of the other. -/
def twoEvents : List (Fin 2 × MdnsNode.Action) :=
  [(0, .event (.serviceResolved (twoResolved 1))), (1, .event (.serviceResolved (twoResolved 0)))]

/-- The two nodes when they have found each other. -/
def twoFound : LocalNetwork (Fin 2) :=
  finalState (step twoMembers) (start twoMembers fun _ ↦ ∅) twoEvents

/-- The text of the smaller address is the greater one: its node is told to connect to the other. -/
theorem one_connects_two : twoFound.ConnectsAt twoMembers 0 1 (twoAddrs 1) := by
  have hunscoped : ∀ x, (twoMembers x).addr.Unscoped ∧
      (twoMembers x).announceAddress.connectionDetails.Unscoped := fun x ↦ ⟨trivial, trivial⟩
  have hresolves (x : Fin 2) : (twoMembers x).service.ResolvesTo (twoResolved x) :=
    ⟨rfl, rfl, rfl, List.cons_ne_nil _ _, fun ip hip ↦ by cases List.mem_singleton.mp hip; rfl⟩
  have hfirst : (twoFound 0).received = [twoResolved 1] := by decide +kernel
  have hsecond : (twoFound 1).received = [twoResolved 0] := by decide +kernel
  have hnone : (twoFound 1).mdnsPeers = [] := by decide +kernel
  have hall := one_connects twoMembers (fun _ ↦ ∅) twoEvents hunscoped
  obtain ⟨-, -, hconnects, -⟩ := hall.final 0 1 (by decide)
    ⟨twoResolved 1, hfirst ▸ List.mem_cons_self, hresolves 1⟩
    ⟨twoResolved 0, hsecond ▸ List.mem_cons_self, hresolves 0⟩
  rcases hconnects with ⟨theirAddr, hconnects⟩ | ⟨theirAddr, -, hmem⟩
  · have hseen : (twoAddrs 1).SeenAt theirAddr := hconnects.1
    cases theirAddr with
    | v4 ip port =>
      rwa [hseen.eq trivial trivial] at hconnects
    | v6 ip port flowinfo scopeId => cases hseen.ip
  · have hmem : _ ∈ (twoFound 1).mdnsPeers := hmem
    rw [hnone] at hmem
    cases hmem

end LocalNetwork

end HarddriveParty
