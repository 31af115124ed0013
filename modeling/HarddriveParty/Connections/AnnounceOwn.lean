import HarddriveParty.Base.Runs
import HarddriveParty.Connections.PeerMap

/-!
# Whose announce address a registered peer has

An entry in the map of peers is named by the certificate, while its announce address comes from
the announcement that was dialled, from the pending connections by socket address, or from the
peer itself. Only the last is compared with the certificate. The addresses in the map are those
of their peers exactly as long as no connection is entered with the address of another peer.
-/

namespace HarddriveParty

open Runs HandleConnection

namespace Hdp

/-- The announce address of every registered peer is its own. -/
def AddressesOwn (hdp : Hdp) : Prop :=
  ∀ name peer address, hdp.node.peer? name = some peer → peer.announceAddress = some address →
    address.name = name

/-- A connection that enters the map comes without an announce address, or with one that has the
name of its certificate. -/
def RegistersOwn (hdp : Hdp) : Action → Prop
  | .runTask i _ => ∀ h, hdp.tasks[i]? = some (.handleConnection h .register) →
      ¬hdp.node.HasLive h.peerName →
        ∀ address, h.announceAddress = some address → address.name = h.peerName
  | _ => True

/-- What a new connection makes the node announce is the address of the new peer, to the others,
and to the new peer addresses of which each is in the entry of the peer with its name. -/
def ForwardsOwn (hdp : Hdp) : Action → Prop
  | .runTask i _ => ∀ h connections announces,
      hdp.tasks[i]? = some (.handleConnection h .register) →
        (h.register hdp.node).2 = .clearManual connections announces →
          (∀ address, h.announceAddress = some address → address.name = h.peerName) ∧
            ∀ address ∈ announces, ∃ peer, hdp.node.peer? address.name = some peer ∧
              peer.announceAddress = some address
  | _ => True

/-- The peer that completes a handshake is the one that was dialled, or whose pending connection
the socket address stands for. -/
def AnswersOwn (hdp : Hdp) : Action → Prop
  | .runOutbound i (.ok connected) => ∀ peer, hdp.outbound[i]? = some (peer, .connect) →
      peer.announceAddress.name = connected.peerName
  | .runMainLoop (.handshake (.ok connected)) => ∀ method address,
      hdp.mainLoop = .handleIncoming (some (method, address)) → address.name = connected.peerName
  | _ => True

end Hdp

/-- An entry after a step was there before with its announce address, or has just got that of
the peer itself. -/
def NodeState.KeepsAddresses (node node' : NodeState) : Prop :=
  ∀ name peer, node'.peer? name = some peer →
    (∃ peer', node.peer? name = some peer' ∧ peer'.announceAddress = peer.announceAddress) ∨
      ∃ address, peer.announceAddress = some address ∧ address.name = name

section Tasks

variable {node node' : NodeState}

private theorem keepsAddresses_of_peers (h : node'.peers = node.peers) :
    node.KeepsAddresses node' := by
  intro name peer hpeer
  unfold NodeState.peer? at hpeer
  rw [h] at hpeer
  exact Or.inl ⟨peer, hpeer, rfl⟩

private theorem handle_keepsAddresses (h : HandleConnection) (answer : Answer) {stage : Stage}
    (hstage : stage ≠ .register) : node.KeepsAddresses (h.next node answer stage).1 := by
  cases stage with
  | checkManual => exact keepsAddresses_of_peers (h.checkManual_cases node).1
  | register => exact absurd rfl hstage
  | clearManual connections announces => exact keepsAddresses_of_peers rfl
  | greet connections announces => exact keepsAddresses_of_peers rfl
  | accept =>
    obtain ⟨-, -, hpeers | ⟨address, hname, haccept⟩⟩ := h.accept_cases node answer
    · exact keepsAddresses_of_peers hpeers
    · intro name peer hpeer
      rw [HandleConnection.next, haccept, handleSelfAnnouncement_peer] at hpeer
      split at hpeer
      · next heq =>
        obtain ⟨peer', -, rfl⟩ := Option.map_eq_some_iff.mp hpeer
        exact Or.inr ⟨address, rfl, hname.trans heq.symm⟩
      · exact Or.inl ⟨peer, hpeer, rfl⟩
  | cleanUp err =>
    rcases h.cleanUp_cases node err with ⟨address, -, hpeers, -⟩ | hcleanUp
    · intro name peer hpeer
      unfold NodeState.peer? at hpeer
      rw [HandleConnection.next, hpeers] at hpeer
      by_cases hname : name = h.peerName
      · subst hname
        simp at hpeer
      · rw [AList.lookup_erase_ne hname] at hpeer
        exact Or.inl ⟨peer, hpeer, rfl⟩
    · apply keepsAddresses_of_peers
      rw [HandleConnection.next, hcleanUp]
  | sayDisconnected err address => exact keepsAddresses_of_peers rfl
  | decideReconnect wasConnected address =>
    apply keepsAddresses_of_peers
    rw [HandleConnection.next, (h.decideReconnect_cases node wasConnected address).1]
  | reconnect address connect =>
    exact keepsAddresses_of_peers (connect.next_peers node answer address).1
  | finished => exact keepsAddresses_of_peers rfl

private theorem task_keepsAddresses {task : Task} (answer : Answer)
    (htask : ∀ h, task ≠ .handleConnection h .register) :
    node.KeepsAddresses (task.next node answer).1 := by
  cases task with
  | handleConnection h stage =>
    apply handle_keepsAddresses
    rintro rfl
    exact htask h rfl
  | connectToPeer address connect =>
    exact keepsAddresses_of_peers (connect.next_peers node answer address).1
  | disconnectPeer name disconnect =>
    exact keepsAddresses_of_peers (disconnect.next_peers node name).1

end Tasks

namespace Hdp

variable {hdp hdp' : Hdp} {action : Action}

private theorem AddressesOwn.of_keepsAddresses (h : hdp.AddressesOwn)
    (hkeeps : hdp.node.KeepsAddresses hdp'.node) : hdp'.AddressesOwn := by
  intro name peer address hpeer haddress
  rcases hkeeps name peer hpeer with ⟨peer', hpeer', hsame⟩ | ⟨address', haddress', hname⟩
  · exact h name peer' address hpeer' (hsame.trans haddress)
  · cases haddress.symm.trans haddress'
    exact hname

private theorem addressesOwn_register_iff (h : hdp.AddressesOwn) {h' : HandleConnection}
    (hnode : hdp'.node = (h'.register hdp.node).1) :
    hdp'.AddressesOwn ↔ (¬hdp.node.HasLive h'.peerName →
      ∀ address, h'.announceAddress = some address → address.name = h'.peerName) := by
  rcases h'.register_cases hdp.node with ⟨hlive, connections, announces, -, hentered⟩ | hrejected
  · constructor
    · intro hown _ address haddress
      apply hown h'.peerName ⟨h'.conn, h'.peerPublicKey, h'.announceAddress⟩ address _ haddress
      rw [hnode, hentered.peer, if_pos rfl]
    · intro hown name peer address hpeer haddress
      rw [hnode, hentered.peer] at hpeer
      split at hpeer
      · next hname =>
        cases hpeer
        exact (hown hlive address haddress).trans hname.symm
      · exact h name peer address hpeer haddress
  · obtain ⟨hlive, -, hpeers, -⟩ := hrejected
    apply iff_of_true
    · apply h.of_keepsAddresses
      rw [hnode]
      exact keepsAddresses_of_peers hpeers
    · exact fun hnot ↦ absurd hlive hnot

/-- A step keeps the addresses right exactly when a connection that it enters has its own. -/
theorem addressesOwn_step_iff (h : hdp.AddressesOwn) :
    (hdp.step action).AddressesOwn ↔ hdp.RegistersOwn action := by
  by_cases hrun : ∃ i answer, action = .runTask i answer
  · obtain ⟨i, answer, rfl⟩ := hrun
    cases htask : hdp.tasks[i]? with
    | none =>
      rw [runTask_eq_self htask]
      exact iff_of_true h (by simp [RegistersOwn, htask])
    | some task =>
      have hnode := (runTask_eq htask answer).1
      by_cases hregister : ∃ h', task = .handleConnection h' .register
      · obtain ⟨h', rfl⟩ := hregister
        rw [addressesOwn_register_iff h hnode]
        simp [RegistersOwn, htask]
      · apply iff_of_true
        · apply h.of_keepsAddresses
          rw [hnode]
          exact task_keepsAddresses answer fun h' heq ↦ hregister ⟨h', heq⟩
        · intro h' hh'
          cases htask.symm.trans hh'
          exact absurd ⟨h', rfl⟩ hregister
  · have hkeeps : KeepsPeers hdp (hdp.step action) :=
      step_keepsPeers fun i answer heq ↦ hrun ⟨i, answer, heq⟩
    apply iff_of_true (h.of_keepsAddresses (keepsAddresses_of_peers hkeeps.peers))
    cases action with
    | runTask i answer => exact absurd ⟨i, answer, rfl⟩ hrun
    | _ => trivial

/-- While all addresses are their peers' own, so is what a new connection makes the node
announce. -/
theorem forwardsOwn_of_addressesOwn (h : hdp.AddressesOwn) (hregisters : hdp.RegistersOwn action) :
    hdp.ForwardsOwn action := by
  cases action with
  | runTask i answer =>
    intro h' connections announces htask hstage
    rcases h'.register_cases hdp.node with hentered | ⟨-, hfinished, -⟩
    · obtain ⟨hlive, connections', announces', hstage', hentered⟩ := hentered
      cases hstage.symm.trans hstage'
      refine ⟨hregisters h' htask hlive, fun address haddress ↦ ?_⟩
      obtain ⟨name, peer, hpeer, hannounce⟩ := hentered.announces address haddress
      have hname := h name peer address hpeer hannounce
      exact ⟨peer, hname ▸ hpeer, hannounce⟩
    · cases hstage.symm.trans hfinished
  | _ => trivial

/-! ### Handshakes -/

/-- The connections of all tasks come without an announce address, or with one that has the name
of their certificate. -/
def TasksOwn (hdp : Hdp) : Prop :=
  ∀ h stage, .handleConnection h stage ∈ hdp.tasks →
    ∀ address, h.announceAddress = some address → address.name = h.peerName

/-- A step keeps the addresses of all connections right when a handshake that it completes is
with the peer that was meant. -/
theorem tasksOwn_step (h : hdp.TasksOwn) (hown : hdp.AnswersOwn action) :
    (hdp.step action).TasksOwn := by
  intro h' stage hmem address haddress
  rcases mem_tasks_step hmem with ⟨stage', hmem⟩ | hcompletes
  · exact h h' stage' hmem address haddress
  rcases hcompletes.cases with ⟨i, connected, peer, rfl, houtbound, -, rfl⟩ |
    ⟨connected, details, rfl, hloop, -, rfl⟩
  · cases haddress
    exact hown peer houtbound
  · obtain ⟨⟨method, address'⟩, hdetails, rfl⟩ := Option.map_eq_some_iff.mp haddress
    subst hdetails
    exact hown method address' hloop

theorem registersOwn_of_tasksOwn (h : hdp.TasksOwn) : hdp.RegistersOwn action := by
  cases action with
  | runTask i answer =>
    intro h' htask _
    exact h h' .register (List.mem_of_getElem? htask)
  | _ => trivial

section Start

variable (announceAddress : AnnounceAddress)
  (knownPeers : AList fun _ : String ↦ PeerConnectionDetails) (actions : List Action)

/-- In every run of a node all registered peers have their own announce addresses exactly when
every connection that enters the map comes without one or with the one of the peer with its
certificate; and then the node forwards each address as that of the peer it is registered for. -/
theorem addresses_own_iff :
    (EachState step AddressesOwn (start announceAddress knownPeers) actions ↔
      EachStep step RegistersOwn (start announceAddress knownPeers) actions) ∧
    (EachStep step RegistersOwn (start announceAddress knownPeers) actions →
      EachStep step ForwardsOwn (start announceAddress knownPeers) actions) := by
  have hstart : (start announceAddress knownPeers).AddressesOwn := by
    intro name peer address hpeer
    cases hpeer
  constructor
  · exact eachState_iff_eachStep hstart fun hdp action h ↦ addressesOwn_step_iff h
  · intro hregisters
    apply eachStep_of_invariant hstart hregisters
    · exact fun hdp action h hown ↦ (addressesOwn_step_iff h).mpr hown
    · exact fun hdp action h hown ↦ forwardsOwn_of_addressesOwn h hown

/-- When every handshake is with the peer that was meant, no connection enters the map with the
address of another peer. -/
theorem registersOwn_of_answersOwn
    (hanswers : EachStep step AnswersOwn (start announceAddress knownPeers) actions) :
    EachStep step RegistersOwn (start announceAddress knownPeers) actions := by
  have hstart : (start announceAddress knownPeers).TasksOwn := by
    intro h stage hmem
    cases hmem
  apply eachStep_of_invariant hstart hanswers
  · exact fun hdp action h hown ↦ tasksOwn_step h hown
  · exact fun hdp action h _ ↦ registersOwn_of_tasksOwn h

end Start

/-! ### Runs with a dialled peer -/

/-- Two known peers without NAT. -/
def twoKnownPeers : AList fun _ : String ↦ PeerConnectionDetails :=
  (AList.singleton "jadeRiverFox" (.noNat (.v4 0x7f000001 3000))).insert
    "amberCloudYak" (.noNat (.v4 0x7f000001 2000))

/-- The node dials the address of `amberCloudYak`, and this peer answers. -/
def answeredBy (peerName : String) : List Action :=
  let connected : Except UiServerError Connected :=
    .ok ⟨1, peerName, ⟨List.replicate 32 0, length_zeros⟩⟩
  [.runOutbound 0 connected, .runOutbound 0 connected, .runOutbound 0 connected,
    .runOutbound 0 connected, .runTask 0 .ok, .runTask 0 .ok]

theorem addresses_own_answered :
    EachState step AddressesOwn (start ⟨.noNat (.v4 0x7f000001 1000), "ownName"⟩ twoKnownPeers)
      (answeredBy "amberCloudYak") := by
  apply (addresses_own_iff _ _ _).1.mpr
  refine ⟨trivial, trivial, trivial, trivial, ?_, ?_, trivial⟩
  · rintro h htask
    cases htask
  · rintro h htask - address haddress
    cases htask
    cases haddress
    rfl

/-- A peer that answers at the address of another one is registered with its announce address. -/
theorem dialled_address_of_another :
    ¬∀ (announceAddress : AnnounceAddress)
        (knownPeers : AList fun _ : String ↦ PeerConnectionDetails) (actions : List Action),
      EachState step AddressesOwn (start announceAddress knownPeers) actions := by
  intro hclaim
  have hfinal := (hclaim ⟨.noNat (.v4 0x7f000001 1000), "ownName"⟩ twoKnownPeers
    (answeredBy "jadeRiverFox")).final
  have hname := hfinal "jadeRiverFox" _ ⟨.noNat (.v4 0x7f000001 2000), "amberCloudYak"⟩ rfl rfl
  exact absurd hname (by decide)

end Hdp

end HarddriveParty
