import HarddriveParty.Base.Runs
import HarddriveParty.Connections.Ownership

/-!
# A node that connects to itself

The known peers outlive a node, and when it starts again it dials those without NAT. An announcement
is added to the known peers before it is compared with the node's own announce address, and only as
a whole. The node stays out of its own map of peers exactly as long as no handshake with its own
certificate completes while its own name is known, and without an announcement under its own name
it does not get known.
-/

namespace HarddriveParty

open Runs HandleConnection

namespace Hdp

/-- What happens to a node without NAT over time: an action, or a restart, perhaps with another
socket address. -/
inductive Event where
  | act (action : Action)
  | restart (socketAddress : SocketAddr)

/-- The node with this name after an event. Of its state only the known peers are stored. -/
def live (name : String) (hdp : Hdp) : Event → Hdp
  | .act action => hdp.step action
  | .restart socketAddress => start ⟨.noNat socketAddress, name⟩ hdp.node.knownPeers

/-- A dial to the node's own address reaches the node, and an incoming connection with the node's
certificate is from the node itself, which has accepted the certificate as that of a known peer. -/
def ReachesItself (name : String) (hdp : Hdp) : Event → Prop
  | .act (.runOutbound i (.ok connected)) => ∀ peer, hdp.outbound[i]? = some (peer, .connect) →
      hdp.node.announceAddress.connectionDetails = .noNat peer.socketAddress →
        connected.peerName = name
  | .act (.runMainLoop (.handshake (.ok connected))) => ∀ details,
      hdp.mainLoop = .handleIncoming details → connected.peerName = name →
        name ∈ hdp.node.knownPeers
  | _ => True

/-- While the node's own name is known, no handshake with its own certificate is made. -/
def AvoidsItself (name : String) (hdp : Hdp) : Event → Prop
  | .act (.runOutbound i (.ok connected)) => ∀ peer, hdp.outbound[i]? = some (peer, .connect) →
      connected.peerName = name → name ∉ hdp.node.knownPeers
  | .act (.runMainLoop (.handshake (.ok connected))) => ∀ details,
      hdp.mainLoop = .handleIncoming details → connected.peerName = name →
        name ∉ hdp.node.knownPeers
  | _ => True

/-- No peer is announced to the node under the node's own name. -/
def AnnouncesOther (name : String) (hdp : Hdp) : Event → Prop
  | .act (.runAnnouncement _ _) => hdp.peerAnnouncement = .receive → ∀ peerConnect,
      hdp.node.peerConnects[hdp.announcesReceived]? = some peerConnect →
        peerConnect.announceAddress.name ≠ name
  | .act (.mdns announceAddress _) => announceAddress.name ≠ name
  | _ => True

/-- The node has no connection to itself, registered or about to be, and none that it would
reject. -/
structure Apart (name : String) (hdp : Hdp) : Prop where
  peers : name ∉ hdp.node.peers
  tasks : ∀ h stage, Task.handleConnection h stage ∈ hdp.tasks → h.peerName ≠ name
  manual : name ∉ hdp.node.manuallyDisconnectedPeers
  marks : ∀ connection, Task.disconnectPeer name (.mark connection) ∉ hdp.tasks

variable {name : String} {hdp : Hdp} {action : Action}

/-! ### The map of peers -/

/-- Only the task of a connection enters its peer in the map. -/
private theorem mem_peers_of_task {task : Task} {node : NodeState} {answer : Answer}
    (hother : ∀ h stage, task = .handleConnection h stage → h.peerName ≠ name) :
    name ∈ (task.next node answer).1.peers ↔ name ∈ node.peers := by
  cases task with
  | handleConnection h stage =>
    rw [NodeState.mem_peers_iff, NodeState.mem_peers_iff, Task.next]
    rw [h.next_peer?_of_ne node answer stage (Ne.symm (hother h stage rfl))]
  | connectToPeer address connect =>
    rw [Task.next, (connect.next_peers node answer address).1]
  | disconnectPeer name' disconnect =>
    rw [Task.next, (disconnect.next_peers node name').1]

private theorem Apart.step_peers (h : hdp.Apart name) : name ∉ (hdp.step action).node.peers := by
  by_cases hrun : ∃ i answer, action = .runTask i answer
  · obtain ⟨i, answer, rfl⟩ := hrun
    cases htask : hdp.tasks[i]? with
    | none =>
      rw [runTask_eq_self htask]
      exact h.peers
    | some task =>
      rw [(runTask_eq htask answer).1, mem_peers_of_task]
      · exact h.peers
      · rintro h' stage rfl
        exact h.tasks h' stage (List.mem_of_getElem? htask)
  · rw [(step_keepsPeers fun i answer heq ↦ hrun ⟨i, answer, heq⟩).peers]
    exact h.peers

private theorem completes_other {h : HandleConnection} (hcompletes : hdp.Completes h action)
    (hreaches : hdp.ReachesItself name (.act action))
    (havoids : hdp.AvoidsItself name (.act action)) : h.peerName ≠ name := by
  rintro rfl
  rcases hcompletes.cases with ⟨i, connected, peer, rfl, houtbound, hknown, rfl⟩ |
    ⟨connected, details, rfl, hloop, -, rfl⟩
  · exact havoids peer houtbound rfl hknown
  · exact havoids details hloop rfl (hreaches details hloop rfl)

/-! ### Manual disconnects and known peers -/

/-- Only a task that is about to mark a peer as disconnected marks it. -/
private theorem mem_manual_of_task {task : Task} {node : NodeState} {answer : Answer}
    (hmem : name ∈ (task.next node answer).1.manuallyDisconnectedPeers) :
    name ∈ node.manuallyDisconnectedPeers ∨
      ∃ connection, task = .disconnectPeer name (.mark connection) := by
  cases task with
  | handleConnection h stage => exact Or.inl ((h.next_keeps node answer stage).manual hmem)
  | connectToPeer address connect =>
    obtain ⟨_, manual, hmanual, hnode⟩ := connect.next_node node answer address
    simp only [Task.next, hnode] at hmem
    exact Or.inl (hmanual hmem)
  | disconnectPeer name' disconnect =>
    cases disconnect with
    | lookUp =>
      simp only [Task.next, DisconnectPeer.next] at hmem
      split at hmem <;> exact Or.inl hmem
    | mark connection =>
      simp only [Task.next, DisconnectPeer.next, NodeState.close_toSharedState,
        Finset.mem_insert] at hmem
      rcases hmem with rfl | hmem
      · exact Or.inr ⟨connection, rfl⟩
      · exact Or.inl hmem
    | returned result => exact Or.inl hmem

/-- Only a registered peer is about to be marked as disconnected. -/
private theorem marks_of_task {task : Task} {node : NodeState} {answer : Answer} {connection : Nat}
    (hnext : (task.next node answer).2 = .disconnectPeer name (.mark connection)) :
    name ∈ node.peers := by
  cases task with
  | handleConnection h stage => cases hnext
  | connectToPeer address connect => cases hnext
  | disconnectPeer name' disconnect =>
    cases disconnect with
    | lookUp =>
      simp only [Task.next, DisconnectPeer.next] at hnext
      split at hnext
      · cases hnext
      · next peer hpeer =>
        cases hnext
        rw [NodeState.mem_peers_iff, hpeer]
        rfl
    | mark connection => cases hnext
    | returned result => cases hnext

/-- Apart from tasks, no step changes the set of manual disconnects, and only announcements of a
peer make it known. -/
private theorem step_shared (name : String) (hrun : ∀ i answer, action ≠ .runTask i answer) :
    (hdp.step action).node.manuallyDisconnectedPeers = hdp.node.manuallyDisconnectedPeers ∧
      (hdp.AnnouncesOther name (.act action) →
        name ∈ (hdp.step action).node.knownPeers → name ∈ hdp.node.knownPeers) := by
  cases action with
  | lose conn error => simp [step, stepRuntime, Runtime.step]
  | runTask i answer => exact absurd rfl (hrun i answer)
  | runOutbound i result =>
    obtain ⟨pending, events, hnode, -⟩ := hdp.runOutbound_node i result
    rw [step, hnode]
    exact ⟨rfl, fun _ hmem ↦ hmem⟩
  | runMainLoop input =>
    rw [step, (hdp.runMainLoop_node input).1]
    exact ⟨rfl, fun _ hmem ↦ hmem⟩
  | runAnnouncement sockets holePuncher =>
    rcases hdp.runAnnouncement_node sockets holePuncher with
      hnode | ⟨peerConnect, hreceive, hconnect, hnode⟩
    · rw [step, hnode]
      exact ⟨rfl, fun _ hmem ↦ hmem⟩
    · rw [step, hnode]
      refine ⟨rfl, fun hother hmem ↦ ?_⟩
      rcases (AList.mem_insert _).mp hmem with hname | hmem
      · exact absurd hname.symm (hother hreceive peerConnect hconnect)
      · exact hmem
  | mdns announceAddress connectTo =>
    refine ⟨rfl, fun hother hmem ↦ ?_⟩
    rcases (AList.mem_insert _).mp hmem with hname | hmem
    · exact absurd hname.symm hother
    · exact hmem
  | _ => exact ⟨rfl, fun _ hmem ↦ hmem⟩

private theorem Apart.step_manual (h : hdp.Apart name) :
    name ∉ (hdp.step action).node.manuallyDisconnectedPeers := by
  by_cases hrun : ∃ i answer, action = .runTask i answer
  · obtain ⟨i, answer, rfl⟩ := hrun
    cases htask : hdp.tasks[i]? with
    | none =>
      rw [runTask_eq_self htask]
      exact h.manual
    | some task =>
      rw [(runTask_eq htask answer).1]
      intro hmem
      rcases mem_manual_of_task hmem with hmem | ⟨connection, rfl⟩
      · exact h.manual hmem
      · exact h.marks connection (List.mem_of_getElem? htask)
  · rw [(step_shared name fun i answer heq ↦ hrun ⟨i, answer, heq⟩).1]
    exact h.manual

private theorem Apart.step_marks (h : hdp.Apart name) (connection : Nat) :
    Task.disconnectPeer name (.mark connection) ∉ (hdp.step action).tasks := by
  intro hmem
  by_cases hrun : ∃ i answer, action = .runTask i answer
  · obtain ⟨i, answer, rfl⟩ := hrun
    cases htask : hdp.tasks[i]? with
    | none =>
      rw [runTask_eq_self htask] at hmem
      exact h.marks connection hmem
    | some task =>
      rw [(runTask_eq htask answer).2] at hmem
      rcases List.mem_or_eq_of_mem_set hmem with hmem | heq
      · exact h.marks connection hmem
      · exact h.peers (marks_of_task heq.symm)
  · obtain ⟨calls, htasks⟩ := (step_keepsPeers fun i answer heq ↦ hrun ⟨i, answer, heq⟩).tasks
    rw [htasks] at hmem
    rcases List.mem_append.mp hmem with hmem | hmem
    · exact h.marks connection hmem
    · obtain ⟨call, -, hcall⟩ := List.mem_map.mp hmem
      cases call <;> cases hcall

/-- The task of a connection makes no other peer known than its own, other tasks none. -/
private theorem mem_known_of_task {task : Task} {node : NodeState} {answer : Answer}
    (hother : ∀ h stage, task = .handleConnection h stage → h.peerName ≠ name)
    (hmem : name ∈ (task.next node answer).1.knownPeers) : name ∈ node.knownPeers := by
  cases task with
  | handleConnection h stage =>
    rcases (h.next_keeps node answer stage).known name hmem with rfl | hmem
    · exact absurd rfl (hother h stage rfl)
    · exact hmem
  | connectToPeer address connect =>
    obtain ⟨_, _, -, hnode⟩ := connect.next_node node answer address
    simpa only [Task.next, hnode] using hmem
  | disconnectPeer name' disconnect =>
    cases disconnect with
    | lookUp =>
      simp only [Task.next, DisconnectPeer.next] at hmem
      split at hmem <;> exact hmem
    | mark connection =>
      simpa only [Task.next, DisconnectPeer.next, NodeState.close_toSharedState] using hmem
    | returned result => exact hmem

private theorem Apart.step_known (h : hdp.Apart name)
    (hother : hdp.AnnouncesOther name (.act action))
    (hmem : name ∈ (hdp.step action).node.knownPeers) : name ∈ hdp.node.knownPeers := by
  by_cases hrun : ∃ i answer, action = .runTask i answer
  · obtain ⟨i, answer, rfl⟩ := hrun
    cases htask : hdp.tasks[i]? with
    | none =>
      rwa [runTask_eq_self htask] at hmem
    | some task =>
      rw [(runTask_eq htask answer).1] at hmem
      refine mem_known_of_task ?_ hmem
      rintro h' stage rfl
      exact h.tasks h' stage (List.mem_of_getElem? htask)
  · exact (step_shared name fun i answer heq ↦ hrun ⟨i, answer, heq⟩).2 hother hmem

/-! ### Runs over restarts -/

theorem apart_start (name : String) (announceAddress : AnnounceAddress)
    (knownPeers : AList fun _ : String ↦ PeerConnectionDetails) :
    (start announceAddress knownPeers).Apart name where
  peers := AList.notMem_empty name
  tasks h stage hmem := by cases hmem
  manual := Finset.notMem_empty name
  marks connection hmem := by cases hmem

theorem Apart.live {event : Event} (h : hdp.Apart name) (hreaches : hdp.ReachesItself name event)
    (havoids : hdp.AvoidsItself name event) : (hdp.live name event).Apart name := by
  cases event with
  | act action =>
    refine ⟨h.step_peers, fun h' stage hmem ↦ ?_, h.step_manual, h.step_marks⟩
    rcases mem_tasks_step hmem with ⟨stage', hmem⟩ | hcompletes
    · exact h.tasks h' stage' hmem
    · exact completes_other hcompletes hreaches havoids
  | restart socketAddress => exact apart_start name _ _

/-- While the node's own name is unknown, every event avoids a handshake with itself. -/
theorem avoidsItself_of_unknown (hunknown : name ∉ hdp.node.knownPeers) (event : Event) :
    hdp.AvoidsItself name event := by
  cases event with
  | restart socketAddress => trivial
  | act action =>
    cases action with
    | runOutbound i result =>
      cases result with
      | ok connected => exact fun _ _ _ ↦ hunknown
      | error err => trivial
    | runMainLoop input =>
      cases input with
      | handshake result =>
        cases result with
        | ok connected => exact fun _ _ _ ↦ hunknown
        | error err => trivial
      | _ => trivial
    | _ => trivial

/-- While nobody announces the node's own name, it does not get known. -/
theorem Apart.live_unknown {event : Event} (h : hdp.Apart name)
    (hother : hdp.AnnouncesOther name event) (hunknown : name ∉ hdp.node.knownPeers) :
    name ∉ (hdp.live name event).node.knownPeers := by
  cases event with
  | act action => exact fun hmem ↦ hunknown (h.step_known hother hmem)
  | restart socketAddress => exact hunknown

/-! ### A handshake with itself -/

/-- A connection that the node is about to register enters the map when its peer is not there. -/
private theorem registers_of_checkManual (h : HandleConnection) {i : Nat}
    (htask : hdp.tasks[i]? = some (.handleConnection h .checkManual))
    (hpeers : h.peerName ∉ hdp.node.peers)
    (hmanual : h.peerName ∉ hdp.node.manuallyDisconnectedPeers) :
    h.peerName ∈ ((hdp.step (.runTask i .ok)).step (.runTask i .ok)).node.peers := by
  have hlt : i < hdp.tasks.length := (List.getElem?_eq_some_iff.mp htask).1
  obtain ⟨hnode, htasks⟩ := runTask_eq htask .ok
  have hchecked : h.checkManual hdp.node = (hdp.node, .register) := if_neg hmanual
  simp only [Task.next, HandleConnection.next, hchecked] at hnode htasks
  have hregister : (hdp.step (.runTask i .ok)).tasks[i]? =
      some (.handleConnection h .register) := by
    rw [htasks, List.getElem?_set_self hlt]
  rw [(runTask_eq hregister .ok).1, hnode]
  simp only [Task.next, HandleConnection.next]
  have hnone : hdp.node.peer? h.peerName = none := AList.lookup_eq_none.mpr hpeers
  rcases h.register_cases hdp.node with ⟨-, connections, announces, -, hentered⟩ | ⟨hlive, -⟩
  · rw [NodeState.mem_peers_iff, hentered.peer, if_pos rfl]
    rfl
  · obtain ⟨peer, hpeer, -⟩ := hlive
    cases hnone.symm.trans hpeer

private theorem exists_completes {event : Event} (hevent : ¬hdp.AvoidsItself name event) :
    ∃ action h, event = .act action ∧ hdp.Completes h action ∧ h.peerName = name := by
  cases event with
  | restart socketAddress => exact absurd trivial hevent
  | act action =>
    cases action with
    | runOutbound i result =>
      cases result with
      | error err => exact absurd trivial hevent
      | ok connected =>
        simp only [AvoidsItself, not_forall, not_not] at hevent
        obtain ⟨peer, houtbound, hname, hknown⟩ := hevent
        exact ⟨_, _, rfl, ⟨peer, houtbound, hname ▸ hknown, rfl⟩, hname⟩
    | runMainLoop input =>
      cases input with
      | handshake result =>
        cases result with
        | error err => exact absurd trivial hevent
        | ok connected =>
          simp only [AvoidsItself, not_forall, not_not] at hevent
          obtain ⟨details, hloop, hname, hknown⟩ := hevent
          refine ⟨_, _, rfl, ⟨details, hloop, fun hrefused ↦ ?_, rfl⟩, hname⟩
          exact hrefused.2 (hname ▸ hknown)
      | _ => exact absurd trivial hevent
    | _ => exact absurd trivial hevent

/-- After a handshake with itself the node can register itself. -/
theorem Apart.exists_registers {event : Event} (h : hdp.Apart name)
    (hevent : ¬hdp.AvoidsItself name event) :
    ∃ more, name ∈ (finalState (Hdp.live name) (hdp.live name event) more).node.peers := by
  obtain ⟨action, handle, rfl, hcompletes, rfl⟩ := exists_completes hevent
  obtain ⟨htasks, hnode⟩ := step_of_completes hcompletes
  refine ⟨[.act (.runTask hdp.tasks.length .ok), .act (.runTask hdp.tasks.length .ok)], ?_⟩
  apply registers_of_checkManual handle
  · rw [Hdp.live, htasks]
    simp
  · rw [Hdp.live, hnode]
    exact h.peers
  · rw [Hdp.live, hnode]
    exact h.manual

section Runs

variable (name : String) (socketAddress : SocketAddr)
  (knownPeers : AList fun _ : String ↦ PeerConnectionDetails) (events : List Event)

/-- In every run of a node without NAT over its restarts in which no handshake with its own
certificate is made while its own name is known, its own name is never in its map of peers; and
when such a handshake is made after all, then the run goes on to where it is. -/
theorem never_itself
    (hreaches : EachStep (live name) (ReachesItself name)
      (start ⟨.noNat socketAddress, name⟩ knownPeers) events)
    (havoids : EachStep (live name) (AvoidsItself name)
      (start ⟨.noNat socketAddress, name⟩ knownPeers) events) :
    EachState (live name) (fun hdp ↦ name ∉ hdp.node.peers)
      (start ⟨.noNat socketAddress, name⟩ knownPeers) events ∧
    ∀ event, ¬(finalState (live name) (start ⟨.noNat socketAddress, name⟩ knownPeers)
        events).AvoidsItself name event →
      ∃ more, name ∈ (finalState (live name) (start ⟨.noNat socketAddress, name⟩ knownPeers)
        (events ++ event :: more)).node.peers := by
  have hallowed : EachStep (live name)
      (fun hdp event ↦ hdp.ReachesItself name event ∧ hdp.AvoidsItself name event)
      (start ⟨.noNat socketAddress, name⟩ knownPeers) events := hreaches.and havoids
  have hstates : EachState (live name) (Apart name)
      (start ⟨.noNat socketAddress, name⟩ knownPeers) events :=
    eachState_of_invariant (apart_start name _ knownPeers) hallowed
      fun hdp event h hevent ↦ h.live hevent.1 hevent.2
  refine ⟨hstates.mono fun hdp h ↦ h.peers, fun event hevent ↦ ?_⟩
  obtain ⟨more, hmore⟩ := hstates.final.exists_registers hevent
  refine ⟨more, ?_⟩
  rw [finalState_append]
  exact hmore

/-- In every run in which nobody announces the node's own name, no handshake with its own
certificate is made while its own name is known. -/
theorem avoidsItself_of_announcesOther (hunknown : name ∉ knownPeers)
    (hreaches : EachStep (live name) (ReachesItself name)
      (start ⟨.noNat socketAddress, name⟩ knownPeers) events)
    (hother : EachStep (live name) (AnnouncesOther name)
      (start ⟨.noNat socketAddress, name⟩ knownPeers) events) :
    EachStep (live name) (AvoidsItself name)
      (start ⟨.noNat socketAddress, name⟩ knownPeers) events := by
  refine eachStep_of_invariant
    (I := fun hdp ↦ hdp.Apart name ∧ name ∉ hdp.node.knownPeers)
    ⟨apart_start name _ knownPeers, hunknown⟩ (hreaches.and hother) ?_ ?_
  · rintro hdp event ⟨h, hunknown⟩ ⟨hreaches, hother⟩
    exact ⟨h.live hreaches (avoidsItself_of_unknown hunknown event),
      h.live_unknown hother hunknown⟩
  · rintro hdp event ⟨-, hunknown⟩ -
    exact avoidsItself_of_unknown hunknown event

end Runs

/-! ### Runs over a restart -/

/-- The node's own announce address. -/
def ownAnnounceAddress : AnnounceAddress := ⟨.noNat (.v4 0x7f000001 1000), "ownName"⟩

/-- What the node gets from sockets and hole punching that it does not need. -/
def nothingFound : Sockets × HolePuncher :=
  ⟨⟨fun _ ↦ .error "", .error ""⟩, fun _ ↦ .error "", fun _ ↦ .error ""⟩

/-- The handshake of the node with itself. -/
def ownHandshake : Except UiServerError Connected :=
  .ok ⟨1, "ownName", ⟨List.replicate 32 0, length_zeros⟩⟩

/-- A peer is known by the address that the node now has itself. The node dials it before and after
a restart, and reaches itself. -/
def dialsOwnAddress : List Event :=
  [.act (.runOutbound 0 ownHandshake), .act (.runOutbound 0 ownHandshake),
    .act (.runOutbound 0 ownHandshake), .act (.runOutbound 0 ownHandshake),
    .restart (.v4 0x7f000001 1000),
    .act (.runOutbound 0 ownHandshake), .act (.runOutbound 0 ownHandshake),
    .act (.runOutbound 0 ownHandshake), .act (.runOutbound 0 ownHandshake)]

theorem never_itself_refused :
    EachState (live "ownName") (fun hdp ↦ "ownName" ∉ hdp.node.peers)
      (start ⟨.noNat (.v4 0x7f000001 1000), "ownName"⟩
        (AList.singleton "amberCloudYak" (.noNat (.v4 0x7f000001 1000)))) dialsOwnAddress := by
  refine (never_itself "ownName" (.v4 0x7f000001 1000)
    (AList.singleton "amberCloudYak" (.noNat (.v4 0x7f000001 1000))) dialsOwnAddress ?_ ?_).1
  · exact ⟨fun _ _ _ ↦ rfl, fun _ _ _ ↦ rfl, fun _ _ _ ↦ rfl, fun _ _ _ ↦ rfl, trivial,
      fun _ _ _ ↦ rfl, fun _ _ _ ↦ rfl, fun _ _ _ ↦ rfl, fun _ _ _ ↦ rfl, trivial⟩
  · have hunknown : "ownName" ∉ (AList.singleton "amberCloudYak" (.noNat (.v4 0x7f000001 1000)) :
        AList fun _ : String ↦ PeerConnectionDetails) := by
      decide
    exact ⟨fun _ _ _ ↦ hunknown, fun _ _ _ ↦ hunknown, fun _ _ _ ↦ hunknown,
      fun _ _ _ ↦ hunknown, trivial, fun _ _ _ ↦ hunknown, fun _ _ _ ↦ hunknown,
      fun _ _ _ ↦ hunknown, fun _ _ _ ↦ hunknown, trivial⟩

/-- The user connects to the node's own announce address, which is refused; then the node
restarts, and its dial of the stored address is answered by itself. -/
def connectsToItself : List Event :=
  [.act (.connectToPeer ownAnnounceAddress), .act (.runTask 0 .ok), .act (.runTask 0 .ok),
    .act (.runAnnouncement nothingFound.1 nothingFound.2),
    .act (.runTask 0 (.connectError (.peerDiscovery "Cannot connect to ourself"))),
    .restart (.v4 0x7f000001 1000),
    .act (.runOutbound 0 ownHandshake), .act (.runOutbound 0 ownHandshake),
    .act (.runOutbound 0 ownHandshake), .act (.runOutbound 0 ownHandshake),
    .act (.runTask 0 .ok), .act (.runTask 0 .ok)]

theorem registers_itself :
    ¬∀ (name : String) (socketAddress : SocketAddr) (events : List Event),
      EachStep (live name) (ReachesItself name) (start ⟨.noNat socketAddress, name⟩ ∅) events →
        EachState (live name) (fun hdp ↦ name ∉ hdp.node.peers)
          (start ⟨.noNat socketAddress, name⟩ ∅) events := by
  intro hclaim
  have hstates := hclaim "ownName" (.v4 0x7f000001 1000) connectsToItself
    ⟨trivial, trivial, trivial, trivial, trivial, trivial, fun _ _ _ ↦ rfl, fun _ _ _ ↦ rfl,
      fun _ _ _ ↦ rfl, fun _ _ _ ↦ rfl, trivial, trivial, trivial⟩
  exact hstates.final (by decide)

end Hdp

end HarddriveParty
