import HarddriveParty.Connections.Hdp

/-!
# What a step does to the map of peers

Only a task of `handle_connection` changes the map of peers: it enters its connection, notes what
the peer announces of itself, and takes the entry out again. One lemma for each of these steps
says what they do to the map and to the events, and that all other steps leave the map alone.
-/

namespace HarddriveParty

variable {node : NodeState}

theorem ConnectToPeer.next_peers (connect : ConnectToPeer) (node : NodeState)
    (answer : Answer) (address : AnnounceAddress) :
    (connect.next address node answer).1.peers = node.peers ∧
      (connect.next address node answer).1.events = node.events := by
  obtain ⟨_, _, -, hnode⟩ := connect.next_node node answer address
  rw [hnode]
  exact ⟨rfl, rfl⟩

theorem DisconnectPeer.next_peers (disconnect : DisconnectPeer) (node : NodeState)
    (name : String) :
    (disconnect.next name node).1.peers = node.peers ∧
      (disconnect.next name node).1.events = node.events := by
  cases disconnect with
  | lookUp =>
    simp only [DisconnectPeer.next]
    split <;> exact ⟨rfl, rfl⟩
  | mark connection => simp [DisconnectPeer.next]
  | returned result => exact ⟨rfl, rfl⟩

/-- The map has a connection of the peer that has not been closed. -/
def NodeState.HasLive (node : NodeState) (name : String) : Prop :=
  ∃ peer, node.peer? name = some peer ∧ node.closeReason peer.connection = none

namespace HandleConnection

variable {h : HandleConnection}

/-- The connection has been entered in the map, and these are the announce addresses that the
others in the map had. -/
structure Entered (h : HandleConnection) (node node' : NodeState)
    (otherAnnounces : List AnnounceAddress) : Prop where
  peer : ∀ name, node'.peer? name =
    if name = h.peerName then some ⟨h.conn, h.peerPublicKey, h.announceAddress⟩
    else node.peer? name
  events : node'.events = node.events
  announces : ∀ address ∈ otherAnnounces,
    ∃ name peer, node.peer? name = some peer ∧ peer.announceAddress = some address

private theorem entered_enter (hpeer : ∀ name, name ≠ h.peerName →
      node.peer? name = node'.peer? name) (hevents : node.events = node'.events)
    (hothers : ∀ name peer, node.peer? name = some peer → node'.peer? name = some peer) :
    ∃ connections announces, (h.enter node).2 = .clearManual connections announces ∧
      h.Entered node' (h.enter node).1 announces := by
  refine ⟨_, _, rfl, fun name ↦ ?_, hevents, fun address haddress ↦ ?_⟩
  · unfold NodeState.peer? enter
    by_cases hname : name = h.peerName
    · subst hname
      simp
    · rw [if_neg hname]
      exact (AList.lookup_insert_ne hname).trans (hpeer name hname)
  · obtain ⟨peer, hmem, hannounce⟩ := List.mem_filterMap.mp haddress
    obtain ⟨⟨name, peer'⟩, hentry, rfl⟩ := List.mem_map.mp hmem
    exact ⟨name, _, hothers name _ (AList.mem_lookup_iff.mpr hentry), hannounce⟩

/-- A connection is closed as a duplicate when the peer has a live one in the map, and entered
in the map otherwise. -/
theorem register_cases (h : HandleConnection) (node : NodeState) :
    (¬node.HasLive h.peerName ∧ ∃ connections announces,
      (h.register node).2 = .clearManual connections announces ∧
        h.Entered node (h.register node).1 announces) ∨
    node.HasLive h.peerName ∧ (h.register node).2 = .finished ∧
      (h.register node).1.peers = node.peers ∧ (h.register node).1.events = node.events := by
  unfold register
  split
  · next existingPeer hexisting =>
    split
    · next hopen =>
      right
      exact ⟨⟨existingPeer, hexisting, hopen⟩, by simp⟩
    · next hclosed =>
      left
      refine ⟨?_, ?_⟩
      · rintro ⟨peer, hpeer, hopen⟩
        cases hexisting.symm.trans hpeer
        exact hclosed hopen
      apply entered_enter
      · intro name hname
        simp [NodeState.peer?, AList.lookup_erase_ne hname]
      · simp
      · intro name peer hpeer
        by_cases hname : name = h.peerName
        · subst hname
          simp [NodeState.peer?] at hpeer
        · simpa [NodeState.peer?, AList.lookup_erase_ne hname] using hpeer
  · next hnone =>
    left
    refine ⟨?_, entered_enter (fun _ _ ↦ rfl) rfl fun _ _ hpeer ↦ hpeer⟩
    rintro ⟨peer, hpeer, -⟩
    cases hnone.symm.trans hpeer

/-- The entry is taken out of the map, if it is still of this connection. -/
theorem cleanUp_cases (h : HandleConnection) (node : NodeState) (err : String) :
    (∃ address, (h.cleanUp node err).2 = .sayDisconnected err address ∧
      (h.cleanUp node err).1.peers = node.peers.erase h.peerName ∧
      (h.cleanUp node err).1.events = node.events) ∨
    h.cleanUp node err = (node, .decideReconnect false h.announceAddress) := by
  unfold cleanUp
  split
  · exact Or.inl ⟨_, rfl, rfl, rfl⟩
  · exact Or.inr rfl

theorem handleSelfAnnouncement_peer (h : HandleConnection) (node : NodeState)
    (address : AnnounceAddress) (name : String) :
    (h.handleSelfAnnouncement node address).peer? name =
      if name = h.peerName then
        (node.peer? name).map fun peer ↦ { peer with announceAddress := some address }
      else node.peer? name := by
  unfold handleSelfAnnouncement NodeState.peer?
  simp only [SharedState.addKnownPeer_peers]
  by_cases hname : name = h.peerName
  · subst hname
    cases hpeer : node.peers.lookup h.peerName with
    | none => simp [hpeer]
    | some peer => simp
  · rw [if_neg hname]
    split
    · exact AList.lookup_insert_ne hname
    · rfl

/-- A request changes the map only when the peer announces itself. -/
theorem accept_cases (h : HandleConnection) (node : NodeState) (answer : Answer) :
    (h.accept node answer).1.events = node.events ∧
      ((h.accept node answer).2 = .accept ∨ ∃ err, (h.accept node answer).2 = .cleanUp err) ∧
      ((h.accept node answer).1.peers = node.peers ∨ ∃ address, address.name = h.peerName ∧
        (h.accept node answer).1 = h.handleSelfAnnouncement node address) := by
  cases answer with
  | acceptError err => exact ⟨rfl, Or.inr ⟨err, rfl⟩, Or.inl rfl⟩
  | announcePeer address =>
    unfold accept
    dsimp only
    split
    · next hname => exact ⟨rfl, Or.inl rfl, Or.inr ⟨address, hname, rfl⟩⟩
    · exact ⟨rfl, Or.inl rfl, Or.inl rfl⟩
  | ok => exact ⟨rfl, Or.inl rfl, Or.inl rfl⟩
  | connectError err => exact ⟨rfl, Or.inl rfl, Or.inl rfl⟩

/-- A manually disconnected peer is rejected. -/
theorem checkManual_cases (h : HandleConnection) (node : NodeState) :
    (h.checkManual node).1.peers = node.peers ∧ (h.checkManual node).1.events = node.events ∧
      ((h.checkManual node).2 = .finished ∨ (h.checkManual node).2 = .register) := by
  unfold checkManual
  split <;> simp

theorem decideReconnect_cases (h : HandleConnection) (node : NodeState) (wasConnected : Bool)
    (address : Option AnnounceAddress) :
    (h.decideReconnect node wasConnected address).1 = node ∧
      ((h.decideReconnect node wasConnected address).2 = .finished ∨
        ∃ address', (h.decideReconnect node wasConnected address).2 =
          .reconnect address' .start) := by
  unfold decideReconnect
  split
  · exact ⟨rfl, Or.inl rfl⟩
  split
  · exact ⟨rfl, Or.inl rfl⟩
  · split
    · next address => exact ⟨rfl, Or.inr ⟨address, rfl⟩⟩
    · exact ⟨rfl, Or.inl rfl⟩

end HandleConnection

/-- The task of a connection leaves the entries of all other peers alone. -/
theorem HandleConnection.next_peer?_of_ne (h : HandleConnection) (node : NodeState)
    (answer : Answer) (stage : HandleConnection.Stage) {name : String} (hname : name ≠ h.peerName) :
    (h.next node answer stage).1.peer? name = node.peer? name := by
  have of_peers {node' : NodeState} (hpeers : node'.peers = node.peers) :
      node'.peer? name = node.peer? name := by
    unfold NodeState.peer?
    rw [hpeers]
  cases stage with
  | checkManual => exact of_peers (h.checkManual_cases node).1
  | register =>
    rcases h.register_cases node with ⟨-, connections, announces, -, hentered⟩ | ⟨-, -, hpeers, -⟩
    · exact (hentered.peer name).trans (if_neg hname)
    · exact of_peers hpeers
  | accept =>
    obtain ⟨-, -, hpeers | ⟨address, -, haccept⟩⟩ := h.accept_cases node answer
    · exact of_peers hpeers
    · rw [next, haccept, handleSelfAnnouncement_peer, if_neg hname]
  | cleanUp err =>
    rcases h.cleanUp_cases node err with ⟨address, -, hpeers, -⟩ | hcleanUp
    · unfold NodeState.peer?
      rw [next, hpeers, AList.lookup_erase_ne hname]
    · exact of_peers (by rw [next, hcleanUp])
  | decideReconnect wasConnected address =>
    exact of_peers (by rw [next, (h.decideReconnect_cases node wasConnected address).1])
  | reconnect address connect => exact of_peers (connect.next_peers node answer address).1
  | _ => rfl

/-! ### Steps without a task of a connection -/

/-- An outbound connect changes only the reservations, and sends an event when it has failed. -/
theorem OutboundConnect.next_node (peer : DiscoveredPeer) (node : NodeState)
    (result : Except UiServerError Connected) (outboundConnect : OutboundConnect) :
    ∃ pending events, (outboundConnect.next peer node result).1 =
        { node with pendingOutboundConnections := pending, events := events } ∧
      ((∀ err, outboundConnect ≠ .fail err) → events = node.events) := by
  unfold OutboundConnect.next
  split
  · split <;> exact ⟨_, _, rfl, fun _ ↦ rfl⟩
  · split <;> exact ⟨_, _, rfl, fun _ ↦ rfl⟩
  · split <;> exact ⟨_, _, rfl, fun _ ↦ rfl⟩
  · split
    · split <;> exact ⟨_, _, rfl, fun _ ↦ rfl⟩
    · exact ⟨_, _, rfl, fun _ ↦ rfl⟩
  · exact ⟨_, _, rfl, fun _ ↦ rfl⟩
  · next err => exact ⟨_, _, rfl, fun hfail ↦ absurd rfl (hfail err)⟩
  · exact ⟨_, _, rfl, fun _ ↦ rfl⟩

/-- A connection comes from a handshake with a known peer and gets the dialled announce address. -/
theorem OutboundConnect.next_handle {peer : DiscoveredPeer}
    {result : Except UiServerError Connected} {outboundConnect : OutboundConnect}
    {h : HandleConnection} (hnext : (outboundConnect.next peer node result).2.2 = some h) :
    ∃ connected, result = .ok connected ∧ outboundConnect = .connect ∧
      connected.peerName ∈ node.knownPeers ∧
      h = ⟨connected.conn, false, some peer.announceAddress, connected.peerName,
        connected.peerPublicKey⟩ := by
  unfold OutboundConnect.next at hnext
  split at hnext
  · split at hnext <;> cases hnext
  · split at hnext <;> cases hnext
  · split at hnext <;> cases hnext
  · split at hnext
    · next connected =>
      split at hnext
      · next hknown =>
        cases hnext
        exact ⟨connected, rfl, rfl, hknown, rfl⟩
      · cases hnext
    · cases hnext
  · cases hnext
  · cases hnext
  · cases hnext

/-- Closing connections changes nothing but which of them are closed. -/
theorem NodeState.closeAll_toSharedState (reason : String) (peers : List Peer) (node : NodeState) :
    (peers.foldl (fun node peer ↦ node.close peer.connection reason) node).toSharedState =
        node.toSharedState ∧
      (peers.foldl (fun node peer ↦ node.close peer.connection reason) node).events =
        node.events := by
  induction peers generalizing node with
  | nil => exact ⟨rfl, rfl⟩
  | cons peer peers ih =>
    obtain ⟨hshared, hevents⟩ := ih (node.close peer.connection reason)
    exact ⟨hshared.trans (by simp), hevents.trans (by simp)⟩

namespace Hdp

/-! What the steps of the node other than those of tasks do to its state. -/

section Node

variable (hdp : Hdp)

theorem runOutbound_node (i : Nat) (result : Except UiServerError Connected) :
    ∃ pending events, (hdp.runOutbound i result).node =
        { hdp.node with pendingOutboundConnections := pending, events := events } ∧
      ((∀ peer err, hdp.outbound[i]? ≠ some (peer, .fail err)) → events = hdp.node.events) := by
  unfold runOutbound
  split
  · exact ⟨_, _, rfl, fun _ ↦ rfl⟩
  · next peer outboundConnect houtbound =>
    obtain ⟨pending, events, hnode, hevents⟩ := outboundConnect.next_node peer hdp.node result
    refine ⟨pending, events, hnode, fun hfail ↦ hevents fun err herr ↦ ?_⟩
    exact hfail peer err (herr ▸ houtbound)

theorem runMainLoop_node (input : Input) :
    (hdp.runMainLoop input).node.toSharedState = hdp.node.toSharedState ∧
      ((∀ name err, hdp.mainLoop ≠ .fail name err) →
        (hdp.runMainLoop input).node.events = hdp.node.events) := by
  unfold runMainLoop
  split
  · split <;> exact ⟨rfl, fun _ ↦ rfl⟩
  · split <;> exact ⟨rfl, fun _ ↦ rfl⟩
  · split
    · obtain ⟨hshared, hevents⟩ := NodeState.closeAll_toSharedState "shutdown" hdp.node.peerValues
        hdp.node
      exact ⟨hshared, fun _ ↦ hevents⟩
    · exact ⟨rfl, fun _ ↦ rfl⟩
  · split <;> exact ⟨rfl, fun _ ↦ rfl⟩
  · exact ⟨rfl, fun _ ↦ rfl⟩
  · next _ name err hloop => exact ⟨rfl, fun hfail ↦ absurd hloop (hfail name err)⟩
  · exact ⟨rfl, fun _ ↦ rfl⟩

/-- Handling an announcement changes nothing but the known peers, when it is received. -/
theorem runAnnouncement_node (sockets : Sockets) (holePuncher : HolePuncher) :
    (hdp.runAnnouncement sockets holePuncher).node = hdp.node ∨
      ∃ peerConnect, hdp.peerAnnouncement = .receive ∧
        hdp.node.peerConnects[hdp.announcesReceived]? = some peerConnect ∧
        (hdp.runAnnouncement sockets holePuncher).node = { hdp.node with
          toSharedState := hdp.node.toSharedState.addKnownPeer peerConnect.announceAddress } := by
  unfold runAnnouncement
  split
  · next hreceive =>
    split
    · exact Or.inl rfl
    · next peerConnect hconnect => exact Or.inr ⟨peerConnect, hreceive, hconnect, rfl⟩
  · exact Or.inl rfl
  · dsimp only
    split <;> exact Or.inl rfl

end Node

variable {hdp : Hdp}

/-- The map of peers is as before, and new tasks are before their first step. -/
structure KeepsPeers (hdp hdp' : Hdp) : Prop where
  peers : hdp'.node.peers = hdp.node.peers
  tasks : ∃ calls : List Call, hdp'.tasks = hdp.tasks ++ calls.map Call.task

private theorem KeepsPeers.of_tasks {hdp' : Hdp} (hpeers : hdp'.node.peers = hdp.node.peers)
    (htasks : hdp'.tasks = hdp.tasks) : KeepsPeers hdp hdp' :=
  ⟨hpeers, [], by simp [htasks]⟩

theorem runOutbound_keepsPeers (hdp : Hdp) (i : Nat) (result : Except UiServerError Connected) :
    KeepsPeers hdp (hdp.runOutbound i result) := by
  unfold runOutbound
  split
  · exact .of_tasks rfl rfl
  · next peer outboundConnect _ =>
    obtain ⟨pending, events, hnode, -⟩ := outboundConnect.next_node peer hdp.node result
    refine ⟨congrArg (·.peers) hnode,
      (outboundConnect.next peer hdp.node result).2.2.toList.map .handleConnection, ?_⟩
    simp

theorem runMainLoop_keepsPeers (hdp : Hdp) (input : Input) :
    KeepsPeers hdp (hdp.runMainLoop input) := by
  refine ⟨congrArg (·.peers) (hdp.runMainLoop_node input).1, ?_⟩
  unfold runMainLoop
  split
  · split <;> exact ⟨[], by simp⟩
  · split <;> exact ⟨[], by simp⟩
  · split <;> exact ⟨[], by simp⟩
  · split
    · exact ⟨[], by simp⟩
    · exact ⟨[_], rfl⟩
  · exact ⟨[], by simp⟩
  · exact ⟨[], by simp⟩
  · exact ⟨[], by simp⟩

theorem runAnnouncement_keepsPeers (hdp : Hdp) (sockets : Sockets) (holePuncher : HolePuncher) :
    KeepsPeers hdp (hdp.runAnnouncement sockets holePuncher) ∧
      (hdp.runAnnouncement sockets holePuncher).node.events = hdp.node.events := by
  unfold runAnnouncement
  split
  · split <;> exact ⟨.of_tasks rfl rfl, rfl⟩
  · exact ⟨.of_tasks rfl rfl, rfl⟩
  · dsimp only
    split <;> exact ⟨.of_tasks rfl rfl, rfl⟩

/-- Only a step of a task changes the map of peers. -/
theorem step_keepsPeers {action : Action} (h : ∀ i answer, action ≠ .runTask i answer) :
    KeepsPeers hdp (hdp.step action) := by
  cases action with
  | connectToPeer address => exact ⟨rfl, [_], rfl⟩
  | disconnectPeer name => exact ⟨rfl, [_], rfl⟩
  | shutDown => exact .of_tasks rfl rfl
  | lose conn error => exact .of_tasks (by simp [step, stepRuntime, Runtime.step]) rfl
  | runTask i answer => exact absurd rfl (h i answer)
  | runOutbound i result => exact hdp.runOutbound_keepsPeers i result
  | runMainLoop input => exact hdp.runMainLoop_keepsPeers input
  | runAnnouncement sockets holePuncher =>
    exact (hdp.runAnnouncement_keepsPeers sockets holePuncher).1
  | mdns address connectTo => exact .of_tasks rfl rfl

/-- A step of a task, the node and the task apart. -/
theorem runTask_eq {i : Nat} {task : Task} (htask : hdp.tasks[i]? = some task) (answer : Answer) :
    (hdp.step (.runTask i answer)).node = (task.next hdp.node answer).1 ∧
      (hdp.step (.runTask i answer)).tasks = hdp.tasks.set i (task.next hdp.node answer).2 := by
  simp [step, stepRuntime, Runtime.step, Runtime.runTask, htask]

theorem runTask_eq_self {i : Nat} (htask : hdp.tasks[i]? = none) (answer : Answer) :
    hdp.step (.runTask i answer) = hdp := by
  simp [step, stepRuntime, Runtime.step, Runtime.runTask, htask]

/-! ### New tasks of connections -/

/-- The action completes a handshake, and the node handles its connection with this call. -/
def Completes (hdp : Hdp) (h : HandleConnection) : Action → Prop
  | .runOutbound i (.ok connected) => ∃ peer, hdp.outbound[i]? = some (peer, .connect) ∧
      connected.peerName ∈ hdp.node.knownPeers ∧
      h = ⟨connected.conn, false, some peer.announceAddress, connected.peerName,
        connected.peerPublicKey⟩
  | .runMainLoop (.handshake (.ok connected)) => ∃ details,
      hdp.mainLoop = .handleIncoming details ∧
      ¬(hdp.useClientVerification = true ∧ connected.peerName ∉ hdp.node.knownPeers) ∧
      h = ⟨connected.conn, true, details.map (·.2), connected.peerName, connected.peerPublicKey⟩
  | _ => False

/-- A handshake is completed by an outbound connection or for an incoming one. -/
theorem Completes.cases {h : HandleConnection} {action : Action}
    (hcompletes : hdp.Completes h action) :
    (∃ i connected peer, action = .runOutbound i (.ok connected) ∧
      hdp.outbound[i]? = some (peer, .connect) ∧ connected.peerName ∈ hdp.node.knownPeers ∧
      h = ⟨connected.conn, false, some peer.announceAddress, connected.peerName,
        connected.peerPublicKey⟩) ∨
    ∃ connected details, action = .runMainLoop (.handshake (.ok connected)) ∧
      hdp.mainLoop = .handleIncoming details ∧
      ¬(hdp.useClientVerification = true ∧ connected.peerName ∉ hdp.node.knownPeers) ∧
      h = ⟨connected.conn, true, details.map (·.2), connected.peerName,
        connected.peerPublicKey⟩ := by
  cases action with
  | runOutbound i result =>
    cases result with
    | error err => exact hcompletes.elim
    | ok connected =>
      obtain ⟨peer, hpeer⟩ := hcompletes
      exact Or.inl ⟨i, connected, peer, rfl, hpeer⟩
  | runMainLoop input =>
    cases input with
    | handshake result =>
      cases result with
      | error err => exact hcompletes.elim
      | ok connected =>
        obtain ⟨details, hdetails⟩ := hcompletes
        exact Or.inr ⟨connected, details, rfl, hdetails⟩
    | _ => exact hcompletes.elim
  | _ => exact hcompletes.elim

/-- A completed handshake starts a task for its connection, and changes nothing else of the tasks
and the node. -/
theorem step_of_completes {h : HandleConnection} {action : Action}
    (hcompletes : hdp.Completes h action) :
    (hdp.step action).tasks = hdp.tasks ++ [.handleConnection h .checkManual] ∧
      (hdp.step action).node = hdp.node := by
  rcases hcompletes.cases with ⟨i, connected, peer, rfl, houtbound, hknown, rfl⟩ |
    ⟨connected, details, rfl, hloop, haccepted, rfl⟩
  · simp [step, runOutbound, houtbound, OutboundConnect.next, hknown, Call.task]
  · simp [step, runMainLoop, hloop, if_neg haccepted, Call.task]

private theorem task_eq_of_completed {h : HandleConnection} {stage : HandleConnection.Stage}
    {completed : Option HandleConnection}
    (hmem : Task.handleConnection h stage ∈
      completed.toList.map fun h ↦ (Call.handleConnection h).task) :
    completed = some h := by
  obtain ⟨h', hcompleted, heq⟩ := List.mem_map.mp hmem
  cases heq
  exact Option.mem_toList.mp hcompleted

/-- The task of a connection has been there before or comes from a completed handshake. -/
theorem mem_tasks_step {h : HandleConnection} {stage : HandleConnection.Stage} {action : Action}
    (hmem : Task.handleConnection h stage ∈ (hdp.step action).tasks) :
    (∃ stage', Task.handleConnection h stage' ∈ hdp.tasks) ∨ hdp.Completes h action := by
  cases action with
  | connectToPeer address =>
    rcases List.mem_append.mp hmem with hmem | hmem
    · exact Or.inl ⟨stage, hmem⟩
    · cases List.mem_singleton.mp hmem
  | disconnectPeer name =>
    rcases List.mem_append.mp hmem with hmem | hmem
    · exact Or.inl ⟨stage, hmem⟩
    · cases List.mem_singleton.mp hmem
  | runTask i answer =>
    left
    cases htask : hdp.tasks[i]? with
    | none =>
      rw [runTask_eq_self htask] at hmem
      exact ⟨stage, hmem⟩
    | some task =>
      rw [(runTask_eq htask answer).2] at hmem
      rcases List.mem_or_eq_of_mem_set hmem with hmem | heq
      · exact ⟨stage, hmem⟩
      · cases task with
        | handleConnection h' stage' =>
          cases heq
          exact ⟨stage', List.mem_of_getElem? htask⟩
        | connectToPeer address connect => cases heq
        | disconnectPeer name disconnect => cases heq
  | runOutbound i result =>
    cases houtbound : hdp.outbound[i]? with
    | none =>
      simp only [step, runOutbound, houtbound] at hmem
      exact Or.inl ⟨stage, hmem⟩
    | some task =>
      obtain ⟨peer, outboundConnect⟩ := task
      simp only [step, runOutbound, houtbound] at hmem
      rcases List.mem_append.mp hmem with hmem | hmem
      · exact Or.inl ⟨stage, hmem⟩
      · right
        obtain ⟨connected, rfl, rfl, hknown, rfl⟩ :=
          OutboundConnect.next_handle (task_eq_of_completed hmem)
        exact ⟨peer, houtbound, hknown, rfl⟩
  | runMainLoop input =>
    simp only [step, runMainLoop] at hmem
    split at hmem
    · split at hmem <;> exact Or.inl ⟨stage, hmem⟩
    · split at hmem <;> exact Or.inl ⟨stage, hmem⟩
    · split at hmem <;> exact Or.inl ⟨stage, hmem⟩
    · next details connected hloop =>
      split at hmem
      · exact Or.inl ⟨stage, hmem⟩
      · next haccepted =>
        rcases List.mem_append.mp hmem with hmem | hmem
        · exact Or.inl ⟨stage, hmem⟩
        · cases List.mem_singleton.mp hmem
          exact Or.inr ⟨details, hloop, haccepted, rfl⟩
    · exact Or.inl ⟨stage, hmem⟩
    · exact Or.inl ⟨stage, hmem⟩
    · exact Or.inl ⟨stage, hmem⟩
  | runAnnouncement sockets holePuncher =>
    simp only [step, runAnnouncement] at hmem
    split at hmem
    · split at hmem <;> exact Or.inl ⟨stage, hmem⟩
    · exact Or.inl ⟨stage, hmem⟩
    · split at hmem <;> exact Or.inl ⟨stage, hmem⟩
  | _ => exact Or.inl ⟨stage, hmem⟩

end Hdp

end HarddriveParty
