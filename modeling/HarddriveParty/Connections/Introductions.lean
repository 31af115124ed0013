import HarddriveParty.Base.Runs
import HarddriveParty.Connections.PendingPeers

/-!
# The peers of a node are introduced to each other

A node tells each of its peers the announce addresses of the others: when a connection is entered
in the map it notes whom to tell about the new peer and what to tell the new peer, and when a peer
announces itself it passes the announcement on. Connections are entered and announcements arrive
between the moment something is noted and the moment it is sent. Still no two peers miss each
other: what carries the proof is that for each pair in the map the address of the one has been
sent to the other or is noted by a task.
-/

namespace HarddriveParty

open Runs

/-- What a map without some key has, it had before. -/
theorem lookup_of_lookup_erase {α β : Type} [DecidableEq α] {entries : AList fun _ : α ↦ β}
    {removed key : α} {value : β} (h : (entries.erase removed).lookup key = some value) :
    entries.lookup key = some value := by
  by_cases hkey : key = removed
  · rw [hkey, AList.lookup_erase] at h
    cases h
  · rwa [AList.lookup_erase_ne hkey] at h

namespace HandleConnection

variable (h : HandleConnection) (node : NodeState)

/-- What a task sends when it greets its peer: the node's own address if the node has dialled, the
address of the peer to the others and those of the others to the peer. -/
def greetings (own : AnnounceAddress) (otherConnections : List Nat)
    (otherAnnounces : List AnnounceAddress) : List (Nat × AnnounceAddress) :=
  (if h.incoming then [] else [(h.conn, own)]) ++
    h.announceAddress.toList.flatMap (fun address ↦ otherConnections.map (·, address)) ++
      otherAnnounces.map (h.conn, ·)

/-- The announcements that a task has noted. -/
def Stage.announcing (own : AnnounceAddress) : Stage → List (Nat × AnnounceAddress)
  | .clearManual otherConnections otherAnnounces | .greet otherConnections otherAnnounces =>
    h.greetings own otherConnections otherAnnounces
  | _ => []

theorem greet_announced (otherConnections : List Nat) (otherAnnounces : List AnnounceAddress) :
    (h.greet node otherConnections otherAnnounces).1.announced =
      node.announced ++ h.greetings node.announceAddress otherConnections otherAnnounces := by
  unfold greet greetings
  cases h.announceAddress <;> simp [NodeState.sendEvent, List.append_assoc]

theorem mem_greetings {own : AnnounceAddress} {otherConnections : List Nat}
    {otherAnnounces : List AnnounceAddress} {message : Nat × AnnounceAddress} :
    message ∈ h.greetings own otherConnections otherAnnounces ↔
      h.incoming = false ∧ message = (h.conn, own) ∨
      (h.announceAddress = some message.2 ∧ message.1 ∈ otherConnections) ∨
      message.1 = h.conn ∧ message.2 ∈ otherAnnounces := by
  obtain ⟨conn, address⟩ := message
  unfold greetings
  rw [List.mem_append, List.mem_append, or_assoc]
  refine or_congr ?_ (or_congr ?_ ?_)
  · cases h.incoming <;> simp
  · cases h.announceAddress with
    | none => simp
    | some address' =>
      simp only [Option.toList_some, List.flatMap_cons, List.flatMap_nil, List.append_nil,
        List.mem_map, Prod.mk.injEq, Option.some.injEq]
      constructor
      · rintro ⟨conn', hconn, rfl, rfl⟩
        exact ⟨rfl, hconn⟩
      · rintro ⟨rfl, hconn⟩
        exact ⟨conn, hconn, rfl, rfl⟩
  · simp only [List.mem_map, Prod.mk.injEq]
    constructor
    · rintro ⟨address', haddress, rfl, rfl⟩
      exact ⟨rfl, haddress⟩
    · rintro ⟨rfl, haddress⟩
      exact ⟨address, haddress, rfl, rfl⟩

end HandleConnection

namespace NodeState

variable {node node' : NodeState}

@[simp] theorem setClosed_announced (conn : Nat) (error : ConnectionError) :
    (node.setClosed conn error).announced = node.announced := by
  unfold setClosed
  cases node.closeReason conn <;> rfl

/-- Closing connections changes nothing but which of them are closed. -/
theorem closeAll_eq (reason : String) (peers : List Peer) (node : NodeState) :
    ∃ closeReason, peers.foldl (fun node peer ↦ node.close peer.connection reason) node =
      { node with closeReason := closeReason } := by
  induction peers generalizing node with
  | nil => exact ⟨node.closeReason, rfl⟩
  | cons peer peers ih =>
    obtain ⟨closeReason, hrest⟩ := ih (node.close peer.connection reason)
    refine ⟨closeReason, hrest.trans ?_⟩
    unfold close setClosed
    cases node.closeReason peer.connection <;> rfl

@[simp] theorem close_announced (conn : Nat) (reason : String) :
    (node.close conn reason).announced = node.announced :=
  node.setClosed_announced conn (.locallyClosed reason)

/-- For each two peers in the map, the messages have the announce address of the one, if it is
known, on the connection of the other. -/
def Introduced (node : NodeState) (messages : List (Nat × AnnounceAddress)) : Prop :=
  ∀ name other peer otherPeer address, name ≠ other → node.peer? name = some peer →
    peer.announceAddress = some address → node.peer? other = some otherPeer →
      (otherPeer.connection, address) ∈ messages

/-- Peers that are in the map as before stay introduced. -/
theorem Introduced.of_peers {messages messages' : List (Nat × AnnounceAddress)}
    (h : node.Introduced messages) (hmessages : messages ⊆ messages')
    (hpeers : ∀ name peer, node'.peer? name = some peer → node.peer? name = some peer) :
    node'.Introduced messages' := by
  intro name other peer otherPeer address hne hpeer haddress hother
  exact hmessages (h name other peer otherPeer address hne (hpeers name peer hpeer) haddress
    (hpeers other otherPeer hother))

end NodeState

namespace HandleConnection

variable {h : HandleConnection} {node : NodeState}

/-- A connection that is entered in the map notes all others, and what they announce. -/
theorem register_notes {otherConnections : List Nat} {otherAnnounces : List AnnounceAddress}
    (hstage : (h.register node).2 = .clearManual otherConnections otherAnnounces) {name : String}
    (hname : name ≠ h.peerName) {peer : Peer} (hpeer : node.peer? name = some peer) :
    peer.connection ∈ otherConnections ∧
      ∀ address, peer.announceAddress = some address → address ∈ otherAnnounces := by
  -- the entries are those of the map without the one that is replaced
  have hnotes {node' : NodeState} (hpeer' : node'.peer? name = some peer)
      (hstage' : (h.enter node').2 = .clearManual otherConnections otherAnnounces) :
      peer.connection ∈ otherConnections ∧
        ∀ address, peer.announceAddress = some address → address ∈ otherAnnounces := by
    have hmem : peer ∈ node'.peerValues := by
      have hentry : (⟨name, peer⟩ : Sigma fun _ : String ↦ Peer) ∈ node'.peers.entries :=
        AList.mem_lookup_iff.mp hpeer'
      exact List.mem_map_of_mem hentry
    cases hstage'
    refine ⟨List.mem_map_of_mem hmem, fun address haddress ↦ ?_⟩
    exact List.mem_filterMap.mpr ⟨peer, hmem, haddress⟩
  unfold register at hstage
  split at hstage
  · split at hstage
    · cases hstage
    · refine hnotes ?_ hstage
      simpa [NodeState.peer?, AList.lookup_erase_ne hname] using hpeer
  · exact hnotes hpeer hstage

theorem register_announced : (h.register node).1.announced = node.announced := by
  unfold register
  split
  · split
    · exact NodeState.close_announced _ _
    · exact NodeState.close_announced _ _
  · rfl

/-- A peer that announces itself is announced to all others. -/
theorem handleSelfAnnouncement_announced {address : AnnounceAddress} {name : String} {peer : Peer}
    (hname : name ≠ h.peerName) (hpeer : node.peer? name = some peer) :
    (peer.connection, address) ∈ (h.handleSelfAnnouncement node address).announced := by
  have hlookup : (h.handleSelfAnnouncement node address).peer? name = some peer := by
    rw [handleSelfAnnouncement_peer, if_neg hname, hpeer]
  have hentry : (⟨name, peer⟩ : Sigma fun _ : String ↦ Peer) ∈
      (h.handleSelfAnnouncement node address).peers.entries := AList.mem_lookup_iff.mp hlookup
  refine List.mem_append_right _ (List.mem_map.mpr ⟨⟨name, peer⟩, ?_, rfl⟩)
  exact List.mem_filter.mpr ⟨hentry, decide_eq_true hname⟩

variable (h node) in
/-- What was announced stays, and what a task has noted it announces. -/
theorem next_announcing (answer : Answer) (stage : Stage) :
    node.announced ++ stage.announcing h node.announceAddress ⊆
      (h.next node answer stage).1.announced ++
        (h.next node answer stage).2.announcing h node.announceAddress := by
  have same {node' : NodeState} {stage' : Stage} (hannounced : node'.announced = node.announced) :
      node.announced ++ [] ⊆ node'.announced ++ stage'.announcing h node.announceAddress := by
    rw [hannounced, List.append_nil]
    exact List.subset_append_left _ _
  cases stage with
  | checkManual =>
    refine same ?_
    rw [next, checkManual]
    split
    · exact NodeState.close_announced _ _
    · rfl
  | register => exact same register_announced
  | clearManual connections announces => exact List.Subset.refl _
  | greet connections announces =>
    rw [next, h.greet_announced node]
    exact List.subset_append_left _ _
  | accept =>
    have hgrows : node.announced ⊆ (h.accept node answer).1.announced := by
      cases answer with
      | announcePeer address =>
        unfold accept
        dsimp only
        split
        · exact List.subset_append_left _ _
        · exact List.Subset.refl _
      | _ => exact List.Subset.refl _
    have hnone : node.announced ++ Stage.announcing h node.announceAddress .accept =
        node.announced := List.append_nil _
    rw [hnone]
    exact fun _ hmem ↦ List.mem_append_left _ (hgrows hmem)
  | cleanUp err =>
    refine same ?_
    rw [next, cleanUp]
    split <;> rfl
  | sayDisconnected err address => exact same rfl
  | decideReconnect wasConnected address =>
    refine same ?_
    rw [next, (h.decideReconnect_cases node wasConnected address).1]
  | reconnect address connect =>
    obtain ⟨_, _, -, hnode⟩ := connect.next_node node answer address
    refine same ?_
    rw [next, hnode]
  | finished => exact same rfl

/-- Each step of a task keeps all peers introduced to each other. -/
theorem next_introduced (answer : Answer) (stage : Stage) {rest : List (Nat × AnnounceAddress)}
    (hintroduced : node.Introduced
      (node.announced ++ stage.announcing h node.announceAddress ++ rest)) :
    (h.next node answer stage).1.Introduced ((h.next node answer stage).1.announced ++
      (h.next node answer stage).2.announcing h node.announceAddress ++ rest) := by
  have hsubset := h.next_announcing node answer stage
  have hsaid : node.announced ++ stage.announcing h node.announceAddress ++ rest ⊆
      (h.next node answer stage).1.announced ++
        (h.next node answer stage).2.announcing h node.announceAddress ++ rest :=
    List.append_subset.mpr ⟨fun _ hmem ↦ List.mem_append_left _ (hsubset hmem),
      List.subset_append_right _ _⟩
  have same (hpeers : (h.next node answer stage).1.peers = node.peers) :
      (h.next node answer stage).1.Introduced ((h.next node answer stage).1.announced ++
        (h.next node answer stage).2.announcing h node.announceAddress ++ rest) := by
    refine hintroduced.of_peers hsaid fun name peer hpeer ↦ ?_
    rw [NodeState.peer?, hpeers] at hpeer
    exact hpeer
  cases stage with
  | checkManual => exact same (h.checkManual_cases node).1
  | register =>
    rcases h.register_cases node with ⟨-, connections, announces, hstage, hentered⟩ |
      ⟨-, -, hpeers, -⟩
    · intro name other peer otherPeer address hne hpeer haddress hother
      rw [next] at hpeer hother
      rw [hentered.peer] at hpeer hother
      -- what the task has noted
      have hnoted {message : Nat × AnnounceAddress}
          (hmem : message ∈ h.greetings node.announceAddress connections announces) :
          message ∈ (h.next node answer .register).1.announced ++
            (h.next node answer .register).2.announcing h node.announceAddress ++ rest := by
        refine List.mem_append_left _ (List.mem_append_right _ ?_)
        rw [next, hstage]
        exact hmem
      split at hpeer
      · next hname =>
        cases hpeer
        rw [if_neg fun heq ↦ hne (hname.trans heq.symm)] at hother
        refine hnoted (h.mem_greetings.mpr (Or.inr (Or.inl ⟨haddress, ?_⟩)))
        exact (register_notes hstage (fun heq ↦ hne (hname.trans heq.symm)) hother).1
      · next hname =>
        split at hother
        · cases hother
          refine hnoted (h.mem_greetings.mpr (Or.inr (Or.inr ⟨rfl, ?_⟩)))
          exact (register_notes hstage hname hpeer).2 address haddress
        · exact hsaid (hintroduced name other peer otherPeer address hne hpeer haddress hother)
    · exact same hpeers
  | accept =>
    obtain ⟨-, -, hpeers | ⟨address', -, haccept⟩⟩ := h.accept_cases node answer
    · exact same hpeers
    · intro name other peer otherPeer address hne hpeer haddress hother
      rw [next, haccept, handleSelfAnnouncement_peer] at hpeer hother
      split at hpeer
      · next hname =>
        have hother' : other ≠ h.peerName := fun heq ↦ hne (hname.trans heq.symm)
        rw [if_neg hother'] at hother
        obtain ⟨peer', -, rfl⟩ := Option.map_eq_some_iff.mp hpeer
        cases haddress
        refine List.mem_append_left _ (List.mem_append_left _ ?_)
        rw [next, haccept]
        exact handleSelfAnnouncement_announced hother' hother
      · split at hother
        · obtain ⟨otherPeer', hother', rfl⟩ := Option.map_eq_some_iff.mp hother
          exact hsaid (hintroduced name other peer otherPeer' address hne hpeer haddress hother')
        · exact hsaid (hintroduced name other peer otherPeer address hne hpeer haddress hother)
  | cleanUp err =>
    rcases h.cleanUp_cases node err with ⟨address, -, hpeers, -⟩ | hcleanUp
    · refine hintroduced.of_peers hsaid fun name peer hpeer ↦ ?_
      rw [next, NodeState.peer?, hpeers] at hpeer
      exact lookup_of_lookup_erase hpeer
    · exact same (by rw [next, hcleanUp])
  | decideReconnect wasConnected address =>
    exact same (by rw [next, (h.decideReconnect_cases node wasConnected address).1])
  | reconnect address connect => exact same (connect.next_peers node answer address).1
  | clearManual connections announces => exact same rfl
  | greet connections announces => exact same rfl
  | sayDisconnected err address => exact same rfl
  | finished => exact same rfl

end HandleConnection

/-- The announcements that a task has noted. -/
def Task.announcing (own : AnnounceAddress) : Task → List (Nat × AnnounceAddress)
  | .handleConnection h stage => stage.announcing h own
  | .connectToPeer _ _ | .disconnectPeer _ _ => []

/-- Each step of a task keeps all peers introduced to each other. -/
theorem Task.next_introduced {node : NodeState} {task : Task} (answer : Answer)
    (rest : List (Nat × AnnounceAddress))
    (hintroduced : node.Introduced
      (node.announced ++ task.announcing node.announceAddress ++ rest)) :
    (task.next node answer).1.Introduced ((task.next node answer).1.announced ++
      (task.next node answer).2.announcing node.announceAddress ++ rest) := by
  cases task with
  | handleConnection h stage => exact h.next_introduced answer stage hintroduced
  | connectToPeer address connect =>
    obtain ⟨_, _, -, hnode⟩ := connect.next_node node answer address
    simp only [Task.next, hnode]
    exact hintroduced
  | disconnectPeer name disconnect =>
    have hannounced : (disconnect.next name node).1.announced = node.announced := by
      cases disconnect with
      | lookUp =>
        simp only [DisconnectPeer.next]
        split <;> rfl
      | mark connection => exact NodeState.close_announced _ _
      | returned result => rfl
    refine hintroduced.of_peers ?_ fun name' peer hpeer ↦ ?_
    · rw [Task.next, hannounced]
      exact List.Subset.refl _
    · rw [Task.next, NodeState.peer?, (disconnect.next_peers node name).1] at hpeer
      exact hpeer

namespace Hdp

variable {hdp : Hdp} {action : Action}

/-- The announcements that the tasks of a node have noted. -/
def announcing (hdp : Hdp) : List (Nat × AnnounceAddress) :=
  hdp.tasks.flatMap (Task.announcing hdp.node.announceAddress)

/-- For each two peers in the map, the announce address of the one, if it is known, was announced
to the other or is noted by a task. -/
def Introduced (hdp : Hdp) : Prop := hdp.node.Introduced (hdp.node.announced ++ hdp.announcing)

/-- The main loop closes connections and tells the UI, and changes nothing else of the node. -/
theorem runMainLoop_eq (hdp : Hdp) (input : Input) : ∃ closeReason events,
    (hdp.runMainLoop input).node =
      { hdp.node with closeReason := closeReason, events := events } := by
  unfold runMainLoop
  split
  · split <;> exact ⟨_, _, rfl⟩
  · split <;> exact ⟨_, _, rfl⟩
  · split
    · obtain ⟨closeReason, hclosed⟩ := NodeState.closeAll_eq "shutdown" hdp.node.peerValues hdp.node
      exact ⟨closeReason, hdp.node.events, hclosed⟩
    · exact ⟨_, _, rfl⟩
  · split <;> exact ⟨_, _, rfl⟩
  · exact ⟨_, _, rfl⟩
  · exact ⟨_, _, rfl⟩
  · exact ⟨_, _, rfl⟩

/-- Only tasks announce. -/
theorem step_announced (h : ∀ i answer, action ≠ .runTask i answer) :
    (hdp.step action).node.announced = hdp.node.announced := by
  cases action with
  | runTask i answer => exact absurd rfl (h i answer)
  | lose conn error => exact NodeState.setClosed_announced conn error
  | runOutbound i result =>
    obtain ⟨_, _, hnode, -⟩ := hdp.runOutbound_node i result
    rw [step, hnode]
  | runMainLoop input =>
    obtain ⟨_, _, hnode⟩ := hdp.runMainLoop_eq input
    rw [step, hnode]
  | runAnnouncement sockets holePuncher =>
    rcases hdp.runAnnouncement_node sockets holePuncher with hnode | ⟨peerConnect, -, -, hnode⟩
    · rw [step, hnode]
    · rw [step, hnode]
  | _ => rfl

theorem Introduced.step (h : hdp.Introduced) (action : Action) :
    (hdp.step action).Introduced := by
  by_cases hrun : ∃ i answer, action = .runTask i answer
  · obtain ⟨i, answer, rfl⟩ := hrun
    cases htask : hdp.tasks[i]? with
    | none =>
      rw [runTask_eq_self htask]
      exact h
    | some task =>
      obtain ⟨hi, rfl⟩ := List.getElem?_eq_some_iff.mp htask
      obtain ⟨before, after, htasks, -, hset⟩ : ∃ before after,
          hdp.tasks = before ++ hdp.tasks[i] :: after ∧ before.length = i ∧
            hdp.tasks.set i (hdp.tasks[i].next hdp.node answer).2 =
              before ++ (hdp.tasks[i].next hdp.node answer).2 :: after := List.exists_of_set hi
      obtain ⟨hnode, hnext⟩ := runTask_eq htask answer
      have hown := step_announceAddress hdp (.runTask i answer)
      rw [hset] at hnext
      rw [Introduced, announcing, hown, hnext, hnode]
      rw [Introduced, announcing] at h
      generalize hdp.tasks[i] = task at *
      rw [htasks] at h
      simp only [List.flatMap_append, List.flatMap_cons] at h ⊢
      have hstep := task.next_introduced answer
        (before.flatMap (Task.announcing hdp.node.announceAddress) ++
          after.flatMap (Task.announcing hdp.node.announceAddress))
        (h.of_peers (fun message hmem ↦ by simp only [List.mem_append] at hmem ⊢; tauto)
          fun _ _ hpeer ↦ hpeer)
      exact hstep.of_peers (fun message hmem ↦ by simp only [List.mem_append] at hmem ⊢; tauto)
        fun _ _ hpeer ↦ hpeer
  · have hne : ∀ i answer, action ≠ .runTask i answer := fun i answer heq ↦ hrun ⟨i, answer, heq⟩
    obtain ⟨hpeers, calls, htasks⟩ : KeepsPeers hdp (hdp.step action) := step_keepsPeers hne
    rw [Introduced, announcing, step_announced hne, step_announceAddress, htasks,
      List.flatMap_append, ← List.append_assoc]
    refine NodeState.Introduced.of_peers h (List.subset_append_left _ _) fun name peer hpeer ↦ ?_
    rwa [NodeState.peer?, hpeers] at hpeer

/-- In every state of every run of a node, each two of its peers have been introduced to each
other, or the introduction is noted by a task: the announce address of the one, as far as it is
known, has been sent on the connection of the other. -/
theorem peers_introduced (announceAddress : AnnounceAddress)
    (knownPeers : AList fun _ : String ↦ PeerConnectionDetails) (actions : List Action) :
    EachState step Introduced (start announceAddress knownPeers) actions := by
  have hstart : (start announceAddress knownPeers).Introduced := by
    intro name other peer otherPeer address hne hpeer
    cases hpeer
  exact eachState_of_invariant (A := fun _ _ ↦ True) hstart (eachStep_of_forall fun _ _ ↦ trivial)
    fun _ action h _ ↦ h.step action

end Hdp

end HarddriveParty
