import HarddriveParty.Base.Runs
import HarddriveParty.Connections.Model

/-!
# When a manual disconnect lasts

`disconnect_peer` puts a peer into `manually_disconnected_peers`, which both a new connection
and an automatic reconnect clear later than they check it. The peer stays in the set, whatever
happens until the user connects to it, exactly when nothing is between check and clear at
the moment it is put in.
-/

namespace HarddriveParty

open Runs HandleConnection

/-- The call will clear the set of manual disconnects if its awaits succeed. -/
def ConnectToPeer.ClearsLater (node : NodeState) : ConnectToPeer → Prop
  | start => node.shuttingDown = false
  | send => True
  | response => True
  | clearManual => True
  | returned _ => False

/-- The task has checked the set of manual disconnects and may still take a peer out of it:
a new connection to the peer, or a reconnect to an address with its name. -/
def Task.ClearsLater (node : NodeState) (name : String) : Task → Prop
  | handleConnection h .register => h.peerName = name
  | handleConnection h (.clearManual _ _) => h.peerName = name
  | handleConnection _ (.reconnect address connect) =>
    address.name = name ∧ connect.ClearsLater node
  | _ => False

namespace Runtime

variable {r : Runtime} {name : String}

/-- A connect to the peer that the user asked for completes. -/
def CompletesConnect (name : String) (r : Runtime) : Action → Prop
  | .run i _ => ∃ address, address.name = name ∧
      r.tasks[i]? = some (.connectToPeer address .clearManual)
  | _ => False

/-- After a connection to another peer a reconnect is due to an address with this name. -/
def ForeignReconnect (name : String) (r : Runtime) : Action → Prop
  | .run i _ => ∃ h address, h.peerName ≠ name ∧ address.name = name ∧
      r.tasks[i]? = some (.handleConnection h (.decideReconnect true (some address)))
  | _ => False

/-- The action neither completes a connect of the user to the peer nor decides on a foreign
reconnect to its name. -/
def LeavesAlone (name : String) (r : Runtime) (action : Action) : Prop :=
  ¬CompletesConnect name r action ∧ ¬ForeignReconnect name r action

/-- A connection to the peer is registered by a task that read the set of manual disconnects
after the state `r₀`. -/
def LateRegistration (name : String) (r₀ r : Runtime) : Action → Prop
  | .run i _ => ∃ h, h.peerName = name ∧ r.tasks[i]? = some (.handleConnection h .register) ∧
      (∃ connections announces,
        (h.register r.node).2 = .clearManual connections announces) ∧
      r₀.tasks[i]? ≠ some (.handleConnection h .register)
  | _ => False

/-- In a run from `r₀` on the peer stays in the set of manual disconnects, and no connection
to it is registered by a task that reads the set after `r₀`. -/
def StaysDisconnected (name : String) (r₀ : Runtime) (after : List Action) : Prop :=
  EachState step (fun r ↦ name ∈ r.node.manuallyDisconnectedPeers) r₀ after ∧
    EachStep step (fun r action ↦ ¬LateRegistration name r₀ r action) r₀ after

/-- The peer is in the set of manual disconnects and no task will take it out. -/
structure Disconnected (name : String) (r : Runtime) : Prop where
  mem : name ∈ r.node.manuallyDisconnectedPeers
  clears : ∀ task ∈ r.tasks, ¬task.ClearsLater r.node name

/-! ### One step of a task -/

section Next

variable {node : NodeState} {h : HandleConnection} {answer : Answer}

private theorem clearsLater_of_shuttingDown {node' : NodeState} {task : Task}
    (hflag : node'.shuttingDown = false → node.shuttingDown = false)
    (hclears : task.ClearsLater node' name) : task.ClearsLater node name := by
  unfold Task.ClearsLater at *
  split at hclears
  · exact hclears
  · exact hclears
  · next address connect =>
    refine ⟨hclears.1, ?_⟩
    cases connect with
    | start => exact hflag hclears.2
    | _ => exact hclears.2
  · exact hclears

private theorem connect_next_mem {address : AnnounceAddress} {connect : ConnectToPeer}
    (hmem : name ∈ node.manuallyDisconnectedPeers)
    (hname : connect = .clearManual → address.name ≠ name) :
    name ∈ (connect.next address node answer).1.manuallyDisconnectedPeers := by
  cases connect with
  | start => simp only [ConnectToPeer.next]; split <;> exact hmem
  | send => cases answer <;> exact hmem
  | response => cases answer <;> exact hmem
  | clearManual => exact Finset.mem_erase.mpr ⟨(hname rfl).symm, hmem⟩
  | returned result => exact hmem

private theorem connect_next_clears {address : AnnounceAddress} {connect : ConnectToPeer}
    (hclears : (connect.next address node answer).2.ClearsLater
      (connect.next address node answer).1) : connect.ClearsLater node := by
  cases connect with
  | start =>
    cases hflag : node.shuttingDown with
    | false => exact hflag
    | true => simp [ConnectToPeer.next, hflag, ConnectToPeer.ClearsLater] at hclears
  | returned result => exact hclears
  | _ => trivial

private theorem register_manual :
    (h.register node).1.manuallyDisconnectedPeers = node.manuallyDisconnectedPeers := by
  unfold register
  split
  · split
    · simp
    · simp [enter]
  · rfl

private theorem register_clears
    (hclears : (Task.handleConnection h (h.register node).2).ClearsLater (h.register node).1 name) :
    h.peerName = name := by
  unfold register at hclears
  split at hclears
  · split at hclears
    · exact hclears.elim
    · exact hclears
  · exact hclears

private theorem handle_next {stage : Stage} (hmem : name ∈ node.manuallyDisconnectedPeers)
    (hclears : ¬(Task.handleConnection h stage).ClearsLater node name)
    (hforeign : ∀ address, stage = .decideReconnect true (some address) →
      address.name = name → h.peerName = name) :
    name ∈ (h.next node answer stage).1.manuallyDisconnectedPeers ∧
      ¬(Task.handleConnection h (h.next node answer stage).2).ClearsLater
        (h.next node answer stage).1 name := by
  cases stage with
  | checkManual =>
    by_cases hin : h.peerName ∈ node.manuallyDisconnectedPeers
    · simp [HandleConnection.next, checkManual, hin, hmem, Task.ClearsLater]
    · have hne : h.peerName ≠ name := fun heq ↦ hin (heq ▸ hmem)
      simp [HandleConnection.next, checkManual, hin, hmem, Task.ClearsLater, hne]
  | register =>
    constructor
    · show name ∈ (h.register node).1.manuallyDisconnectedPeers
      rwa [register_manual]
    · exact fun hlater ↦ hclears (register_clears hlater)
  | clearManual connections announces =>
    exact ⟨Finset.mem_erase.mpr ⟨fun heq ↦ hclears heq.symm, hmem⟩, id⟩
  | greet connections announces => exact ⟨hmem, id⟩
  | accept =>
    show name ∈ (h.accept node answer).1.manuallyDisconnectedPeers ∧ _
    cases answer with
    | announcePeer address =>
      by_cases hname : address.name = h.peerName
      · simpa [HandleConnection.next, accept, hname, handleSelfAnnouncement, Task.ClearsLater]
      · simpa [HandleConnection.next, accept, hname, Task.ClearsLater]
    | _ => exact ⟨hmem, id⟩
  | cleanUp err =>
    show name ∈ (h.cleanUp node err).1.manuallyDisconnectedPeers ∧
      ¬(Task.handleConnection h (h.cleanUp node err).2).ClearsLater _ name
    unfold cleanUp
    split <;> exact ⟨hmem, id⟩
  | sayDisconnected err address => exact ⟨hmem, id⟩
  | decideReconnect wasConnected address =>
    show name ∈ (h.decideReconnect node wasConnected address).1.manuallyDisconnectedPeers ∧
      ¬(Task.handleConnection h (h.decideReconnect node wasConnected address).2).ClearsLater _ name
    unfold decideReconnect
    split
    · exact ⟨hmem, id⟩
    split
    · exact ⟨hmem, id⟩
    · next hin =>
      split
      · next address =>
        refine ⟨hmem, fun hlater ↦ hin ?_⟩
        rw [hforeign address rfl hlater.1]
        exact hmem
      · exact ⟨hmem, id⟩
  | reconnect address connect =>
    constructor
    · apply connect_next_mem hmem
      rintro rfl hname
      exact hclears ⟨hname, trivial⟩
    · exact fun hlater ↦ hclears ⟨hlater.1, connect_next_clears hlater.2⟩
  | finished => exact ⟨hmem, id⟩

private theorem task_next (answer : Answer) {task : Task}
    (hmem : name ∈ node.manuallyDisconnectedPeers)
    (hclears : ¬task.ClearsLater node name)
    (hforeign : ∀ h address, task = .handleConnection h (.decideReconnect true (some address)) →
      address.name = name → h.peerName = name)
    (hconnect : ∀ address, task = .connectToPeer address .clearManual → address.name ≠ name) :
    name ∈ (task.next node answer).1.manuallyDisconnectedPeers ∧
      ¬(task.next node answer).2.ClearsLater (task.next node answer).1 name := by
  cases task with
  | handleConnection h stage =>
    apply handle_next hmem hclears
    rintro address rfl
    exact hforeign h address rfl
  | connectToPeer address connect =>
    refine ⟨connect_next_mem hmem ?_, id⟩
    rintro rfl
    exact hconnect address rfl
  | disconnectPeer peerName disconnect =>
    refine ⟨?_, id⟩
    cases disconnect with
    | lookUp =>
      show name ∈ (DisconnectPeer.lookUp.next peerName node).1.manuallyDisconnectedPeers
      simp only [DisconnectPeer.next]
      split <;> exact hmem
    | mark connection =>
      simp [Task.next, DisconnectPeer.next, hmem]
    | returned result => exact hmem

end Next

/-! ### Runs of the node -/

theorem step_run {i : Nat} {task : Task} (h : r.tasks[i]? = some task) (answer : Answer) :
    r.step (.run i answer) =
      ⟨(task.next r.node answer).1, r.tasks.set i (task.next r.node answer).2⟩ := by
  simp only [step, runTask, h]

/-- A manually disconnected peer that no task clears stays so until the user connects. -/
theorem Disconnected.keep (hr : Disconnected name r) {action : Action}
    (haction : LeavesAlone name r action) : Disconnected name (r.step action) := by
  cases action with
  | call c =>
    refine ⟨hr.mem, fun task htask ↦ ?_⟩
    cases List.mem_append.mp htask with
    | inl hold => exact hr.clears task hold
    | inr hnew =>
      rw [List.mem_singleton.mp hnew]
      cases c <;> exact id
  | run i answer =>
    cases htask : r.tasks[i]? with
    | none => simpa [Runtime.step, runTask, htask] using hr
    | some task =>
      obtain ⟨hmem, hclears⟩ := task_next answer hr.mem
        (hr.clears task (List.mem_of_getElem? htask))
        (fun h address heq hname ↦ Classical.not_not.mp fun hpeer ↦
          haction.2 ⟨h, address, hpeer, hname, heq ▸ htask⟩)
        (fun address heq hname ↦ haction.1 ⟨address, hname, heq ▸ htask⟩)
      rw [step_run htask]
      refine ⟨hmem, fun other hother ↦ ?_⟩
      cases List.mem_or_eq_of_mem_set hother with
      | inl hold =>
        exact fun hlater ↦ hr.clears other hold
          (clearsLater_of_shuttingDown
            (fun hflag ↦ (task.next_keeps r.node answer).1 ▸ hflag) hlater)
      | inr hnew => exact hnew ▸ hclears
  | lose conn error =>
    refine ⟨by simpa [Runtime.step] using hr.mem, fun task htask hlater ↦ hr.clears task htask ?_⟩
    exact clearsLater_of_shuttingDown (by simp [Runtime.step]) hlater
  | shutDown =>
    refine ⟨hr.mem, fun task htask hlater ↦ hr.clears task htask ?_⟩
    exact clearsLater_of_shuttingDown (by simp [Runtime.step]) hlater

/-- While a peer is manually disconnected no connection to it is registered. -/
theorem Disconnected.not_lateRegistration (hr : Disconnected name r) (r₀ : Runtime)
    (action : Action) : ¬LateRegistration name r₀ r action := by
  cases action with
  | run i answer =>
    rintro ⟨h, hname, htask, -, -⟩
    exact hr.clears _ (List.mem_of_getElem? htask) hname
  | _ => exact id

/-- From a state with a manually disconnected peer that no task clears, the peer stays
disconnected in every run of the node in which the user does not connect to it. -/
theorem Disconnected.stays (hr : Disconnected name r) {after : List Action}
    (hafter : EachStep step (LeavesAlone name) r after) :
    StaysDisconnected name r after := by
  have hkeep : ∀ (r : Runtime) (action : Action), Disconnected name r →
      LeavesAlone name r action → Disconnected name (r.step action) :=
    fun r action hr h ↦ hr.keep h
  constructor
  · exact (eachState_of_invariant hr hafter hkeep).mono fun r hr ↦ hr.mem
  · apply eachStep_of_invariant hr hafter hkeep
    exact fun r₁ action hr₁ _ ↦ hr₁.not_lateRegistration r action

/-! ### Where the clear is under way -/

/-- Some run without a connect by the user takes the peer out of the set. -/
private def Loses (name : String) (r : Runtime) : Prop :=
  ∃ after, EachStep step (LeavesAlone name) r after ∧
    name ∉ (finalState step r after).node.manuallyDisconnectedPeers

private theorem Loses.cons {action : Action} (haction : LeavesAlone name r action)
    (h : Loses name (r.step action)) : Loses name r := by
  obtain ⟨after, hafter, hmem⟩ := h
  exact ⟨action :: after, ⟨haction, hafter⟩, hmem⟩

private theorem Loses.run {i : Nat} {h : HandleConnection} {stage : Stage}
    (htask : r.tasks[i]? = some (.handleConnection h stage))
    (hstage : ∀ address, stage ≠ .decideReconnect true (some address))
    (hnext : Loses name (r.step (.run i .ok))) : Loses name r := by
  refine Loses.cons ⟨?_, ?_⟩ hnext
  · rintro ⟨address, -, heq⟩
    rw [htask] at heq
    cases heq
  · rintro ⟨h', address, -, -, heq⟩
    rw [htask] at heq
    cases heq
    exact hstage address rfl

private theorem tasks_run {i : Nat} {task : Task} (h : r.tasks[i]? = some task)
    (answer : Answer) : (r.step (.run i answer)).tasks[i]? = some (task.next r.node answer).2 := by
  rw [step_run h]
  exact List.getElem?_set_self (List.getElem?_eq_some_iff.mp h).1

private theorem loses_now (h : name ∉ r.node.manuallyDisconnectedPeers) : Loses name r :=
  ⟨[], trivial, h⟩

private theorem loses_clearManual {i : Nat} {h : HandleConnection} {connections : List Nat}
    {announces : List AnnounceAddress}
    (htask : r.tasks[i]? = some (.handleConnection h (.clearManual connections announces))) :
    Loses h.peerName r := by
  apply Loses.run htask (fun _ heq ↦ by cases heq)
  apply loses_now
  rw [step_run htask]
  exact Finset.notMem_erase h.peerName _

private theorem loses_reconnect {i : Nat} {h : HandleConnection} {address : AnnounceAddress}
    {connect : ConnectToPeer} (hconnect : connect.ClearsLater r.node)
    (htask : r.tasks[i]? = some (.handleConnection h (.reconnect address connect))) :
    Loses address.name r := by
  have hclear : ∀ r : Runtime,
      r.tasks[i]? = some (.handleConnection h (.reconnect address .clearManual)) →
        Loses address.name r := by
    intro r htask
    apply Loses.run htask (fun _ heq ↦ by cases heq)
    apply loses_now
    rw [step_run htask]
    exact Finset.notMem_erase address.name _
  have hresponse : ∀ r : Runtime,
      r.tasks[i]? = some (.handleConnection h (.reconnect address .response)) →
        Loses address.name r :=
    fun r htask ↦ Loses.run htask (fun _ heq ↦ by cases heq) (hclear _ (tasks_run htask .ok))
  have hsend : ∀ r : Runtime,
      r.tasks[i]? = some (.handleConnection h (.reconnect address .send)) →
        Loses address.name r :=
    fun r htask ↦ Loses.run htask (fun _ heq ↦ by cases heq) (hresponse _ (tasks_run htask .ok))
  cases connect with
  | start =>
    apply Loses.run htask (fun _ heq ↦ by cases heq)
    apply hsend
    rw [tasks_run htask]
    simp [Task.next, HandleConnection.next, ConnectToPeer.next, show _ = _ from hconnect]
  | send => exact hsend r htask
  | response => exact hresponse r htask
  | clearManual => exact hclear r htask
  | returned result => exact hconnect.elim

private theorem register_enters {h : HandleConnection} {node : NodeState}
    (hdead : ∀ peer, node.peer? h.peerName = some peer → node.closeReason peer.connection ≠ none) :
    ∃ connections announces, (h.register node).2 = .clearManual connections announces := by
  unfold register
  split
  · next peer hpeer =>
    rw [if_neg (hdead peer hpeer)]
    exact ⟨_, _, rfl⟩
  · exact ⟨_, _, rfl⟩

private theorem loses_register {i : Nat} {h : HandleConnection}
    (htask : r.tasks[i]? = some (.handleConnection h .register)) : Loses h.peerName r := by
  have hdead : ∀ r : Runtime, r.tasks[i]? = some (.handleConnection h .register) →
      (∀ peer, r.node.peer? h.peerName = some peer →
        r.node.closeReason peer.connection ≠ none) → Loses h.peerName r := by
    intro r htask hdead
    apply Loses.run htask (fun _ heq ↦ by cases heq)
    obtain ⟨connections, announces, hregister⟩ := register_enters hdead
    have hnext := tasks_run htask .ok
    simp only [Task.next, HandleConnection.next, hregister] at hnext
    exact loses_clearManual hnext
  cases hpeer : r.node.peer? h.peerName with
  | none => exact hdead r htask (by simp [hpeer])
  | some peer =>
    -- A live entry is lost before the task goes on.
    have hlose : Loses h.peerName (r.step (.lose peer.connection .lost)) := by
      apply hdead (r.step (.lose peer.connection .lost)) htask
      intro other hother
      have hsame : other = peer := by
        simpa [step, hpeer] using hother.symm
      rw [hsame, Ne, step, NodeState.setClosed_closeReason_eq_none]
      exact fun hopen ↦ hopen.2 rfl
    have haction : LeavesAlone h.peerName r (.lose peer.connection .lost) := ⟨id, id⟩
    exact hlose.cons haction

private theorem loses_of_clearsLater {task : Task} (htask : task ∈ r.tasks)
    (hclears : task.ClearsLater r.node name) : Loses name r := by
  obtain ⟨i, hi⟩ := List.mem_iff_getElem?.mp htask
  cases task with
  | handleConnection h stage =>
    cases stage with
    | register => exact hclears ▸ loses_register hi
    | clearManual connections announces => exact hclears ▸ loses_clearManual hi
    | reconnect address connect => exact hclears.1 ▸ loses_reconnect hclears.2 hi
    | _ => exact hclears.elim
  | _ => exact hclears.elim

/-- A reconnect after a connection to another peer can take a peer out of the set, as the
name in its address is not compared with the name of the certificate. -/
theorem exists_lost_of_reconnect {i : Nat} {h : HandleConnection} {address : AnnounceAddress}
    (htask : r.tasks[i]? =
      some (.handleConnection h (.decideReconnect true (some address))))
    (hrunning : r.node.shuttingDown = false)
    (hpeer : h.peerName ∉ r.node.manuallyDisconnectedPeers) :
    ∃ after, EachStep step (LeavesAlone address.name) (r.step (.run i .ok)) after ∧
      address.name ∉
        (finalState step (r.step (.run i .ok)) after).node.manuallyDisconnectedPeers := by
  have hdecide : h.decideReconnect r.node true (some address) =
      (r.node, .reconnect address .start) := by
    rw [decideReconnect, if_neg (by simp [hrunning]), if_neg hpeer]
  have hnext := tasks_run htask .ok
  simp only [Task.next, HandleConnection.next, hdecide] at hnext
  apply loses_reconnect _ hnext
  rw [step_run htask]
  simpa [Task.next, HandleConnection.next, hdecide, ConnectToPeer.ClearsLater] using hrunning

/-! ### When a manual disconnect lasts -/

section Mark

variable {i connection : Nat}

private theorem step_mark
    (hmark : r.tasks[i]? = some (.disconnectPeer name (.mark connection))) (answer : Answer) :
    name ∈ (r.step (.run i answer)).node.manuallyDisconnectedPeers ∧
      (r.step (.run i answer)).node.shuttingDown = r.node.shuttingDown ∧
      (r.step (.run i answer)).tasks =
        r.tasks.set i (.disconnectPeer name (.returned (.ok ()))) := by
  rw [step_run hmark]
  simp [Task.next, DisconnectPeer.next]

private theorem disconnected_of_mark {answer : Answer}
    (hmark : r.tasks[i]? = some (.disconnectPeer name (.mark connection)))
    (hclears : ∀ task ∈ r.tasks, ¬task.ClearsLater r.node name) :
    Disconnected name (r.step (.run i answer)) := by
  obtain ⟨hmem, hflag, htasks⟩ := step_mark hmark answer
  refine ⟨hmem, fun task htask hlater ↦ ?_⟩
  rw [htasks] at htask
  cases List.mem_or_eq_of_mem_set htask with
  | inl hold =>
    exact hclears task hold (clearsLater_of_shuttingDown (fun h ↦ hflag ▸ h) hlater)
  | inr hnew => exact (hnew ▸ hlater : Task.ClearsLater _ name (.disconnectPeer name _))

private theorem clearsLater_after_mark (answer : Answer) {task : Task}
    (hmark : r.tasks[i]? = some (.disconnectPeer name (.mark connection)))
    (htask : task ∈ r.tasks) (hclears : task.ClearsLater r.node name) :
    task ∈ (r.step (.run i answer)).tasks ∧
      task.ClearsLater (r.step (.run i answer)).node name := by
  obtain ⟨-, hflag, htasks⟩ := step_mark hmark answer
  constructor
  · obtain ⟨k, hk⟩ := List.mem_iff_getElem?.mp htask
    have hki : i ≠ k := by
      rintro rfl
      rw [hmark] at hk
      cases hk
      exact hclears
    rw [htasks]
    exact List.mem_of_getElem? ((List.getElem?_set_ne hki).trans hk)
  · exact clearsLater_of_shuttingDown (fun h ↦ hflag ▸ h) hclears

/-- When `disconnect_peer` marks a peer, the peer stays disconnected in every run without a
connect of the user or a foreign reconnect to its name exactly when no other task is between
its check of the set and its clear. -/
theorem staysDisconnected_iff (answer : Answer)
    (hmark : r.tasks[i]? = some (.disconnectPeer name (.mark connection))) :
    (∀ after, EachStep step (LeavesAlone name) (r.step (.run i answer)) after →
      StaysDisconnected name (r.step (.run i answer)) after) ↔
      ∀ task ∈ r.tasks, ¬task.ClearsLater r.node name := by
  constructor
  · intro hstays task htask hclears
    obtain ⟨hold, hlater⟩ := clearsLater_after_mark answer hmark htask hclears
    obtain ⟨after, hafter, hmem⟩ := loses_of_clearsLater hold hlater
    exact hmem (hstays after hafter).1.final
  · intro hclears after hafter
    exact (disconnected_of_mark hmark hclears).stays hafter

end Mark

/-- An incoming connection. -/
def incomingConnection : HandleConnection :=
  ⟨1, true, none, "amberCloudYak", ⟨List.replicate 32 0, length_zeros⟩⟩

/-- The address of a node behind a symmetric NAT. -/
def ownAddress : AnnounceAddress := ⟨.symmetric (.v4 0), "ownName"⟩

/-- The user disconnects from a peer that has registered but not yet cleared the set. -/
def disconnectEarly : List Action :=
  [.call (.handleConnection incomingConnection), .run 0 .ok, .run 0 .ok,
    .call (.disconnectPeer "amberCloudYak"), .run 1 .ok]

/-- The user disconnects from a peer that has registered and cleared the set. -/
def disconnectLate : List Action :=
  [.call (.handleConnection incomingConnection), .run 0 .ok, .run 0 .ok, .run 0 .ok,
    .call (.disconnectPeer "amberCloudYak"), .run 1 .ok]

theorem staysDisconnected_late :
    (∀ after, EachStep step (LeavesAlone "amberCloudYak")
        ((finalState step (initial ownAddress) disconnectLate).step (.run 1 .ok)) after →
      StaysDisconnected "amberCloudYak"
        ((finalState step (initial ownAddress) disconnectLate).step (.run 1 .ok)) after) ↔
      ∀ task ∈ (finalState step (initial ownAddress) disconnectLate).tasks,
        ¬task.ClearsLater (finalState step (initial ownAddress) disconnectLate).node
          "amberCloudYak" := by
  have hmark : (finalState step (initial ownAddress) disconnectLate).tasks[1]? =
      some (.disconnectPeer "amberCloudYak" (.mark 1)) := rfl
  exact staysDisconnected_iff .ok hmark

/-- A disconnect between the registration of a connection and its clear is lost. -/
theorem disconnect_during_registration_lost :
    ¬∀ (announceAddress : AnnounceAddress) (before after : List Action) (i connection : Nat)
        (answer : Answer) (name : String),
      (finalState step (initial announceAddress) before).tasks[i]? =
          some (.disconnectPeer name (.mark connection)) →
        EachStep step (fun r action ↦ ¬CompletesConnect name r action)
            ((finalState step (initial announceAddress) before).step (.run i answer)) after →
          StaysDisconnected name
            ((finalState step (initial announceAddress) before).step (.run i answer)) after := by
  intro hclaim
  have hstays := hclaim ownAddress disconnectEarly [.run 0 .ok] 1 1 .ok "amberCloudYak" rfl
    ⟨(by rintro ⟨address, -, heq⟩; cases heq), trivial⟩
  exact absurd hstays.1.final (by decide)

end Runtime
end HarddriveParty
