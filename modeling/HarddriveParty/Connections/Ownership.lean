import HarddriveParty.Base.Registry
import HarddriveParty.Base.Runs
import HarddriveParty.Connections.PeerMap

/-!
# Who owns an entry in the map of peers

A connection is entered in the map by its task, which takes it out again when the connection has
ended. In between, another task can put its own connection in the place of a closed one. Each
entry belongs to a task that has still to clean up, a task takes out no entry but its own, and it
reports a disconnect only when it has taken one out.
-/

namespace HarddriveParty

open Runs

/-- The connection of a peer in the map. -/
def NodeState.connection? (node : NodeState) (name : String) : Option Nat :=
  (node.peer? name).map (·.connection)

namespace HandleConnection

/-- The connection has been entered in the map and its task has still to clean up. -/
def Stage.registered : Stage → Bool
  | clearManual _ _ => true
  | greet _ _ => true
  | accept => true
  | cleanUp _ => true
  | _ => false

/-- The task has cleaned up, or has closed its connection instead of registering it. -/
def Stage.cleanedUp : Stage → Bool
  | sayDisconnected _ _ => true
  | decideReconnect _ _ => true
  | reconnect _ _ => true
  | finished => true
  | _ => false

/-- The task has ended. -/
def Stage.ended : Stage → Bool
  | reconnect _ (.returned _) => true
  | finished => true
  | _ => false

theorem Stage.cleanedUp_of_registered {stage : Stage} (h : stage.registered = true) :
    stage.cleanedUp = false := by
  cases stage <;> first | rfl | cases h

theorem Stage.registered_of_ended {stage : Stage} (h : stage.ended = true) :
    stage.registered = false := by
  cases stage <;> first | rfl | cases h

end HandleConnection

namespace Task

/-- The connection that a task of `handle_connection` holds, at least until it has cleaned up. -/
def connection? : Task → Option Nat
  | handleConnection h stage => if stage.cleanedUp then none else some h.conn
  | _ => none

/-- The peer and the connection that the task has entered in the map and has to clean up. -/
def registered : Task → Option (String × Nat)
  | handleConnection h stage => if stage.registered then some (h.peerName, h.conn) else none
  | _ => none

end Task

namespace Runtime

/-- The stable id of a new connection is not that of one that is still held. -/
def Fresh (r : Runtime) : Action → Prop
  | .call (.handleConnection h) => ∀ task ∈ r.tasks, task.connection? ≠ some h.conn
  | _ => True

/-- The task with this index has entered the connection and has still to clean up. -/
def Owns (r : Runtime) (i : Nat) (name : String) (conn : Nat) : Prop :=
  ∃ h stage, r.tasks[i]? = some (.handleConnection h stage) ∧ stage.registered = true ∧
    h.peerName = name ∧ h.conn = conn

/-- Each entry belongs to one task that has entered it and has still to clean up. -/
def EntriesOwned (r : Runtime) : Prop :=
  ∀ name conn, r.node.connection? name = some conn → ∃! i, r.Owns i name conn

/-- Once all tasks of connections have ended, there is no entry left. -/
def EmptyOnceEnded (r : Runtime) : Prop :=
  (∀ h stage, Task.handleConnection h stage ∈ r.tasks → stage.ended = true) → r.node.peers = ∅

/-- A cleanup takes out no entry but that of its own connection. -/
def CleansUpOwn (r : Runtime) : Action → Prop
  | .run i answer => ∀ h err, r.tasks[i]? = some (.handleConnection h (.cleanUp err)) →
      ∀ name conn, r.node.connection? name = some conn →
        (r.step (.run i answer)).node.connection? name ≠ some conn →
          name = h.peerName ∧ conn = h.conn
  | _ => True

/-- The action is the cleanup of a task that takes the entry of its own connection out. -/
structure TakesOut (r : Runtime) (i : Nat) (h : HandleConnection) (action : Action) : Prop where
  cleanUp : ∃ answer err, action = .run i answer ∧
    r.tasks[i]? = some (.handleConnection h (.cleanUp err))
  own : r.node.connection? h.peerName = some h.conn
  out : (r.step action).node.connection? h.peerName = none

/-- Whenever a disconnect is reported in a run, it is by a task that has taken the entry of its
own connection out before. -/
def ReportsOwn (r : Runtime) (actions : List Action) : Prop :=
  ∀ before action after name err, actions = before ++ action :: after →
    ((finalState step r before).step action).node.events =
      (finalState step r before).node.events ++ [.peerDisconnected name err] →
    ∃ i answer h earlier cleanUp later, action = .run i answer ∧ h.peerName = name ∧
      before = earlier ++ cleanUp :: later ∧ (finalState step r earlier).TakesOut i h cleanUp

end Runtime

/-! ### What a task does to the entries -/

section Registry

/-- The connections in the map, and who has entered them. -/
def NodeState.registry (node : NodeState) (holds : Nat → Option (String × Nat)) :
    Registry Nat String Nat where
  entry := node.connection?
  holds := holds

variable {node node' : NodeState} {holds : Nat → Option (String × Nat)} {i : Nat}
  (h : HandleConnection)

private theorem moves_idle (hentry : ∀ name, node'.connection? name = node.connection? name)
    {held : Option (String × Nat)} (hheld : held = holds i) :
    (node.registry holds).Moves (node'.registry (Function.update holds i held)) := by
  have hregistry : node'.registry (Function.update holds i held) = node.registry holds := by
    subst hheld
    simp only [NodeState.registry, funext hentry, Function.update_eq_self]
  rw [hregistry]
  exact .idle

private theorem moves_same (hpeers : node'.peers = node.peers)
    {held : Option (String × Nat)} (hheld : held = holds i) :
    (node.registry holds).Moves (node'.registry (Function.update holds i held)) :=
  moves_idle (fun name ↦ by simp [NodeState.connection?, NodeState.peer?, hpeers]) hheld

private theorem register_moves (hfree : holds i = none) :
    (node.registry holds).Moves ((h.register node).1.registry
      (Function.update holds i (Task.handleConnection h (h.register node).2).registered)) := by
  rcases h.register_cases node with ⟨-, connections, announces, hstage, hentered⟩ |
    ⟨-, hstage, hpeers, -⟩
  · have hregistry : (h.register node).1.registry (Function.update holds i
        (Task.handleConnection h (h.register node).2).registered) =
        (node.registry holds).enter i h.peerName h.conn := by
      have hentry : (h.register node).1.connection? =
          Function.update node.connection? h.peerName (some h.conn) := by
        funext name
        unfold NodeState.connection?
        rw [hentered.peer]
        by_cases hname : name = h.peerName <;> simp [hname]
      rw [hstage]
      simp only [NodeState.registry, Registry.enter, hentry]
      rfl
    rw [hregistry]
    exact .enter i h.peerName h.conn hfree
  · rw [hstage]
    exact moves_same hpeers hfree.symm

private theorem accept_moves (answer : Answer) (hheld : holds i = some (h.peerName, h.conn)) :
    (node.registry holds).Moves ((h.accept node answer).1.registry
      (Function.update holds i (Task.handleConnection h (h.accept node answer).2).registered)) := by
  obtain ⟨-, hstage, hpeers⟩ := h.accept_cases node answer
  have hnext : (Task.handleConnection h (h.accept node answer).2).registered = holds i := by
    rcases hstage with hstage | ⟨err, hstage⟩ <;> rw [hstage] <;> exact hheld.symm
  rcases hpeers with hpeers | ⟨address, -, haccept⟩
  · exact moves_same hpeers hnext
  · -- the announcement changes what is known of the peer, not its connection
    refine moves_idle (fun name ↦ ?_) hnext
    unfold NodeState.connection?
    rw [haccept, HandleConnection.handleSelfAnnouncement_peer]
    split
    · rw [Option.map_map]
      rfl
    · rfl

/-- The cleanup takes the entry out, and is followed by a report, exactly when the entry is of its
own connection. -/
theorem HandleConnection.cleanUp_own_cases (node : NodeState) (err : String) :
    (node.connection? h.peerName = some h.conn ∧ ∃ address, h.cleanUp node err =
      ({ node with peers := node.peers.erase h.peerName }, .sayDisconnected err address)) ∨
    (node.connection? h.peerName ≠ some h.conn ∧
      h.cleanUp node err = (node, .decideReconnect false h.announceAddress)) := by
  unfold HandleConnection.cleanUp NodeState.connection?
  cases hpeer : node.peer? h.peerName with
  | none => simp
  | some peer => by_cases hown : peer.connection = h.conn <;> simp [Option.filter_some, hown]

theorem HandleConnection.cleanUp_connection (node : NodeState) (err name : String) :
    (h.cleanUp node err).1.connection? name =
      if name = h.peerName ∧ node.connection? h.peerName = some h.conn then none
      else node.connection? name := by
  rcases h.cleanUp_own_cases node err with ⟨hown, address, hcleanUp⟩ | ⟨hother, hcleanUp⟩
  · rw [hcleanUp]
    unfold NodeState.connection? NodeState.peer? at hown ⊢
    by_cases hname : name = h.peerName
    · subst hname
      simp [hown]
    · simp [hname, AList.lookup_erase_ne]
  · simp [hcleanUp, hother]

private theorem cleanUp_moves (err : String) (hheld : holds i = some (h.peerName, h.conn)) :
    (node.registry holds).Moves ((h.cleanUp node err).1.registry
      (Function.update holds i (Task.handleConnection h (h.cleanUp node err).2).registered)) := by
  have hstage : (Task.handleConnection h (h.cleanUp node err).2).registered = none := by
    rcases h.cleanUp_own_cases node err with ⟨-, address, hcleanUp⟩ | ⟨-, hcleanUp⟩ <;>
      rw [hcleanUp] <;> rfl
  have hregistry : (h.cleanUp node err).1.registry (Function.update holds i
      (Task.handleConnection h (h.cleanUp node err).2).registered) =
      (node.registry holds).leave i h.peerName h.conn := by
    have hentry : (h.cleanUp node err).1.connection? =
        ((node.registry holds).leave i h.peerName h.conn).entry := by
      funext name
      rw [HandleConnection.cleanUp_connection, Registry.leave_entry_eq]
      rfl
    rw [hstage]
    simp only [NodeState.registry, hentry]
    rfl
  rw [hregistry]
  exact .leave i h.peerName h.conn hheld

private theorem handle_moves (stage : HandleConnection.Stage) (answer : Answer)
    (hheld : holds i = (Task.handleConnection h stage).registered) :
    (node.registry holds).Moves ((h.next node answer stage).1.registry
      (Function.update holds i
        (Task.handleConnection h (h.next node answer stage).2).registered)) := by
  cases stage with
  | checkManual =>
    obtain ⟨hpeers, -, hstage⟩ := h.checkManual_cases node
    apply moves_same hpeers
    rcases hstage with hstage | hstage <;>
      simp only [HandleConnection.next, hstage] <;> exact hheld.symm
  | register => exact register_moves h hheld
  | clearManual connections announces => exact moves_same rfl hheld.symm
  | greet connections announces => exact moves_same rfl hheld.symm
  | accept => exact accept_moves h answer hheld
  | cleanUp err => exact cleanUp_moves h err hheld
  | sayDisconnected err address => exact moves_same rfl hheld.symm
  | decideReconnect wasConnected address =>
    obtain ⟨hnode, hstage⟩ := h.decideReconnect_cases node wasConnected address
    simp only [HandleConnection.next, hnode]
    apply moves_same rfl
    rcases hstage with hstage | ⟨address', hstage⟩ <;> rw [hstage] <;> exact hheld.symm
  | reconnect address connect =>
    exact moves_same (connect.next_peers node answer address).1 hheld.symm
  | finished => exact moves_same rfl hheld.symm

/-- A step of a task enters its connection, takes it out, or leaves the entries alone. -/
theorem Task.next_moves (task : Task) (answer : Answer) (hheld : holds i = task.registered) :
    (node.registry holds).Moves ((task.next node answer).1.registry
      (Function.update holds i (task.next node answer).2.registered)) := by
  cases task with
  | handleConnection h stage => exact handle_moves h stage answer hheld
  | connectToPeer address connect =>
    exact moves_same (connect.next_peers node answer address).1 hheld.symm
  | disconnectPeer name disconnect =>
    exact moves_same (disconnect.next_peers node name).1 hheld.symm

end Registry

namespace Runtime

/-- The connections in the map, and the tasks that have entered them. -/
def registry (r : Runtime) : Registry Nat String Nat :=
  r.node.registry (heldBy Task.registered r.tasks)

variable {r : Runtime} {action : Action}

private theorem call_holds (c : Call) : c.task.registered = none := by
  cases c <;> rfl

/-- A step enters a connection, takes one out, or leaves the entries alone. -/
theorem step_moves (r : Runtime) (action : Action) : r.registry.Moves (r.step action).registry := by
  cases action with
  | call c =>
    have hholds : heldBy Task.registered (r.tasks ++ [c.task]) = heldBy Task.registered r.tasks :=
      heldBy_append (by simp [call_holds])
    simp only [registry, step, hholds]
    exact .idle
  | run i answer =>
    cases htask : r.tasks[i]? with
    | none =>
      simp only [step, runTask, htask]
      exact .idle
    | some task =>
      have hlt : i < r.tasks.length := (List.getElem?_eq_some_iff.mp htask).1
      simp only [registry, step, runTask, htask, heldBy_set hlt]
      exact task.next_moves answer (heldBy_of_getElem? htask)
  | lose conn error =>
    have hnode : (r.node.setClosed conn error).connection? = r.node.connection? := by
      funext name
      simp [NodeState.connection?]
    simp only [registry, step, NodeState.registry, hnode]
    exact .idle
  | shutDown => exact .idle

/-- The connections that tasks hold are distinct. -/
def Distinct (r : Runtime) : Prop :=
  ∀ i j conn, heldBy Task.connection? r.tasks i = some conn →
    heldBy Task.connection? r.tasks j = some conn → i = j

private theorem handle_next_connection (h : HandleConnection) (node : NodeState) (answer : Answer)
    (stage : HandleConnection.Stage) (hstage : stage.cleanedUp = true) :
    (h.next node answer stage).2.cleanedUp = true := by
  cases stage with
  | sayDisconnected err address => rfl
  | decideReconnect wasConnected address =>
    obtain ⟨-, hnext⟩ := h.decideReconnect_cases node wasConnected address
    rcases hnext with hnext | ⟨address', hnext⟩ <;>
      simp only [HandleConnection.next, hnext, HandleConnection.Stage.cleanedUp]
  | reconnect address connect => rfl
  | finished => rfl
  | _ => cases hstage

/-- A task takes no other connection. -/
private theorem task_next_connection {task : Task} {node : NodeState} {answer : Answer} {conn : Nat}
    (hnext : (task.next node answer).2.connection? = some conn) : task.connection? = some conn := by
  cases task with
  | handleConnection h stage =>
    simp only [Task.next, Task.connection?] at hnext ⊢
    by_cases hstage : stage.cleanedUp = true
    · simp [handle_next_connection h node answer stage hstage] at hnext
    · split at hnext
      · cases hnext
      · simpa [hstage] using hnext
  | connectToPeer address connect => cases hnext
  | disconnectPeer name disconnect => cases hnext

/-- Held connections stay distinct when new ones have fresh ids. -/
theorem Distinct.step (h : r.Distinct) (hfresh : r.Fresh action) : (r.step action).Distinct := by
  cases action with
  | call c =>
    intro i j conn
    simp only [Runtime.step, heldBy_concat, Function.update_apply]
    have hnew (i : Nat) (hi : heldBy Task.connection? r.tasks i = some conn)
        (hc : c.task.connection? = some conn) : False := by
      obtain ⟨task, htask, hconn⟩ := heldBy_eq_some.mp hi
      cases c with
      | handleConnection handle =>
        cases hc
        exact hfresh task (List.mem_of_getElem? htask) hconn
      | connectToPeer address => cases hc
      | disconnectPeer name => cases hc
    split <;> split
    · next hi hj => exact fun _ _ ↦ hi.trans hj.symm
    · exact fun hc hj ↦ (hnew j hj hc).elim
    · exact fun hi hc ↦ (hnew i hi hc).elim
    · exact h i j conn
  | run i answer =>
    cases htask : r.tasks[i]? with
    | none => simpa only [Runtime.step, runTask, htask] using h
    | some task =>
      have hlt : i < r.tasks.length := (List.getElem?_eq_some_iff.mp htask).1
      have hold (j conn : Nat) (hj : heldBy Task.connection? (r.step (.run i answer)).tasks j =
          some conn) : heldBy Task.connection? r.tasks j = some conn := by
        simp only [Runtime.step, runTask, htask, heldBy_set hlt, Function.update_apply] at hj
        split at hj
        · next hji =>
          subst hji
          rw [heldBy_of_getElem? htask]
          exact task_next_connection hj
        · exact hj
      exact fun j j' conn hj hj' ↦ h j j' conn (hold j conn hj) (hold j' conn hj')
  | lose conn error => exact h
  | shutDown => exact h

/-! ### What follows for the map of peers -/

private theorem owns_iff {i : Nat} {name : String} {conn : Nat} :
    r.Owns i name conn ↔ heldBy Task.registered r.tasks i = some (name, conn) := by
  rw [heldBy_eq_some]
  constructor
  · rintro ⟨h, stage, htask, hstage, rfl, rfl⟩
    exact ⟨_, htask, by simp [Task.registered, hstage]⟩
  · rintro ⟨task, htask, hregistered⟩
    cases task with
    | handleConnection h stage =>
      cases hstage : stage.registered with
      | true =>
        simp only [Task.registered, hstage, if_true, Option.some.injEq, Prod.mk.injEq]
          at hregistered
        exact ⟨h, stage, htask, hstage, hregistered.1, hregistered.2⟩
      | false => simp [Task.registered, hstage] at hregistered
    | connectToPeer address connect => cases hregistered
    | disconnectPeer name disconnect => cases hregistered

private theorem Owns.connection {i : Nat} {name : String} {conn : Nat} (h : r.Owns i name conn) :
    heldBy Task.connection? r.tasks i = some conn := by
  obtain ⟨h, stage, htask, hstage, -, rfl⟩ := h
  rw [heldBy_of_getElem? htask, Task.connection?,
    HandleConnection.Stage.cleanedUp_of_registered hstage]
  rfl

/-- As connections that are held are distinct, an entry has one owner. -/
private theorem entriesOwned (h : r.registry.Owned) (hdistinct : r.Distinct) : r.EntriesOwned := by
  intro name conn hentry
  obtain ⟨i, hi⟩ := h name conn hentry
  have howns : r.Owns i name conn := owns_iff.mpr hi
  refine ⟨i, howns, ?_⟩
  intro j hj
  exact hdistinct j i conn hj.connection howns.connection

private theorem emptyOnceEnded (h : r.registry.Owned) : r.EmptyOnceEnded := by
  intro hended
  apply AList.ext
  apply List.eq_nil_iff_forall_not_mem.mpr
  rintro ⟨name, peer⟩ hmem
  have hpeer : r.node.peer? name = some peer := AList.mem_lookup_iff.mpr hmem
  have hentry : r.node.connection? name = some peer.connection := by
    simp [NodeState.connection?, hpeer]
  -- the owner of an entry has still to clean up
  obtain ⟨i, hi⟩ := h name peer.connection hentry
  obtain ⟨handle, stage, htask, hregistered, -, -⟩ := owns_iff.mpr hi
  have hstage := hended handle stage (List.mem_of_getElem? htask)
  rw [HandleConnection.Stage.registered_of_ended hstage] at hregistered
  cases hregistered

private theorem cleansUpOwn (r : Runtime) (action : Action) : r.CleansUpOwn action := by
  cases action with
  | run i answer =>
    intro h err htask name conn hentry hgone
    simp only [step, runTask, htask, Task.next, HandleConnection.next,
      HandleConnection.cleanUp_connection] at hgone
    split at hgone
    · next hown =>
      obtain ⟨rfl, hown⟩ := hown
      exact ⟨rfl, Option.some.inj (hentry.symm.trans hown)⟩
    · exact absurd hentry hgone
  | _ => trivial

/-! ### Reports of disconnects -/

private theorem append_ne_self {α : Type} {xs : List α} {x : α} : xs ≠ xs ++ [x] := by
  simp

/-- Only a task that is about to report a disconnect reports one. -/
private theorem handle_next_reports {h : HandleConnection} {node : NodeState} {answer : Answer}
    {stage : HandleConnection.Stage} {name err : String}
    (hevents : (h.next node answer stage).1.events = node.events ++ [.peerDisconnected name err]) :
    h.peerName = name ∧ ∃ address, stage = .sayDisconnected err address := by
  cases stage with
  | checkManual =>
    exact absurd ((h.checkManual_cases node).2.1.symm.trans hevents) append_ne_self
  | register =>
    rcases h.register_cases node with ⟨-, _, _, -, hentered⟩ | ⟨-, -, -, hsame⟩
    · exact absurd (hentered.events.symm.trans hevents) append_ne_self
    · exact absurd (hsame.symm.trans hevents) append_ne_self
  | clearManual connections announces => exact absurd hevents append_ne_self
  | greet connections announces =>
    have hlast := List.append_cancel_left hevents
    cases hlast
  | accept => exact absurd ((h.accept_cases node answer).1.symm.trans hevents) append_ne_self
  | cleanUp err' =>
    rcases h.cleanUp_cases node err' with ⟨_, -, -, hsame⟩ | hcleanUp
    · exact absurd (hsame.symm.trans hevents) append_ne_self
    · simp [HandleConnection.next, hcleanUp] at hevents
  | sayDisconnected err' address =>
    have hlast := List.append_cancel_left hevents
    cases hlast
    exact ⟨rfl, address, rfl⟩
  | decideReconnect wasConnected address =>
    have hnode := (h.decideReconnect_cases node wasConnected address).1
    simp [HandleConnection.next, hnode] at hevents
  | reconnect address connect =>
    exact absurd ((connect.next_peers node answer address).2.symm.trans hevents) append_ne_self
  | finished => exact absurd hevents append_ne_self

private theorem step_reports {name err : String}
    (hevents : (r.step action).node.events = r.node.events ++ [.peerDisconnected name err]) :
    ∃ i answer h address, action = .run i answer ∧ h.peerName = name ∧
      r.tasks[i]? = some (.handleConnection h (.sayDisconnected err address)) := by
  cases action with
  | call c => exact absurd hevents append_ne_self
  | run i answer =>
    cases htask : r.tasks[i]? with
    | none => simp [step, runTask, htask] at hevents
    | some task =>
      simp only [step, runTask, htask] at hevents
      cases task with
      | handleConnection h stage =>
        obtain ⟨hname, address, rfl⟩ := handle_next_reports hevents
        exact ⟨i, answer, h, address, rfl, hname, htask⟩
      | connectToPeer address connect =>
        have hsame := (connect.next_peers r.node answer address).2
        exact absurd (hsame.symm.trans hevents) append_ne_self
      | disconnectPeer name disconnect =>
        have hsame := (disconnect.next_peers r.node name).2
        exact absurd (hsame.symm.trans hevents) append_ne_self
  | lose conn error => simp [step] at hevents
  | shutDown => exact absurd hevents append_ne_self

/-- The task with this index is about to report a disconnect. -/
def IsReporting (i : Nat) (h : HandleConnection) (r : Runtime) : Prop :=
  ∃ err address, r.tasks[i]? = some (.handleConnection h (.sayDisconnected err address))

private theorem handle_next_isReporting {h : HandleConnection} {node : NodeState} {answer : Answer}
    {stage : HandleConnection.Stage} {err : String} {address : Option AnnounceAddress}
    (hnext : (h.next node answer stage).2 = .sayDisconnected err address) :
    ∃ err, stage = .cleanUp err ∧ node.connection? h.peerName = some h.conn := by
  cases stage with
  | checkManual =>
    obtain ⟨-, -, hstage⟩ := h.checkManual_cases node
    rcases hstage with hstage | hstage <;> cases hstage.symm.trans hnext
  | register =>
    rcases h.register_cases node with ⟨-, _, _, hstage, -⟩ | ⟨-, hstage, -, -⟩ <;>
      cases hstage.symm.trans hnext
  | accept =>
    obtain ⟨-, hstage, -⟩ := h.accept_cases node answer
    rcases hstage with hstage | ⟨_, hstage⟩ <;> cases hstage.symm.trans hnext
  | cleanUp err' =>
    rcases h.cleanUp_own_cases node err' with ⟨hown, -⟩ | ⟨-, hcleanUp⟩
    · exact ⟨err', rfl, hown⟩
    · cases (congrArg Prod.snd hcleanUp).symm.trans hnext
  | decideReconnect wasConnected address' =>
    obtain ⟨-, hstage⟩ := h.decideReconnect_cases node wasConnected address'
    rcases hstage with hstage | ⟨_, hstage⟩ <;> cases hstage.symm.trans hnext
  | _ => cases hnext

/-- A task that is about to report a disconnect has just taken its entry out. -/
private theorem takesOut_of_step {i : Nat} {h : HandleConnection} (hbefore : ¬IsReporting i h r)
    (hafter : IsReporting i h (r.step action)) : r.TakesOut i h action := by
  obtain ⟨err, address, htask⟩ := hafter
  cases action with
  | call c =>
    rcases Nat.lt_or_ge i r.tasks.length with hi | hi
    · rw [step, List.getElem?_append_left hi] at htask
      exact absurd ⟨err, address, htask⟩ hbefore
    · rw [step, List.getElem?_append_right hi] at htask
      have hnew := List.mem_singleton.mp (List.mem_of_getElem? htask)
      cases c <;> cases hnew
  | run j answer =>
    cases hj : r.tasks[j]? with
    | none =>
      simp only [step, runTask, hj] at htask
      exact absurd ⟨err, address, htask⟩ hbefore
    | some task =>
      have hlt : j < r.tasks.length := (List.getElem?_eq_some_iff.mp hj).1
      by_cases hij : j = i
      · subst hij
        simp only [step, runTask, hj, List.getElem?_set_self hlt, Option.some.injEq] at htask
        cases task with
        | handleConnection h' stage =>
          simp only [Task.next, Task.handleConnection.injEq] at htask
          obtain ⟨rfl, hnext⟩ := htask
          obtain ⟨err', rfl, hown⟩ := handle_next_isReporting hnext
          refine ⟨⟨answer, err', rfl, hj⟩, hown, ?_⟩
          simp only [step, runTask, hj, Task.next, HandleConnection.next,
            HandleConnection.cleanUp_connection]
          rw [if_pos ⟨trivial, hown⟩]
        | connectToPeer address connect => cases htask
        | disconnectPeer name disconnect => cases htask
      · simp only [step, runTask, hj, List.getElem?_set_ne hij] at htask
        exact absurd ⟨err, address, htask⟩ hbefore
  | lose conn error => exact absurd ⟨err, address, htask⟩ hbefore
  | shutDown => exact absurd ⟨err, address, htask⟩ hbefore

theorem reportsOwn_initial (announceAddress : AnnounceAddress) (actions : List Action) :
    ReportsOwn (initial announceAddress) actions := by
  intro before action after name err _ hevents
  obtain ⟨i, answer, h, address, haction, hname, htask⟩ := step_reports hevents
  have hinitial : ¬IsReporting i h (initial announceAddress) := by
    rintro ⟨_, _, htask⟩
    cases htask
  obtain ⟨earlier, cleanUp, later, hbefore, hnot, hreports⟩ :=
    exists_step_of_finalState hinitial ⟨err, address, htask⟩
  exact ⟨i, answer, h, earlier, cleanUp, later, haction, hname, hbefore,
    takesOut_of_step hnot hreports⟩

/-! ### Runs -/

/-- Entries have owners, and the connections that tasks hold are distinct. -/
structure Accounted (r : Runtime) : Prop where
  owned : r.registry.Owned
  distinct : r.Distinct

private theorem accounted_initial (announceAddress : AnnounceAddress) :
    (initial announceAddress).Accounted := by
  constructor
  · intro name conn hentry
    cases hentry
  · intro i j conn hi
    cases hi

/-- In every run in which the stable ids of held connections are distinct, for any number of
connections of any peers: a cleanup takes out only the entry of its own connection, and only then
a disconnect is reported; each entry belongs to a task that has entered it and has still to clean
up; and once all tasks have ended the map is empty. -/
theorem cleanUp_own (announceAddress : AnnounceAddress) (actions : List Action)
    (hfresh : EachStep step Fresh (initial announceAddress) actions) :
    EachStep step CleansUpOwn (initial announceAddress) actions ∧
      ReportsOwn (initial announceAddress) actions ∧
      EachState step EntriesOwned (initial announceAddress) actions ∧
      EachState step EmptyOnceEnded (initial announceAddress) actions := by
  have hkeep (r : Runtime) (action : Action) (h : r.Accounted) (hfresh : r.Fresh action) :
      (r.step action).Accounted :=
    ⟨h.owned.moves (r.step_moves action), h.distinct.step hfresh⟩
  have hstates : EachState step Accounted (initial announceAddress) actions :=
    eachState_of_invariant (accounted_initial announceAddress) hfresh hkeep
  refine ⟨?_, reportsOwn_initial announceAddress actions, ?_, ?_⟩
  · exact eachStep_of_invariant (accounted_initial announceAddress) hfresh hkeep
      fun r action _ _ ↦ r.cleansUpOwn action
  · exact hstates.mono fun r h ↦ entriesOwned h.owned h.distinct
  · exact hstates.mono fun r h ↦ emptyOnceEnded h.owned

/-- An incoming connection of a peer. -/
def connectionOf (conn : Nat) : HandleConnection :=
  ⟨conn, true, none, "amberCloudYak", ⟨List.replicate 32 0, length_zeros⟩⟩

/-- A connection is lost and replaced by a second one before its task cleans up; then the second
one is lost as well. -/
def replacedBeforeCleanUp : List Action :=
  [.call (.handleConnection (connectionOf 1)), .run 0 .ok, .run 0 .ok, .run 0 .ok, .run 0 .ok,
    .lose 1 .lost, .call (.handleConnection (connectionOf 2)), .run 1 .ok, .run 1 .ok,
    .run 1 .ok, .run 1 .ok, .run 0 (.acceptError "timed out"), .run 0 .ok, .run 0 .ok,
    .lose 2 .lost, .run 1 (.acceptError "timed out"), .run 1 .ok, .run 1 .ok, .run 1 .ok]

theorem cleanUp_own_replaced :
    EachState step EmptyOnceEnded (initial ⟨.noNat (.v4 0x7f000001 1000), "ownName"⟩)
      replacedBeforeCleanUp := by
  refine (cleanUp_own ⟨.noNat (.v4 0x7f000001 1000), "ownName"⟩ replacedBeforeCleanUp ?_).2.2.2
  refine ⟨?_, trivial, trivial, trivial, trivial, trivial, ?_, trivial, trivial, trivial, trivial,
    trivial, trivial, trivial, trivial, trivial, trivial, trivial, trivial, trivial⟩
  · intro task htask
    cases htask
  · unfold Fresh
    decide

end Runtime

end HarddriveParty
