import HarddriveParty.Base.Mirror
import HarddriveParty.Base.Registry
import HarddriveParty.Base.Runs
import HarddriveParty.Connections.PeerMap

/-!
# What the UI is told about connections

The UI keeps a set of connected peers that it changes on each event. A task that changes the map
of peers tells the UI in a later step, and a failed attempt to connect is told as well. The UI is
right about the map, as far as no task has still to tell it of a change, exactly as long as every
event that is not followed by another one about its peer is true of the map.
-/

namespace HarddriveParty

open Runs HandleConnection

/-- What the UI does to its set of peers on an event (`web-ui/src/hdp.rs:168`). -/
def UiEvent.updatePeers (peers : Finset String) : UiEvent → Finset String
  | peerConnected name => insert name peers
  | peerDisconnected name _ => peers.erase name
  | peerConnectionFailed name _ => peers.erase name
  | uploaded _ => peers
  | download _ => peers

/-- The peers that the UI shows after these events. -/
def uiPeers (events : List UiEvent) : Finset String := events.foldl UiEvent.updatePeers ∅

/-- The peer whose entry in the map the task has changed without having told the UI yet. -/
def Task.owes : Task → Option String
  | handleConnection h (.clearManual _ _) => some h.peerName
  | handleConnection h (.greet _ _) => some h.peerName
  | handleConnection h (.sayDisconnected _ _) => some h.peerName
  | _ => none

/-- An event that the next step of a task sends is true of the map of peers, or another task has
still to send one about the peer. -/
def Task.SendsTruly (node : NodeState) (otherOwes : String → Prop) : Task → Prop
  | handleConnection h (.greet _ _) => otherOwes h.peerName ∨ h.peerName ∈ node.peers
  | handleConnection h (.sayDisconnected _ _) => otherOwes h.peerName ∨ h.peerName ∉ node.peers
  | _ => True

namespace Hdp

/-- No task is between its change of the map of peers and its event. -/
def Settled (hdp : Hdp) : Prop := ∀ task ∈ hdp.tasks, task.owes = none

/-- No task is between its change of the entry of this peer and its event. -/
def SettledFor (hdp : Hdp) (name : String) : Prop := ∀ task ∈ hdp.tasks, task.owes ≠ some name

/-- A task other than the one with index `i` is between its change of the entry of this peer and
its event. -/
def OtherOwes (hdp : Hdp) (i : Nat) (name : String) : Prop :=
  ∃ j, j ≠ i ∧ hdp.tasks[j]?.bind Task.owes = some name

/-- An event that the action sends about a peer is true of the map of peers, or another task has
still to send one about the peer. -/
def SendsTruly (hdp : Hdp) : Action → Prop
  | .runTask i _ => ∀ task ∈ hdp.tasks[i]?, task.SendsTruly hdp.node (hdp.OtherOwes i)
  | .runOutbound i _ => ∀ peer err, hdp.outbound[i]? = some (peer, .fail err) →
      ¬hdp.SettledFor peer.announceAddress.name ∨ peer.announceAddress.name ∉ hdp.node.peers
  | .runMainLoop _ => ∀ name err, hdp.mainLoop = .fail name err →
      ¬hdp.SettledFor name ∨ name ∉ hdp.node.peers
  | _ => True

/-- The UI is right about every peer that no task has still to tell it of. -/
def TellsTruth (hdp : Hdp) : Prop :=
  ∀ name, hdp.SettledFor name → (name ∈ uiPeers hdp.node.events ↔ name ∈ hdp.node.peers)

end Hdp

/-! ### The map of peers and the set of the UI -/

section Mirror

/-- The map of peers and the set of the UI. -/
def NodeState.mirror (node : NodeState) (owes : Option Nat → Option String) :
    Mirror (Option Nat) String where
  members := {name | name ∈ node.peers}
  view := {name | name ∈ uiPeers node.events}
  owes := owes

variable {node node' : NodeState} {owes : Option Nat → Option String} {i : Option Nat}
  {name : String}

private theorem uiPeers_append (events : List UiEvent) (event : UiEvent) :
    uiPeers (events ++ [event]) = event.updatePeers (uiPeers events) := by
  simp [uiPeers]

private theorem advances_idle (hmem : ∀ name, name ∈ node'.peers ↔ name ∈ node.peers)
    (hevents : node'.events = node.events) {owed : Option String} (howes : owed = owes i) :
    (node.mirror owes).Advances (node'.mirror (Function.update owes i owed)) True := by
  have hmirror : node'.mirror (Function.update owes i owed) = node.mirror owes := by
    subst howes
    simp only [NodeState.mirror, hmem, hevents, Function.update_eq_self]
  rw [hmirror]
  exact Mirror.advances_refl

private theorem advances_same (hpeers : node'.peers = node.peers)
    (hevents : node'.events = node.events) {owed : Option String} (howes : owed = owes i) :
    (node.mirror owes).Advances (node'.mirror (Function.update owes i owed)) True :=
  advances_idle (fun name ↦ by rw [hpeers]) hevents howes

private theorem advances_event {event : UiEvent} (name : String) (present : Bool)
    (hevent : ∀ peers n, n ∈ event.updatePeers peers ↔
      n = name ∧ present = true ∨ n ≠ name ∧ n ∈ peers)
    (howes : owes i = none ∨ owes i = some name) :
    (node.mirror owes).Advances
      ((node.sendEvent event).mirror (Function.update owes i none))
      ((∃ j, j ≠ i ∧ owes j = some name) ∨ (present = true ↔ name ∈ node.peers)) := by
  have hview : {n | n ∈ uiPeers (node.sendEvent event).events} =
      Mirror.put (node.mirror owes).view name present := by
    ext n
    rw [Set.mem_ofPred_eq, NodeState.sendEvent, uiPeers_append]
    exact hevent (uiPeers node.events) n
  have hadvances : (node.mirror owes).Advances _ _ := Mirror.advances_send name present howes
  rw [← hview] at hadvances
  exact hadvances

private theorem advances_connected (howes : owes i = some name) :
    (node.mirror owes).Advances
      ((node.sendEvent (.peerConnected name)).mirror (Function.update owes i none))
      ((∃ j, j ≠ i ∧ owes j = some name) ∨ name ∈ node.peers) := by
  have hevent (peers : Finset String) (n : String) :
      n ∈ (UiEvent.peerConnected name).updatePeers peers ↔
        n = name ∧ true = true ∨ n ≠ name ∧ n ∈ peers := by
    by_cases h : n = name <;> simp [UiEvent.updatePeers, h]
  simpa only [true_iff] using advances_event name true hevent (Or.inr howes)

private theorem advances_gone {event : UiEvent} {err : String}
    (hevent : event = .peerDisconnected name err ∨ event = .peerConnectionFailed name err)
    (howes : owes i = none ∨ owes i = some name) :
    (node.mirror owes).Advances
      ((node.sendEvent event).mirror (Function.update owes i none))
      ((∃ j, j ≠ i ∧ owes j = some name) ∨ name ∉ node.peers) := by
  have hgone (peers : Finset String) (n : String) :
      n ∈ event.updatePeers peers ↔ n = name ∧ false = true ∨ n ≠ name ∧ n ∈ peers := by
    rcases hevent with rfl | rfl <;> simp [UiEvent.updatePeers]
  simpa only [Bool.false_eq_true, false_iff] using advances_event name false hgone howes

private theorem advances_changed (present : Bool)
    (hmem : ∀ n, n ∈ node'.peers ↔ n = name ∧ present = true ∨ n ≠ name ∧ n ∈ node.peers)
    (hevents : node'.events = node.events) (howes : owes i = none) :
    (node.mirror owes).Advances (node'.mirror (Function.update owes i (some name))) True := by
  have hmembers : {n | n ∈ node'.peers} = Mirror.put (node.mirror owes).members name present :=
    Set.ext hmem
  have hadvances : (node.mirror owes).Advances _ True :=
    Mirror.advances_change name present howes
  rw [← hmembers] at hadvances
  simp only [NodeState.mirror, hevents] at hadvances ⊢
  exact hadvances

private theorem checkManual_advances (h : HandleConnection) (howes : owes i = none) :
    (node.mirror owes).Advances ((h.checkManual node).1.mirror (Function.update owes i
      (Task.handleConnection h (h.checkManual node).2).owes)) True := by
  obtain ⟨hpeers, hevents, hstage⟩ := h.checkManual_cases node
  apply advances_same hpeers hevents
  rcases hstage with hstage | hstage <;> rw [hstage] <;> exact howes.symm

private theorem register_advances (h : HandleConnection) (howes : owes i = none) :
    (node.mirror owes).Advances ((h.register node).1.mirror (Function.update owes i
      (Task.handleConnection h (h.register node).2).owes)) True := by
  rcases h.register_cases node with ⟨-, hentered⟩ | ⟨-, hstage, hpeers, hevents⟩
  · obtain ⟨connections, announces, hstage, hentered⟩ := hentered
    rw [hstage]
    apply advances_changed true _ hentered.events howes
    intro name
    rw [NodeState.mem_peers_iff, hentered.peer, NodeState.mem_peers_iff]
    by_cases hname : name = h.peerName <;> simp [hname]
  · rw [hstage]
    exact advances_same hpeers hevents howes.symm

private theorem accept_advances (h : HandleConnection) (answer : Answer) (howes : owes i = none) :
    (node.mirror owes).Advances ((h.accept node answer).1.mirror (Function.update owes i
      (Task.handleConnection h (h.accept node answer).2).owes)) True := by
  obtain ⟨hevents, hstage, hpeers⟩ := h.accept_cases node answer
  have howed : (Task.handleConnection h (h.accept node answer).2).owes = owes i := by
    rcases hstage with hstage | ⟨err, hstage⟩ <;> rw [hstage] <;> exact howes.symm
  rcases hpeers with hpeers | ⟨address, -, haccept⟩
  · exact advances_same hpeers hevents howed
  · -- the announcement changes an entry, not which peers have one
    apply advances_idle _ hevents howed
    intro name
    rw [haccept, NodeState.mem_peers_iff, NodeState.mem_peers_iff, handleSelfAnnouncement_peer]
    split <;> simp

private theorem cleanUp_advances (h : HandleConnection) (err : String) (howes : owes i = none) :
    (node.mirror owes).Advances ((h.cleanUp node err).1.mirror (Function.update owes i
      (Task.handleConnection h (h.cleanUp node err).2).owes)) True := by
  rcases h.cleanUp_cases node err with ⟨address, hstage, hpeers, hevents⟩ | hcleanUp
  · rw [hstage]
    apply advances_changed false _ hevents howes
    intro name
    simp [hpeers, AList.mem_erase]
  · rw [hcleanUp]
    exact advances_same rfl rfl howes.symm

private theorem decideReconnect_advances (h : HandleConnection) (wasConnected : Bool)
    (address : Option AnnounceAddress) (howes : owes i = none) :
    (node.mirror owes).Advances
      ((h.decideReconnect node wasConnected address).1.mirror (Function.update owes i
        (Task.handleConnection h (h.decideReconnect node wasConnected address).2).owes)) True := by
  obtain ⟨hnode, hstage⟩ := h.decideReconnect_cases node wasConnected address
  rw [hnode]
  apply advances_same rfl rfl
  rcases hstage with hstage | ⟨address', hstage⟩ <;> rw [hstage] <;> exact howes.symm

/-- A step of a task is a change of the map, a notice, or neither. -/
private theorem handle_advances (h : HandleConnection) (stage : Stage) (answer : Answer)
    (howes : owes i = (Task.handleConnection h stage).owes) :
    (node.mirror owes).Advances
      ((h.next node answer stage).1.mirror (Function.update owes i
        (Task.handleConnection h (h.next node answer stage).2).owes))
      ((Task.handleConnection h stage).SendsTruly node
        fun name ↦ ∃ j, j ≠ i ∧ owes j = some name) := by
  cases stage with
  | checkManual => exact checkManual_advances h howes
  | register => exact register_advances h howes
  | clearManual connections announces => exact advances_same rfl rfl howes.symm
  | greet connections announces => exact advances_connected howes
  | accept => exact accept_advances h answer howes
  | cleanUp err => exact cleanUp_advances h err howes
  | sayDisconnected err address => exact advances_gone (Or.inl rfl) (Or.inr howes)
  | decideReconnect wasConnected address =>
    exact decideReconnect_advances h wasConnected address howes
  | reconnect address connect =>
    obtain ⟨hpeers, hevents⟩ := connect.next_peers node answer address
    exact advances_same hpeers hevents howes.symm
  | finished => exact advances_same rfl rfl howes.symm

private theorem task_advances (task : Task) (answer : Answer) (howes : owes i = task.owes) :
    (node.mirror owes).Advances
      ((task.next node answer).1.mirror (Function.update owes i (task.next node answer).2.owes))
      (task.SendsTruly node fun name ↦ ∃ j, j ≠ i ∧ owes j = some name) := by
  cases task with
  | handleConnection h stage => exact handle_advances h stage answer howes
  | connectToPeer address connect =>
    obtain ⟨hpeers, hevents⟩ := connect.next_peers node answer address
    exact advances_same hpeers hevents howes.symm
  | disconnectPeer name disconnect =>
    obtain ⟨hpeers, hevents⟩ := disconnect.next_peers node name
    exact advances_same hpeers hevents howes.symm

end Mirror

namespace Hdp

variable {hdp hdp' : Hdp} {name : String}

/-- What each task has still to tell the UI of; who reports a failed attempt has changed
nothing before. -/
def owes (hdp : Hdp) : Option Nat → Option String
  | none => none
  | some i => hdp.tasks[i]?.bind Task.owes

/-- The map of peers, the set of the UI and what the tasks have still to tell. -/
def mirror (hdp : Hdp) : Mirror (Option Nat) String := hdp.node.mirror hdp.owes

private theorem not_settledFor_iff :
    ¬hdp.SettledFor name ↔ ∃ i, hdp.owes i = some name := by
  constructor
  · intro h
    obtain ⟨task, htask, howes⟩ : ∃ task ∈ hdp.tasks, task.owes = some name := by
      simpa [SettledFor] using h
    obtain ⟨i, hi⟩ := List.mem_iff_getElem?.mp htask
    exact ⟨some i, by simp [owes, hi, howes]⟩
  · rintro ⟨i, hi⟩ h
    cases i with
    | none => cases hi
    | some i =>
      obtain ⟨task, htask, howes⟩ := Option.bind_eq_some_iff.mp hi
      exact h task (List.mem_of_getElem? htask) howes

private theorem otherOwes_iff {i : Nat} :
    hdp.OtherOwes i name ↔ ∃ j, j ≠ some i ∧ hdp.owes j = some name := by
  constructor
  · rintro ⟨j, hji, hj⟩
    exact ⟨some j, fun heq ↦ hji (Option.some.inj heq), hj⟩
  · rintro ⟨j, hji, hj⟩
    cases j with
    | none => cases hj
    | some j => exact ⟨j, fun heq ↦ hji (congrArg some heq), hj⟩

/-- The UI is right as far as no event is still to come. -/
theorem agrees_mirror_iff : hdp.mirror.Agrees ↔ hdp.TellsTruth := by
  have hsettled (name : String) : (∀ i, hdp.owes i ≠ some name) ↔ hdp.SettledFor name := by
    rw [← not_iff_not, not_settledFor_iff]
    simp
  constructor
  · intro h name hname
    exact h name ((hsettled name).mpr hname)
  · intro h name hname
    exact h name ((hsettled name).mp hname)

private theorem owes_of_keepsPeers (h : KeepsPeers hdp hdp') : hdp'.owes = hdp.owes := by
  obtain ⟨calls, htasks⟩ := h.tasks
  funext i
  cases i with
  | none => rfl
  | some i =>
    show heldBy Task.owes hdp'.tasks i = heldBy Task.owes hdp.tasks i
    rw [htasks, heldBy_append]
    intro task htask
    obtain ⟨call, -, rfl⟩ := List.mem_map.mp htask
    cases call <;> rfl

private theorem mirror_of_keepsPeers (h : KeepsPeers hdp hdp')
    (hevents : hdp'.node.events = hdp.node.events) : hdp'.mirror = hdp.mirror := by
  simp only [mirror, NodeState.mirror, owes_of_keepsPeers h, h.peers, hevents]

private theorem runTask_advances (i : Nat) (answer : Answer) :
    hdp.mirror.Advances (hdp.step (.runTask i answer)).mirror
      (hdp.SendsTruly (.runTask i answer)) := by
  cases htask : hdp.tasks[i]? with
  | none =>
    rw [runTask_eq_self htask]
    simpa [SendsTruly, htask] using Mirror.advances_refl
  | some task =>
    obtain ⟨hnode, htasks⟩ := runTask_eq htask answer
    have howes : (hdp.step (.runTask i answer)).owes =
        Function.update hdp.owes (some i) (task.next hdp.node answer).2.owes := by
      funext j
      by_cases hj : j = some i
      · subst hj
        have hlt := (List.getElem?_eq_some_iff.mp htask).1
        simp [owes, htasks, hlt]
      · rw [Function.update_of_ne hj]
        cases j with
        | none => rfl
        | some j =>
          have hij : i ≠ j := fun heq ↦ hj (congrArg some heq.symm)
          simp only [owes, htasks, List.getElem?_set_ne hij]
    have hcondition : hdp.SendsTruly (.runTask i answer) ↔ task.SendsTruly hdp.node
        fun name ↦ ∃ j, j ≠ some i ∧ hdp.owes j = some name := by
      have hother : hdp.OtherOwes i = fun name ↦ ∃ j, j ≠ some i ∧ hdp.owes j = some name :=
        funext fun name ↦ propext otherOwes_iff
      simp only [SendsTruly, htask, Option.mem_def, Option.some.injEq, forall_eq', hother]
    rw [mirror, mirror, hnode, howes, hcondition]
    exact task_advances task answer (by simp [owes, htask])

private theorem failed_advances (err : String) (hkeeps : KeepsPeers hdp hdp')
    (hevents : hdp'.node.events = hdp.node.events ++ [.peerConnectionFailed name err]) :
    hdp.mirror.Advances hdp'.mirror (¬hdp.SettledFor name ∨ name ∉ hdp.node.peers) := by
  have hmirror : hdp'.mirror = (hdp.node.sendEvent (.peerConnectionFailed name err)).mirror
      (Function.update hdp.owes none none) := by
    have howes : Function.update hdp.owes none none = hdp.owes :=
      Function.update_eq_self none hdp.owes
    simp only [mirror, NodeState.mirror, NodeState.sendEvent, owes_of_keepsPeers hkeeps,
      hkeeps.peers, hevents, howes]
  have hother : ¬hdp.SettledFor name ↔ ∃ j, j ≠ none ∧ hdp.owes j = some name := by
    rw [not_settledFor_iff]
    constructor
    · rintro ⟨j, hj⟩
      refine ⟨j, ?_, hj⟩
      rintro rfl
      cases hj
    · rintro ⟨j, -, hj⟩
      exact ⟨j, hj⟩
  rw [hmirror, hother]
  exact advances_gone (Or.inr rfl) (Or.inl rfl)

private theorem idle_advances {action : Action} (hkeeps : KeepsPeers hdp (hdp.step action))
    (hevents : (hdp.step action).node.events = hdp.node.events) (htrue : hdp.SendsTruly action) :
    hdp.mirror.Advances (hdp.step action).mirror (hdp.SendsTruly action) := by
  rw [mirror_of_keepsPeers hkeeps hevents, eq_true htrue]
  exact Mirror.advances_refl

private theorem runOutbound_advances (i : Nat) (result : Except UiServerError Connected) :
    hdp.mirror.Advances (hdp.step (.runOutbound i result)).mirror
      (hdp.SendsTruly (.runOutbound i result)) := by
  have hkeeps : KeepsPeers hdp (hdp.step (.runOutbound i result)) :=
    hdp.runOutbound_keepsPeers i result
  by_cases hfail : ∃ peer err, hdp.outbound[i]? = some (peer, .fail err)
  · obtain ⟨peer, err, houtbound⟩ := hfail
    have hcondition : hdp.SendsTruly (.runOutbound i result) ↔
        ¬hdp.SettledFor peer.announceAddress.name ∨
          peer.announceAddress.name ∉ hdp.node.peers := by
      simp [SendsTruly, houtbound]
    rw [hcondition]
    apply failed_advances err.display hkeeps
    simp only [step, runOutbound, houtbound]
    rfl
  · apply idle_advances hkeeps
    · obtain ⟨pending, events, hnode, hevents⟩ := hdp.runOutbound_node i result
      have hsame := hevents fun peer err houtbound ↦ hfail ⟨peer, err, houtbound⟩
      exact (congrArg (·.events) hnode).trans hsame
    · intro peer err houtbound
      exact absurd ⟨peer, err, houtbound⟩ hfail

private theorem runMainLoop_advances (input : Input) :
    hdp.mirror.Advances (hdp.step (.runMainLoop input)).mirror
      (hdp.SendsTruly (.runMainLoop input)) := by
  have hkeeps : KeepsPeers hdp (hdp.step (.runMainLoop input)) :=
    hdp.runMainLoop_keepsPeers input
  by_cases hfail : ∃ name err, hdp.mainLoop = .fail name err
  · obtain ⟨name, err, hloop⟩ := hfail
    have hcondition : hdp.SendsTruly (.runMainLoop input) ↔
        ¬hdp.SettledFor name ∨ name ∉ hdp.node.peers := by
      simp [SendsTruly, hloop]
    rw [hcondition]
    apply failed_advances err.display hkeeps
    simp only [step, runMainLoop, hloop]
    rfl
  · apply idle_advances hkeeps
    · apply (hdp.runMainLoop_node input).2
      exact fun name err hloop ↦ hfail ⟨name, err, hloop⟩
    · intro name err hloop
      exact absurd ⟨name, err, hloop⟩ hfail

/-- Every step is a change of the map by a task, an event about a peer, or neither. -/
theorem step_advances (action : Action) :
    hdp.mirror.Advances (hdp.step action).mirror (hdp.SendsTruly action) := by
  cases action with
  | connectToPeer address =>
    exact idle_advances (step_keepsPeers fun _ _ heq ↦ by cases heq) rfl trivial
  | disconnectPeer name =>
    exact idle_advances (step_keepsPeers fun _ _ heq ↦ by cases heq) rfl trivial
  | shutDown =>
    exact idle_advances (step_keepsPeers fun _ _ heq ↦ by cases heq) rfl trivial
  | lose conn error =>
    exact idle_advances (step_keepsPeers fun _ _ heq ↦ by cases heq)
      (hdp.node.setClosed_events conn error) trivial
  | runTask i answer => exact runTask_advances i answer
  | runOutbound i result => exact runOutbound_advances i result
  | runMainLoop input => exact runMainLoop_advances input
  | runAnnouncement sockets holePuncher =>
    exact idle_advances (step_keepsPeers fun _ _ heq ↦ by cases heq)
      (hdp.runAnnouncement_keepsPeers sockets holePuncher).2 trivial
  | mdns address connectTo =>
    exact idle_advances (step_keepsPeers fun _ _ heq ↦ by cases heq) rfl trivial

/-- A step keeps the UI right exactly when its event is true. -/
theorem tellsTruth_step_iff {action : Action} (h : hdp.TellsTruth) :
    (hdp.step action).TellsTruth ↔ hdp.SendsTruly action := by
  rw [← agrees_mirror_iff]
  exact (step_advances action).agrees_iff (agrees_mirror_iff.mpr h)

/-- When no event is still to come, the UI shows the peers of the map. -/
theorem TellsTruth.uiPeers_eq (h : hdp.TellsTruth) (hsettled : hdp.Settled) :
    uiPeers hdp.node.events = hdp.node.peers.keys.toFinset := by
  ext name
  rw [List.mem_toFinset, ← AList.mem_keys]
  apply h name
  intro task htask howes
  rw [hsettled task htask] at howes
  cases howes

section Start

variable (announceAddress : AnnounceAddress)
  (knownPeers : AList fun _ : String ↦ PeerConnectionDetails) (actions : List Action)

private theorem tellsTruth_start : (start announceAddress knownPeers).TellsTruth := by
  intro name _
  exact iff_of_false (Finset.notMem_empty name) (AList.notMem_empty name)

/-- In every run of a node the UI is right about each peer that no task has still to tell it of
exactly when every event that is not followed by another one about its peer is true; and then
the UI shows the peers of the map whenever no event is still to come. -/
theorem uiPeers_true_iff :
    (EachState step TellsTruth (start announceAddress knownPeers) actions ↔
      EachStep step SendsTruly (start announceAddress knownPeers) actions) ∧
    (EachStep step SendsTruly (start announceAddress knownPeers) actions →
      EachState step
        (fun hdp ↦ hdp.Settled → uiPeers hdp.node.events = hdp.node.peers.keys.toFinset)
        (start announceAddress knownPeers) actions) := by
  have hstart := tellsTruth_start announceAddress knownPeers
  have hiff : EachState step TellsTruth (start announceAddress knownPeers) actions ↔
      EachStep step SendsTruly (start announceAddress knownPeers) actions :=
    eachState_iff_eachStep hstart fun hdp action h ↦ tellsTruth_step_iff h
  exact ⟨hiff, fun h ↦ (hiff.mpr h).mono fun hdp ↦ TellsTruth.uiPeers_eq⟩

end Start

/-! ### Runs with one peer -/

/-- The address of a node without NAT. -/
def ownNoNat : AnnounceAddress := ⟨.noNat (.v4 0x7f000001 1000), "ownName"⟩

/-- A known peer without NAT. -/
def oneKnownPeer : AList fun _ : String ↦ PeerConnectionDetails :=
  AList.singleton "amberCloudYak" (.noNat (.v4 0x7f000001 2000))

/-- What dialling the known peer gives in the end. -/
def timedOut : Except UiServerError Connected :=
  .error (.connectionError "After connecting to amberCloudYak (attempt 20/20): TimedOut")

/-- The handshake of the connection that the known peer makes. -/
def connected : Except UiServerError Connected :=
  .ok ⟨1, "amberCloudYak", ⟨List.replicate 32 0, length_zeros⟩⟩

/-- A known peer connects, and its connection is lost. -/
def connectsAndLeaves : List Action :=
  [.runMainLoop (.incoming (.v4 0x7f000001 3000)), .runMainLoop (.handshake connected),
    .runTask 0 .ok, .runTask 0 .ok, .runTask 0 .ok, .runTask 0 .ok,
    .lose 1 .lost, .runTask 0 (.acceptError "timed out"), .runTask 0 .ok, .runTask 0 .ok]

theorem uiPeers_true_leaves :
    EachState step
      (fun hdp ↦ hdp.Settled → uiPeers hdp.node.events = hdp.node.peers.keys.toFinset)
      (start ownNoNat oneKnownPeer) connectsAndLeaves := by
  apply (uiPeers_true_iff ownNoNat oneKnownPeer connectsAndLeaves).2
  refine ⟨?_, ?_, ?_, ?_, ?_, ?_, trivial, ?_, ?_, ?_, trivial⟩
  · rintro name err h
    cases h
  · rintro name err h
    cases h
  · rintro task h
    cases h
    trivial
  · rintro task h
    cases h
    trivial
  · rintro task h
    cases h
    trivial
  · rintro task h
    cases h
    exact Or.inr (by decide)
  · rintro task h
    cases h
    trivial
  · rintro task h
    cases h
    trivial
  · rintro task h
    cases h
    exact Or.inr (by decide)

/-- While the node dials a known peer, the peer connects from another address; then the dial
fails. -/
def connectsWhileDialled : List Action :=
  [.runOutbound 0 timedOut, .runOutbound 0 timedOut, .runOutbound 0 timedOut,
    .runMainLoop (.incoming (.v4 0x7f000001 3000)), .runMainLoop (.handshake connected),
    .runTask 0 .ok, .runTask 0 .ok, .runTask 0 .ok, .runTask 0 .ok,
    .runOutbound 0 timedOut, .runOutbound 0 timedOut, .runOutbound 0 timedOut]

/-- A failed dial takes a connected peer out of the set of the UI. -/
theorem failed_dial_hides_peer :
    ¬∀ (announceAddress : AnnounceAddress)
        (knownPeers : AList fun _ : String ↦ PeerConnectionDetails) (actions : List Action),
      EachState step
        (fun hdp ↦ hdp.Settled → uiPeers hdp.node.events = hdp.node.peers.keys.toFinset)
        (start announceAddress knownPeers) actions := by
  intro hclaim
  have hfinal := (hclaim ownNoNat oneKnownPeer connectsWhileDialled).final
  have hsettled : (finalState step (start ownNoNat oneKnownPeer) connectsWhileDialled).Settled := by
    unfold Settled
    decide
  exact absurd (hfinal hsettled) (by decide)

end Hdp

end HarddriveParty
