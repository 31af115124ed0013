import HarddriveParty.Connections.KeepExisting
import HarddriveParty.Connections.Model

/-!
# Crossing connections

After a dropped link both nodes dial the other, as automatic reconnects use direct discovery.
`handle_connection` then runs for both connections at both nodes, and keeps the one that is
registered first at each node. The nodes refine two parties that keep their existing
connection, so they agree on a connection exactly when none closes a connection in favour of
one that the other node has closed.
-/

namespace HarddriveParty

open Runs HandleConnection KeepExisting TwoParties

/-- Two nodes that have each dialled the other. `conn x d` is the stable id at the node `x`
of the connection that the node `d` dialled, and `details x d` is what `x` knows of the
address of the other node when it handles that connection. -/
structure Crossing where
  conn : Side → Side → Nat
  conn_injective : ∀ x, Function.Injective (conn x)
  announceAddress : Side → AnnounceAddress
  publicKey : Side → PublicKey
  details : Side → Side → Option AnnounceAddress

/-- Whether the connection has been registered or closed as a duplicate. -/
def HandleConnection.Stage.processed : Stage → Bool
  | checkManual => false
  | register => false
  | _ => true

/-- A connection's task has got past its registration. -/
def Task.processed : Task → Bool
  | handleConnection _ stage => stage.processed
  | _ => true

namespace Crossing

variable (k : Crossing)

/-- The name of a node. -/
def name (x : Side) : String := (k.announceAddress x).name

/-- The call of `handle_connection` at `x` for the connection that `d` dialled. -/
def handle (x d : Side) : HandleConnection :=
  ⟨k.conn x d, decide (d ≠ x), k.details x d, k.name x.other, k.publicKey x.other⟩

/-- The index of the task for the connection that a node dialled. -/
def index : Side → Nat
  | .a => 0
  | .b => 1

/-- The node `x` is about to handle both connections and has none to the other node. -/
structure Start (x : Side) (r : Runtime) : Prop where
  tasks : r.tasks = [.handleConnection (k.handle x .a) .checkManual,
    .handleConnection (k.handle x .b) .checkManual]
  manual : k.name x.other ∉ r.node.manuallyDisconnectedPeers
  unregistered : r.node.peer? (k.name x.other) = none
  isOpen : ∀ d, r.node.closeReason (k.conn x d) = none

/-- A node runs a task, or the close of a connection by the other node takes effect. -/
inductive Action where
  | run (x : Side) (i : Nat) (answer : Answer)
  | deliver (x d : Side)

/-- The nodes after an action. -/
def step (s : Side → Runtime) : Action → Side → Runtime
  | .run x i answer => Function.update s x ((s x).step (.run i answer))
  | .deliver x d =>
    match (s x.other).node.closeReason (k.conn x.other d) with
    | some (.locallyClosed reason) =>
      Function.update s x ((s x).step (.lose (k.conn x d) (.applicationClosed reason)))
    | _ => s

/-- There is no other fault: a task stops accepting requests only on a closed connection. -/
def Faultless (s : Side → Runtime) : Action → Prop
  | .run x i (.acceptError _) => ∀ h, (s x).tasks[i]? = some (.handleConnection h .accept) →
      (s x).node.closeReason h.conn ≠ none
  | _ => True

/-- The node closes a new connection in favour of one that the other node has closed. -/
def ClosesBoth (s : Side → Runtime) : Action → Prop
  | .run x i _ => ∃ h peer d, (s x).tasks[i]? = some (.handleConnection h .register) ∧
      (s x).node.peer? h.peerName = some peer ∧ peer.connection = k.conn x d ∧
      (s x).node.closeReason (k.conn x d) = none ∧
      (s x.other).node.closeReason (k.conn x.other d) ≠ none
  | _ => False

/-- Both nodes have processed both connections, and all closes are delivered. -/
def Settled (s : Side → Runtime) : Prop :=
  (∀ x, ∀ task ∈ (s x).tasks, task.processed = true) ∧
    ∀ x y d, (s x).node.closeReason (k.conn x d) = none ↔
      (s y).node.closeReason (k.conn y d) = none

/-- One of the connections is open at both ends and registered at both nodes. -/
def Agree (s : Side → Runtime) : Prop :=
  ∃ d, ∀ x, (s x).node.closeReason (k.conn x d) = none ∧
    ∃ peer, (s x).node.peer? (k.name x.other) = some peer ∧ peer.connection = k.conn x d

/-! ### What a node knows of the connections -/

/-- The state of the node `x` is that of this party. -/
structure SeesNode (x : Side) (node : NodeState) (v : Party) : Prop where
  manual : k.name x.other ∉ node.manuallyDisconnectedPeers
  registered : (node.peer? (k.name x.other)).map (·.connection) = v.registered.map (k.conn x)
  closed : ∀ d, v.closed d = false ↔ node.closeReason (k.conn x d) = none

/-- The node `x` with its tasks is in the state of this party. -/
structure Sees (x : Side) (r : Runtime) (v : Party) : Prop where
  node : k.SeesNode x r.node v
  length : r.tasks.length = 2
  tasks : ∀ d, ∃ stage, r.tasks[index d]? = some (.handleConnection (k.handle x d) stage) ∧
    v.processed d = stage.processed ∧ ∀ err, stage = .cleanUp err → v.closed d = true

variable {k} {x d : Side} {node node' : NodeState} {v : Party} {answer : Answer}

theorem SeesNode.congr (h : k.SeesNode x node v)
    (hmanual : node'.manuallyDisconnectedPeers ⊆ node.manuallyDisconnectedPeers)
    (hpeer : (node'.peer? (k.name x.other)).map (·.connection) =
      (node.peer? (k.name x.other)).map (·.connection))
    (hclosed : node'.closeReason = node.closeReason) : k.SeesNode x node' v :=
  ⟨fun hmem ↦ h.manual (hmanual hmem), hpeer.trans h.registered, by simpa [hclosed] using h.closed⟩

/-- The entry for the other node is of the registered connection. -/
theorem SeesNode.peer_of_registered (h : k.SeesNode x node v) {e : Side}
    (he : v.registered = some e) :
    ∃ peer, node.peer? (k.name x.other) = some peer ∧ peer.connection = k.conn x e := by
  have hreg := h.registered
  rw [he] at hreg
  exact Option.map_eq_some_iff.mp hreg

/-- Without a registered connection there is no entry for the other node. -/
theorem SeesNode.peer_of_unregistered (h : k.SeesNode x node v) (hv : v.registered = none) :
    node.peer? (k.name x.other) = none := by
  have hreg := h.registered
  rw [hv] at hreg
  exact Option.map_eq_none_iff.mp hreg

private theorem closed_eq_true (h : k.SeesNode x node v) :
    v.closed d = true ↔ node.closeReason (k.conn x d) ≠ none := by
  rw [Ne, ← h.closed, Bool.not_eq_false]

private theorem SeesNode.enter (h : k.SeesNode x node v) :
    k.SeesNode x ((k.handle x d).enter node).1 (v.register d) := by
  refine ⟨h.manual, ?_, h.closed⟩
  simp [HandleConnection.enter, NodeState.peer?, handle, Party.register]

private theorem SeesNode.enter_replaced (h : k.SeesNode x node v) {e : Side}
    (he : v.closed e = true) (peers : AList fun _ : String ↦ Peer) (reason : String) :
    k.SeesNode x
      ((k.handle x d).enter (NodeState.close { node with peers := peers } (k.conn x e) reason)).1
      (v.register d) := by
  refine ⟨?_, ?_, fun f ↦ ?_⟩
  · simpa [HandleConnection.enter] using h.manual
  · simp [HandleConnection.enter, NodeState.peer?, handle, Party.register]
  · show v.closed f = false ↔ (NodeState.close _ _ _).closeReason _ = none
    rw [NodeState.close_closeReason_eq_none, (k.conn_injective x).ne_iff, h.closed]
    constructor
    · intro hf
      refine ⟨hf, ?_⟩
      rintro rfl
      exact (closed_eq_true h).mp he hf
    · exact And.left

private theorem SeesNode.reject (h : k.SeesNode x node v) (reason : String) :
    k.SeesNode x (node.close (k.conn x d) reason) (v.reject d) := by
  refine ⟨by simpa using h.manual, by simpa [Party.reject] using h.registered, fun f ↦ ?_⟩
  rw [NodeState.close_closeReason_eq_none, (k.conn_injective x).ne_iff, ← h.closed]
  by_cases hfd : f = d
  · simp [Party.reject, hfd]
  · simp [Party.reject, hfd]

/-- Registering a connection is processing it. -/
private theorem SeesNode.register (h : k.SeesNode x node v) :
    k.SeesNode x ((k.handle x d).register node).1 (v.process d) ∧
      ((k.handle x d).register node).2.processed = true ∧
      ∀ err, ((k.handle x d).register node).2 ≠ .cleanUp err := by
  have hname : (k.handle x d).peerName = k.name x.other := rfl
  unfold HandleConnection.register Party.process
  cases hv : v.registered with
  | none =>
    rw [hname, h.peer_of_unregistered hv]
    exact ⟨h.enter, rfl, fun _ heq ↦ by cases heq⟩
  | some e =>
    obtain ⟨peer, hpeer, hconn⟩ := h.peer_of_registered hv
    rw [hname, hpeer]
    cases he : v.closed e with
    | false =>
      simp only [hconn, he, (h.closed e).mp he, if_true, Bool.false_eq_true, if_false]
      exact ⟨h.reject _, rfl, fun _ heq ↦ by cases heq⟩
    | true =>
      simp only [hconn, he, (closed_eq_true h).mp he, if_true, if_false]
      exact ⟨h.enter_replaced he _ _, rfl, fun _ heq ↦ by cases heq⟩

/-- Cleaning up after a connection is forgetting it. -/
private theorem SeesNode.cleanUp (h : k.SeesNode x node v) (err : String) :
    k.SeesNode x ((k.handle x d).cleanUp node err).1 (v.cleanUp d) ∧
      ((k.handle x d).cleanUp node err).2.processed = true ∧
      ∀ err', ((k.handle x d).cleanUp node err).2 ≠ .cleanUp err' := by
  have hname : (k.handle x d).peerName = k.name x.other := rfl
  have hid : (k.handle x d).conn = k.conn x d := rfl
  unfold HandleConnection.cleanUp Party.cleanUp
  rw [hname, hid]
  cases hv : v.registered with
  | none =>
    rw [h.peer_of_unregistered hv]
    exact ⟨h, rfl, fun _ heq ↦ by cases heq⟩
  | some e =>
    obtain ⟨peer, hpeer, hconn⟩ := h.peer_of_registered hv
    rw [hpeer]
    by_cases hed : e = d
    · subst hed
      simp only [Option.filter, hconn, decide_true, if_true]
      refine ⟨⟨h.manual, ?_, h.closed⟩, rfl, fun _ heq ↦ by cases heq⟩
      simp [NodeState.peer?]
    · have hne : k.conn x e ≠ k.conn x d := fun heq ↦ hed (k.conn_injective x heq)
      simp only [Option.filter, hconn, hne, decide_false, Option.some.injEq, hed, if_false,
        Bool.false_eq_true]
      exact ⟨h, rfl, fun _ heq ↦ by cases heq⟩

/-! ### One step of a task -/

/-- Accepting a request changes no connection. -/
private theorem SeesNode.accept (h : k.SeesNode x node v) (hv : ∀ err, answer ≠ .acceptError err) :
    k.SeesNode x ((k.handle x d).accept node answer).1 v ∧
      ((k.handle x d).accept node answer).2 = .accept := by
  cases answer with
  | acceptError err => exact absurd rfl (hv err)
  | announcePeer address =>
    unfold HandleConnection.accept
    dsimp only
    split
    · refine ⟨h.congr subset_rfl ?_ rfl, rfl⟩
      unfold NodeState.peer?
      unfold HandleConnection.handleSelfAnnouncement
      dsimp only
      split
      · next peer hpeer =>
        have hpeer' : node.peers.lookup (k.name x.other) = some peer := hpeer
        simp [handle, hpeer']
      · rfl
    · exact ⟨h.congr subset_rfl rfl rfl, rfl⟩
  | _ => exact ⟨h, rfl⟩

/-- What a task does to the connections, when it is not registering its own. -/
private theorem next_of_processed {stage : Stage} (h : k.SeesNode x node v)
    (hstage : stage.processed = true) (hclean : ∀ err, stage = .cleanUp err → v.closed d = true)
    (hanswer : ∀ err, answer = .acceptError err → stage = .accept → v.closed d = true) :
    ∃ v', (v' = v ∨ v.closed d = true ∧ v' = v.cleanUp d) ∧
      k.SeesNode x ((k.handle x d).next node answer stage).1 v' ∧
      ((k.handle x d).next node answer stage).2.processed = true ∧
      ∀ err, ((k.handle x d).next node answer stage).2 = .cleanUp err → v'.closed d = true := by
  cases stage with
  | checkManual => cases hstage
  | register => cases hstage
  | clearManual connections announces =>
    exact ⟨v, .inl rfl, h.congr (Finset.erase_subset ..) rfl rfl, rfl, fun _ heq ↦ by cases heq⟩
  | greet connections announces =>
    exact ⟨v, .inl rfl, h.congr subset_rfl rfl rfl, rfl, fun _ heq ↦ by cases heq⟩
  | accept =>
    by_cases herr : ∃ err, answer = .acceptError err
    · obtain ⟨err, rfl⟩ := herr
      exact ⟨v, .inl rfl, h, rfl, fun _ _ ↦ hanswer err rfl rfl⟩
    · obtain ⟨haccept, hnext⟩ := h.accept (d := d) (not_exists.mp herr)
      refine ⟨v, .inl rfl, haccept, ?_, fun err heq ↦ ?_⟩
      · exact congrArg Stage.processed hnext
      · cases hnext.symm.trans heq
  | cleanUp err =>
    obtain ⟨hsees, hprocessed, hnext⟩ := h.cleanUp (d := d) err
    exact ⟨v.cleanUp d, .inr ⟨hclean err rfl, rfl⟩, hsees, hprocessed,
      fun err' heq ↦ absurd heq (hnext err')⟩
  | sayDisconnected err address =>
    exact ⟨v, .inl rfl, h.congr subset_rfl rfl rfl, rfl, fun _ heq ↦ by cases heq⟩
  | decideReconnect wasConnected address =>
    refine ⟨v, .inl rfl, ?_⟩
    show k.SeesNode x ((k.handle x d).decideReconnect node wasConnected address).1 v ∧
      ((k.handle x d).decideReconnect node wasConnected address).2.processed = true ∧
      ∀ err, ((k.handle x d).decideReconnect node wasConnected address).2 = .cleanUp err → _
    unfold decideReconnect
    split
    · exact ⟨h, rfl, fun _ heq ↦ by cases heq⟩
    split
    · exact ⟨h, rfl, fun _ heq ↦ by cases heq⟩
    · split <;> exact ⟨h, rfl, fun _ heq ↦ by cases heq⟩
  | reconnect address connect =>
    obtain ⟨_, _, hmanual, hnode⟩ := connect.next_node node answer address
    refine ⟨v, .inl rfl, ?_, rfl, fun _ heq ↦ by cases heq⟩
    rw [HandleConnection.next, hnode]
    exact h.congr hmanual rfl rfl
  | finished => exact ⟨v, .inl rfl, h, rfl, fun _ heq ↦ by cases heq⟩

/-! ### One step of the nodes -/

theorem index_injective : Function.Injective index := by
  intro d e h
  cases d <;> cases e <;> first | rfl | cases h

/-- A node whose task moves on is in the state of the next party. -/
private theorem Sees.set {r : Runtime} {v' : Party} {stage : Stage} (h : k.Sees x r v)
    (hnode : k.SeesNode x node v') (hprocessed : v'.processed d = stage.processed)
    (hother : ∀ f, f ≠ d → v'.processed f = v.processed f)
    (hclosed : ∀ f, v.closed f = true → v'.closed f = true)
    (hclean : ∀ err, stage = .cleanUp err → v'.closed d = true) :
    k.Sees x ⟨node, r.tasks.set (index d) (.handleConnection (k.handle x d) stage)⟩ v' := by
  refine ⟨hnode, by simpa using h.length, fun f ↦ ?_⟩
  by_cases hfd : f = d
  · subst hfd
    refine ⟨stage, List.getElem?_set_self ?_, hprocessed, hclean⟩
    rw [h.length]
    cases f <;> decide
  · obtain ⟨stage', htask, hproc, hclean'⟩ := h.tasks f
    refine ⟨stage', ?_, (hother f hfd).trans hproc, fun err herr ↦ hclosed f (hclean' err herr)⟩
    rwa [List.getElem?_set_ne (index_injective.ne (Ne.symm hfd))]

/-- Both nodes are in the states of these parties. -/
def Sim (k : Crossing) (s : Side → Runtime) (V : Side → Party) : Prop :=
  ∀ x, k.Sees x (s x) (V x)

variable {s : Side → Runtime} {V : Side → Party}

private theorem Sim.update {r : Runtime} (h : k.Sim s V) (hx : k.Sees x r v) :
    k.Sim (Function.update s x r) (Function.update V x v) := by
  intro y
  by_cases hyx : y = x
  · subst hyx
    simpa using hx
  · simpa [Function.update_of_ne hyx] using h y

private theorem Sim.update_left {r : Runtime} (h : k.Sim s V) (hx : k.Sees x r (V x)) :
    k.Sim (Function.update s x r) V := by
  have hupdate := h.update hx
  rwa [Function.update_eq_self] at hupdate

/-- A node closes both connections when its party does. -/
private theorem closesBoth_register {stage : Stage} (h : k.Sim s V)
    (htask : (s x).tasks[index d]? = some (.handleConnection (k.handle x d) stage)) :
    k.ClosesBoth s (.run x (index d) answer) ↔
      stage = .register ∧ (KeepExisting.Step.process x d).ClosesBoth V := by
  have hx := (h x).node
  constructor
  · rintro ⟨handle, peer, f, heq, hpeer, hconn, hlive, hclosed⟩
    rw [htask] at heq
    cases heq
    refine ⟨rfl, f, ?_, (hx.closed f).mpr hlive, (closed_eq_true (h x.other).node).mpr hclosed⟩
    have hpeer' : (s x).node.peer? (k.name x.other) = some peer := hpeer
    have hreg := hx.registered
    rw [hpeer'] at hreg
    obtain ⟨e, he, hconn'⟩ := Option.map_eq_some_iff.mp hreg.symm
    rwa [← k.conn_injective x (hconn'.trans hconn)]
  · rintro ⟨rfl, f, hreg, hlive, hclosed⟩
    obtain ⟨peer, hpeer, hconn⟩ := hx.peer_of_registered hreg
    exact ⟨_, peer, f, htask, hpeer, hconn, (hx.closed f).mp hlive,
      (closed_eq_true (h x.other).node).mp hclosed⟩

/-- A connection that passes the check has not been processed yet. -/
private theorem Sees.checkManual {r : Runtime} (h : k.Sees x r v)
    (hprocessed : v.processed d = false) :
    k.Sees x ⟨((k.handle x d).checkManual r.node).1, r.tasks.set (index d)
      (.handleConnection (k.handle x d) ((k.handle x d).checkManual r.node).2)⟩ v := by
  have hcheck : (k.handle x d).checkManual r.node = (r.node, .register) :=
    if_neg h.node.manual
  rw [hcheck]
  exact h.set h.node hprocessed (fun _ _ ↦ rfl) (fun _ ↦ id) (fun _ heq ↦ by cases heq)

/-- A connection that is registered or rejected has been processed. -/
private theorem Sees.register {r : Runtime} (h : k.Sees x r v) :
    k.Sees x ⟨((k.handle x d).register r.node).1, r.tasks.set (index d)
      (.handleConnection (k.handle x d) ((k.handle x d).register r.node).2)⟩ (v.process d) := by
  obtain ⟨hnode, hnext, hclean⟩ := h.node.register (d := d)
  apply h.set hnode
  · rw [Party.processed_process, Function.update_self]
    exact hnext.symm
  · intro f hfd
    rw [Party.processed_process, Function.update_of_ne hfd]
  · exact fun f ↦ Party.closed_process
  · exact fun err herr ↦ absurd herr (hclean err)

/-- The step of the parties that a step of a task is. -/
private theorem sim_run {stage : Stage} (h : k.Sim s V)
    (htask : (s x).tasks[index d]? = some (.handleConnection (k.handle x d) stage))
    (hanswer : Faultless s (.run x (index d) answer)) :
    ∃ b : KeepExisting.Step, b.Enabled V ∧
      k.Sim (k.step s (.run x (index d) answer)) (b.run V) ∧
      (k.ClosesBoth s (.run x (index d) answer) ↔ b.ClosesBoth V) := by
  have hx := h x
  obtain ⟨stage', htask', hprocessed, hclean⟩ := hx.tasks d
  rw [htask] at htask'
  cases htask'
  have hstep : k.step s (.run x (index d) answer) = Function.update s x
      ⟨((k.handle x d).next (s x).node answer stage).1, (s x).tasks.set (index d)
        (.handleConnection (k.handle x d) ((k.handle x d).next (s x).node answer stage).2)⟩ := by
    simp only [step, Runtime.step, Runtime.runTask, htask]
    rfl
  rw [hstep, closesBoth_register h htask]
  by_cases hregister : stage = .register
  · subst hregister
    exact ⟨.process x d, hprocessed, h.update hx.register, and_iff_right rfl⟩
  have hnot : stage = .register ∧ (KeepExisting.Step.process x d).ClosesBoth V ↔ False :=
    iff_of_false (fun hboth ↦ hregister hboth.1) id
  by_cases hcheck : stage = .checkManual
  · subst hcheck
    exact ⟨.stutter, trivial, h.update_left (hx.checkManual hprocessed), hnot⟩
  have hstage : stage.processed = true := by
    cases stage <;> first | rfl | contradiction
  have hacceptError : ∀ err, answer = .acceptError err → stage = .accept →
      (V x).closed d = true := by
    rintro err rfl rfl
    exact (closed_eq_true hx.node).mpr (hanswer _ htask)
  obtain ⟨v', hv', hnode, hnext, hclean'⟩ :=
    next_of_processed hx.node hstage hclean hacceptError
  cases hv' with
  | inl hsame =>
    subst hsame
    refine ⟨.stutter, trivial, h.update_left (hx.set hnode ?_ ?_ ?_ hclean'), hnot⟩
    · rw [hprocessed, hstage, hnext]
    · exact fun _ _ ↦ rfl
    · exact fun _ ↦ id
  | inr hforget =>
    obtain ⟨hclosed, rfl⟩ := hforget
    refine ⟨.cleanUp x d, hclosed, h.update (hx.set hnode ?_ ?_ ?_ hclean'), hnot⟩
    · rw [Party.processed_cleanUp, hprocessed, hstage, hnext]
    · simp
    · simp

/-- The close of a connection arrives at the party when it arrives at the node. -/
private theorem Sees.deliver {r : Runtime} (h : k.Sees x r v) (error : ConnectionError) :
    k.Sees x (r.step (.lose (k.conn x d) error)) (v.deliver d) := by
  refine ⟨⟨?_, ?_, fun f ↦ ?_⟩, h.length, fun f ↦ ?_⟩
  · simpa [Runtime.step] using h.node.manual
  · simpa [Runtime.step, Party.deliver] using h.node.registered
  · rw [Runtime.step, NodeState.setClosed_closeReason_eq_none, (k.conn_injective x).ne_iff,
      ← h.node.closed]
    by_cases hfd : f = d
    · simp [Party.deliver, hfd]
    · simp [Party.deliver, hfd]
  · obtain ⟨stage, htask, hprocessed, hclean⟩ := h.tasks f
    exact ⟨stage, htask, hprocessed, fun err herr ↦ Party.closed_deliver (hclean err herr)⟩

/-- Each step of the nodes is a step of the parties. -/
theorem sim_step {action : Action} (h : k.Sim s V) (haction : Faultless s action) :
    ∃ b : KeepExisting.Step, b.Enabled V ∧ k.Sim (k.step s action) (b.run V) ∧
      (¬k.ClosesBoth s action ↔ ¬b.ClosesBoth V) := by
  simp only [not_iff_not]
  cases action with
  | run x i answer =>
    by_cases hi : ∃ d, i = index d
    · obtain ⟨d, rfl⟩ := hi
      obtain ⟨stage, htask, -⟩ := (h x).tasks d
      exact sim_run h htask haction
    · have hnone : (s x).tasks[i]? = none := by
        rw [List.getElem?_eq_none_iff, (h x).length]
        by_contra hlt
        have hcases : i = 0 ∨ i = 1 := by omega
        cases hcases with
        | inl hzero => exact hi ⟨.a, hzero⟩
        | inr hone => exact hi ⟨.b, hone⟩
      refine ⟨.stutter, trivial, ?_, iff_of_false ?_ id⟩
      · apply h.update_left
        simpa [Runtime.step, Runtime.runTask, hnone] using h x
      · rintro ⟨handle, peer, d, htask, -⟩
        rw [hnone] at htask
        cases htask
  | deliver x d =>
    by_cases hreason : ∃ reason,
        (s x.other).node.closeReason (k.conn x.other d) = some (.locallyClosed reason)
    · obtain ⟨reason, hreason⟩ := hreason
      refine ⟨.deliver x d, ?_, ?_, Iff.rfl⟩
      · exact (closed_eq_true (h x.other).node).mpr (by simp [hreason])
      · simp only [step, hreason]
        exact h.update ((h x).deliver _)
    · refine ⟨.stutter, trivial, ?_, Iff.rfl⟩
      simp only [step]
      split
      · next reason heq => exact absurd ⟨reason, heq⟩ hreason
      · exact h

/-! ### When the nodes agree -/

private theorem Start.sees {r : Runtime} (h : k.Start x r) :
    k.Sees x r ⟨none, fun _ ↦ false, fun _ ↦ false⟩ := by
  refine ⟨⟨h.manual, ?_, ?_⟩, ?_, fun d ↦ ⟨.checkManual, ?_, rfl, fun _ heq ↦ by cases heq⟩⟩
  · rw [h.unregistered]
    rfl
  · simp [h.isOpen]
  · rw [h.tasks]
    rfl
  · rw [h.tasks]
    cases d <;> rfl

theorem Sim.settled (h : k.Sim s V) (hsettled : k.Settled s) : KeepExisting.Settled V := by
  constructor
  · intro x d
    obtain ⟨stage, htask, hprocessed, -⟩ := (h x).tasks d
    rw [hprocessed]
    exact hsettled.1 x _ (List.mem_of_getElem? htask)
  · intro x y d
    rw [Bool.eq_iff_iff, closed_eq_true (h x).node, closed_eq_true (h y).node]
    exact not_congr (hsettled.2 x y d)

theorem Sim.agree_iff (h : k.Sim s V) : k.Agree s ↔ KeepExisting.Agree V := by
  apply exists_congr
  intro d
  apply forall_congr'
  intro x
  rw [(h x).node.closed]
  apply and_congr_right
  intro _
  constructor
  · rintro ⟨peer, hpeer, hconn⟩
    have hreg := (h x).node.registered
    rw [hpeer] at hreg
    obtain ⟨e, he, hconn'⟩ := Option.map_eq_some_iff.mp hreg.symm
    rwa [← k.conn_injective x (hconn'.trans hconn)]
  · exact (h x).node.peer_of_registered

/-- After both nodes have processed both connections and all closes are delivered, the nodes
have the same open connection registered exactly when no node closed a new connection in
favour of one that the other node had closed. -/
theorem nodes_agree_iff (k : Crossing) (s : Side → Runtime) (actions : List Action)
    (hstart : ∀ x, k.Start x (s x)) (hfaultless : EachStep k.step Faultless s actions)
    (hsettled : k.Settled (finalState k.step s actions)) :
    k.Agree (finalState k.step s actions) ↔
      EachStep k.step (fun s action ↦ ¬k.ClosesBoth s action) s actions := by
  have hsim : k.Sim s fun _ ↦ ⟨none, fun _ ↦ false, fun _ ↦ false⟩ := fun x ↦ (hstart x).sees
  obtain ⟨steps, henabled, hfinal, hboth⟩ :=
    simulation (P := fun s action ↦ ¬k.ClosesBoth s action) hsim hfaultless
      fun s V action hR hA ↦ sim_step hR hA
  rw [hfinal.agree_iff, hboth]
  apply KeepExisting.agree_iff _ henabled (hfinal.settled hsettled)
  exact fun _ ↦ ⟨fun _ ↦ rfl, .inl ⟨rfl, fun _ ↦ rfl⟩⟩

/-! ### Runs of two nodes -/

/-- A node that has just started and is called for both connections. -/
def dialled (x : Side) : Runtime :=
  finalState Runtime.step (.initial (k.announceAddress x))
    [.call (.handleConnection (k.handle x .a)), .call (.handleConnection (k.handle x .b))]

theorem start_dialled (x : Side) : k.Start x (k.dialled x) :=
  ⟨rfl, (fun heq ↦ by cases heq), rfl, fun _ ↦ rfl⟩

/-- Two nodes without NAT that dialled each other. -/
def twoNodes : Crossing where
  conn _ := index
  conn_injective _ := index_injective
  announceAddress
    | .a => ⟨.noNat (.v4 0x7f000001 1000), "amberCloudYak"⟩
    | .b => ⟨.noNat (.v4 0x7f000001 2000), "jadeRiverFox"⟩
  publicKey _ := ⟨List.replicate 32 0, length_zeros⟩
  details _ _ := none

/-- Both nodes first handle the connection that `a` dialled. -/
def sameOrder : List Action :=
  [.run .a 0 .ok, .run .a 0 .ok, .run .b 0 .ok, .run .b 0 .ok,
    .run .a 1 .ok, .run .a 1 .ok, .run .b 1 .ok, .run .b 1 .ok]

/-- Each node first handles the connection that it dialled itself. -/
def ownFirst : List Action :=
  [.run .a 0 .ok, .run .a 0 .ok, .run .b 1 .ok, .run .b 1 .ok,
    .run .a 1 .ok, .run .a 1 .ok, .run .b 0 .ok, .run .b 0 .ok,
    .deliver .a .a, .deliver .b .b]

theorem nodes_agree_sameOrder :
    twoNodes.Agree (finalState twoNodes.step twoNodes.dialled sameOrder) ↔
      EachStep twoNodes.step (fun s action ↦ ¬twoNodes.ClosesBoth s action)
        twoNodes.dialled sameOrder := by
  apply nodes_agree_iff
  · exact twoNodes.start_dialled
  · simp [sameOrder, EachStep, Faultless]
  · constructor
    · intro x
      cases x <;> decide
    · intro x y d
      cases x <;> cases y <;> cases d <;> decide

/-- When each node first handles its own connection, both connections are closed. -/
theorem own_connection_first_disagrees :
    ¬∀ (k : Crossing) (s : Side → Runtime) (actions : List Action),
      (∀ x, k.Start x (s x)) → EachStep k.step Faultless s actions →
        k.Settled (finalState k.step s actions) → k.Agree (finalState k.step s actions) := by
  intro hclaim
  have hsettled : twoNodes.Settled (finalState twoNodes.step twoNodes.dialled ownFirst) := by
    constructor
    · intro x
      cases x <;> decide
    · intro x y d
      cases x <;> cases y <;> cases d <;> decide
  obtain ⟨d, hagree⟩ := hclaim twoNodes twoNodes.dialled ownFirst twoNodes.start_dialled
    (by simp [ownFirst, EachStep, Faultless]) hsettled
  cases d with
  | a => exact absurd (hagree .a).1 (by decide)
  | b => exact absurd (hagree .a).1 (by decide)

end Crossing

end HarddriveParty
