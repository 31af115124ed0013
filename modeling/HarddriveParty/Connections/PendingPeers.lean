import HarddriveParty.Base.Runs
import HarddriveParty.Connections.Hdp
import HarddriveParty.Connections.PeerMap

/-!
# Peers that the node waits for

`handle_peer_announcement` keeps an announced peer that is to connect to the node under the
address from which the connection should come. It finds the peer again exactly when this is the
address that the peer has announced, and no other peer is expected there. A node without NAT
keeps a peer behind a NAT under its own address instead.
-/

namespace HarddriveParty

/-- The address at which the node waits for a peer, by the NAT types of both. -/
inductive WaitsAt (holePuncher : Option HolePuncher) :
    PeerConnectionDetails → PeerConnectionDetails → SocketAddr → Prop where
  | punched {ours addr : SocketAddr} {remoteIp : IpAddr} {puncher : HolePuncher}
      (hpuncher : holePuncher = some puncher)
      (hfound : puncher.holePunchPeerWithoutPort remoteIp = .ok addr) :
      WaitsAt holePuncher (.asymmetric ours) (.symmetric remoteIp) addr
  | own (ours : SocketAddr) (remoteIp : IpAddr) :
      WaitsAt holePuncher (.noNat ours) (.symmetric remoteIp) ours
  | asymmetric (ours addr : SocketAddr) :
      WaitsAt holePuncher (.asymmetric ours) (.asymmetric addr) addr
  | ownForAsymmetric (ours addr : SocketAddr) :
      WaitsAt holePuncher (.noNat ours) (.asymmetric addr) ours
  | noNat (ours addr : SocketAddr) : WaitsAt holePuncher (.noNat ours) (.noNat addr) addr

/-- A step whose error is mapped goes well exactly when it and what follows it do. -/
theorem mapError_bind_eq_ok_iff {ε ε' α β : Type} {x : Except ε α} {f : ε → ε'}
    {next : α → Except ε' β} {b : β} :
    ((x.mapError f).bind next) = .ok b ↔ ∃ a, x = .ok a ∧ next a = .ok b := by
  cases x with
  | error e => simp [Except.mapError, Except.bind]
  | ok a => simp [Except.mapError, Except.bind]

/-- When `handle_peer` waits for the peer, it does so at this address. -/
theorem waitsAt_of_handlePeer {sockets : Sockets} {holePuncher : Option HolePuncher}
    {localDetails : PeerConnectionDetails} {announceAddress : AnnounceAddress}
    {discoveryMethod : DiscoveryMethod} {addr : SocketAddr}
    (h : handlePeer sockets holePuncher localDetails announceAddress discoveryMethod =
      .ok (none, addr)) :
    WaitsAt holePuncher localDetails announceAddress.connectionDetails addr := by
  unfold handlePeer at h
  cases hremote : announceAddress.connectionDetails with
  | symmetric remoteIp =>
    simp only [hremote] at h
    cases localDetails with
    | symmetric ip => cases h
    | asymmetric ours =>
      cases holePuncher with
      | none => cases h
      | some puncher =>
        obtain ⟨found, hfound, hwait⟩ := mapError_bind_eq_ok_iff.mp h
        cases hwait
        exact .punched rfl hfound
    | noNat ours =>
      cases h
      exact .own addr remoteIp
  | asymmetric remote =>
    simp only [hremote] at h
    cases localDetails with
    | symmetric ip =>
      obtain ⟨found, -, hwait⟩ := mapError_bind_eq_ok_iff.mp h
      cases hwait
    | asymmetric ours =>
      cases holePuncher with
      | none => cases h
      | some puncher =>
        -- the addresses are compared after the hole punch, if there is one
        have hpair : (if remote < ours then
            (some (⟨remote, none, discoveryMethod, announceAddress⟩ : DiscoveredPeer), remote)
          else (none, remote)) = (none, addr) := by
          by_cases hip : ours.ip ≠ remote.ip
          · simp only [if_pos hip] at h
            obtain ⟨u, -, hwait⟩ := mapError_bind_eq_ok_iff.mp h
            injection hwait
          · simp only [if_neg hip] at h
            injection h
        split at hpair
        · cases hpair
        · cases hpair
          exact .asymmetric ours addr
    | noNat ours =>
      cases h
      exact .ownForAsymmetric addr remote
  | noNat remote =>
    simp only [hremote] at h
    cases localDetails with
    | symmetric ip =>
      obtain ⟨socket, -, hwait⟩ := mapError_bind_eq_ok_iff.mp h
      cases hwait
    | asymmetric ours => cases h
    | noNat ours =>
      simp only at h
      split at h
      · cases h
      · cases h
        exact .noNat ours addr

/-- The address at which the node waits for a peer is the one that the peer has announced, unless
the node keeps a peer behind a NAT under an address of its own. -/
theorem waitsAt_announced_iff {holePuncher : Option HolePuncher}
    {localDetails remoteDetails : PeerConnectionDetails} {addr remote : SocketAddr}
    (h : WaitsAt holePuncher localDetails remoteDetails addr)
    (hremote : remoteDetails.socketAddress? = some remote) :
    addr = remote ↔ ∀ ours, localDetails = .noNat ours → remoteDetails = .asymmetric remote →
      ours = remote := by
  cases h with
  | punched hpuncher hfound => cases hremote
  | own ours remoteIp => cases hremote
  | asymmetric ours addr =>
    cases hremote
    exact iff_of_true rfl (fun _ heq ↦ by cases heq)
  | ownForAsymmetric ours announced =>
    cases hremote
    constructor
    · rintro rfl ours hours -
      cases hours
      rfl
    · exact fun hours ↦ hours addr rfl rfl
  | noNat ours addr =>
    cases hremote
    exact iff_of_true rfl (fun _ _ heq ↦ by cases heq)

/-! ### The peers that a node waits for -/

namespace Hdp

/-- The peer for which a step makes the node wait, with how it was found, and the address from
which it will connect: the one that it has announced, or else the one at which the node waits. -/
def waitsFor (hdp : Hdp) : Action → Option (SocketAddr × DiscoveryMethod × AnnounceAddress)
  | .runAnnouncement sockets holePuncher =>
    match hdp.peerAnnouncement with
    | .handlePeer peerConnect =>
      match handlePeer sockets (if hdp.hasEndpoint then some holePuncher else none)
          hdp.node.announceAddress.connectionDetails peerConnect.announceAddress
          peerConnect.discoveryMethod with
      | .ok (none, addr) =>
        some (peerConnect.announceAddress.connectionDetails.socketAddress?.getD addr,
          peerConnect.discoveryMethod, peerConnect.announceAddress)
      | _ => none
    | _ => none
  | _ => none

/-- The address of a connection for which a step looks for the pending peer. -/
def looksUp (hdp : Hdp) : Action → Option SocketAddr
  | .runMainLoop (.incoming remoteAddress) =>
    match hdp.mainLoop with
    | .select => if hdp.hasEndpoint then some remoteAddress else none
    | _ => none
  | _ => none

variable {hdp : Hdp} {a : Action}

/-- A peer for which the node is to wait is kept under the address at which it waits. -/
theorem pending_of_waitsFor {source : SocketAddr} {entry : DiscoveryMethod × AnnounceAddress}
    (h : hdp.waitsFor a = some (source, entry)) :
    ∃ sockets holePuncher addr, a = .runAnnouncement sockets holePuncher ∧
      source = entry.2.connectionDetails.socketAddress?.getD addr ∧
      WaitsAt (if hdp.hasEndpoint then some holePuncher else none)
        hdp.node.announceAddress.connectionDetails entry.2.connectionDetails addr ∧
      (hdp.step a).pendingPeerConnections = hdp.pendingPeerConnections.insert addr entry := by
  unfold waitsFor at h
  split at h
  · next sockets holePuncher =>
    split at h
    · next peerConnect hat =>
      split at h
      · next addr hwait =>
        cases h
        refine ⟨sockets, holePuncher, addr, rfl, rfl, waitsAt_of_handlePeer hwait, ?_⟩
        simp only [step, runAnnouncement, hat, hwait]
      · cases h
    · cases h
  · cases h

/-- A peer that is found is pending no longer. -/
theorem pending_of_looksUp {addr : SocketAddr} (h : hdp.looksUp a = some addr) :
    (hdp.step a).pendingPeerConnections = hdp.pendingPeerConnections.erase addr := by
  unfold looksUp at h
  split at h
  · next remoteAddress =>
    split at h
    · next hselect =>
      split at h
      · next hendpoint =>
        cases h
        simp only [step, runMainLoop, hselect, if_pos hendpoint]
      · cases h
    · cases h
  · cases h

/-- The other steps leave the pending peers as they are. -/
theorem pending_of_none (hwaits : hdp.waitsFor a = none) (hlooks : hdp.looksUp a = none) :
    (hdp.step a).pendingPeerConnections = hdp.pendingPeerConnections := by
  cases a with
  | runOutbound i result =>
    simp only [step, runOutbound]
    split <;> rfl
  | runMainLoop input =>
    simp only [step, runMainLoop]
    split
    · next remoteAddress hselect =>
      simp only [looksUp, hselect] at hlooks
      split
      · next hendpoint => simp [hendpoint] at hlooks
      · rfl
    · split <;> rfl
    · split <;> rfl
    · split <;> rfl
    · rfl
    · rfl
    · rfl
  | runAnnouncement sockets holePuncher =>
    simp only [step, runAnnouncement]
    split
    · split <;> rfl
    · rfl
    · next peerConnect hat =>
      simp only [waitsFor, hat] at hwaits
      split
      · rfl
      · rfl
      · next addr hwait =>
        rw [hwait] at hwaits
        cases hwaits
  | _ => rfl

/-- No step of the task of a connection changes what the node announces of itself. -/
private theorem handleConnection_announceAddress (h : HandleConnection) (node : NodeState)
    (answer : Answer) (stage : HandleConnection.Stage) :
    (h.next node answer stage).1.announceAddress = node.announceAddress := by
  cases stage with
  | checkManual =>
    simp only [HandleConnection.next, HandleConnection.checkManual]
    split
    · rw [NodeState.close_toSharedState]
    · rfl
  | register =>
    simp only [HandleConnection.next, HandleConnection.register]
    split
    · split
      · rw [NodeState.close_toSharedState]
      · simp only [HandleConnection.enter, NodeState.close_toSharedState]
    · rfl
  | accept =>
    cases answer with
    | announcePeer address =>
      simp only [HandleConnection.next, HandleConnection.accept]
      split <;> rfl
    | _ => rfl
  | cleanUp err =>
    simp only [HandleConnection.next, HandleConnection.cleanUp]
    split <;> rfl
  | decideReconnect wasConnected address =>
    simp only [HandleConnection.next, HandleConnection.decideReconnect]
    split
    · rfl
    · split
      · rfl
      · split <;> rfl
  | reconnect address connect =>
    obtain ⟨_, _, -, hnode⟩ := connect.next_node node answer address
    simp only [HandleConnection.next, hnode]
  | _ => rfl

/-- Nor does a step of any other task. -/
private theorem task_announceAddress (task : Task) (node : NodeState) (answer : Answer) :
    (task.next node answer).1.announceAddress = node.announceAddress := by
  cases task with
  | handleConnection h stage => exact handleConnection_announceAddress h node answer stage
  | connectToPeer address connect =>
    obtain ⟨_, _, -, hnode⟩ := connect.next_node node answer address
    simp only [Task.next, hnode]
  | disconnectPeer name disconnect =>
    cases disconnect with
    | lookUp =>
      simp only [Task.next, DisconnectPeer.next]
      split <;> rfl
    | mark connection => simp only [Task.next, DisconnectPeer.next, NodeState.close_toSharedState]
    | returned result => rfl

/-- No step changes what the node announces of itself. -/
theorem step_announceAddress (hdp : Hdp) (a : Action) :
    (hdp.step a).node.announceAddress = hdp.node.announceAddress := by
  cases a with
  | runTask i answer =>
    simp only [step, stepRuntime, Runtime.step, Runtime.runTask]
    split
    · rfl
    · exact task_announceAddress _ _ _
  | lose conn error =>
    exact congrArg (·.announceAddress) (NodeState.setClosed_toSharedState _ conn error)
  | runOutbound i result =>
    obtain ⟨pending, events, hnode, -⟩ := hdp.runOutbound_node i result
    rw [step, hnode]
  | runMainLoop input => rw [step, (hdp.runMainLoop_node input).1]
  | runAnnouncement sockets holePuncher =>
    rcases hdp.runAnnouncement_node sockets holePuncher with hnode | ⟨peerConnect, -, -, hnode⟩
    · rw [step, hnode]
    · rw [step, hnode]
      rfl
  | _ => rfl

end Hdp

/-! ### Runs -/

/-- A node, and the peers that it waits for, each with how it was announced last and the address
from which it will connect. -/
structure Expecting where
  hdp : Hdp
  expected : List (SocketAddr × DiscoveryMethod × AnnounceAddress)

namespace Expecting

/-- The node after an action. It waits for a peer from its announcement on until a connection
comes from the address from which the peer will connect. -/
def step (w : Expecting) (a : Hdp.Action) : Expecting where
  hdp := w.hdp.step a
  expected :=
    match w.hdp.waitsFor a, w.hdp.looksUp a with
    | some (source, entry), _ =>
      w.expected.filter (fun e ↦ e.2.2 ≠ entry.2) ++ [(source, entry)]
    | none, some addr => w.expected.filter fun e ↦ e.1 ≠ addr
    | none, none => w.expected

/-- Every peer that the node waits for is what `get_pending_peer` finds for the address from
which the peer will connect. -/
def Found (w : Expecting) : Prop :=
  ∀ e ∈ w.expected, w.hdp.pendingPeerConnections.lookup e.1 = some e.2

/-- No other peer is expected from the address. -/
def Free (w : Expecting) (addr : SocketAddr) (peer : AnnounceAddress) : Prop :=
  ∀ e ∈ w.expected, e.1 = addr → e.2.2 = peer

/-- A peer for which a node with these details is to wait gets in the way of no other, and when
it is behind an asymmetric NAT and the node behind none, it has announced the address of the
node. -/
def KeepsApartFrom (w : Expecting) (holePuncher : HolePuncher) (peer : AnnounceAddress) :
    PeerConnectionDetails → PeerConnectionDetails → Prop
  | .noNat ours, .asymmetric addr => ours = addr ∧ w.Free addr peer
  | .noNat ours, .symmetric _ => w.Free ours peer
  | _, .symmetric remoteIp => ∀ addr,
    holePuncher.holePunchPeerWithoutPort remoteIp = .ok addr → w.Free addr peer
  | _, .asymmetric addr | _, .noNat addr => w.Free addr peer

/-- A step makes the node wait only for a peer that is kept apart from the others. -/
def KeepsApart (w : Expecting) : Hdp.Action → Prop
  | .runAnnouncement sockets holePuncher =>
    ∀ source entry, w.hdp.waitsFor (.runAnnouncement sockets holePuncher) = some (source, entry) →
      w.KeepsApartFrom holePuncher entry.2 w.hdp.node.announceAddress.connectionDetails
        entry.2.connectionDetails
  | _ => True

/-- A node without NAT keeps peers behind asymmetric NATs under its own address. -/
def OwnKey (w : Expecting) : Prop :=
  ∀ addr entry, w.hdp.pendingPeerConnections.lookup addr = some entry →
    ∀ ours remote, w.hdp.node.announceAddress.connectionDetails = .noNat ours →
      entry.2.connectionDetails = .asymmetric remote → addr = ours

variable {w : Expecting} {a : Hdp.Action}

/-- A step keeps peers behind asymmetric NATs under the address of the node. -/
theorem OwnKey.step (h : w.OwnKey) (a : Hdp.Action) : (w.step a).OwnKey := by
  intro addr entry hentry ours remote hours hremote
  replace hours : w.hdp.node.announceAddress.connectionDetails = .noNat ours :=
    (congrArg (·.connectionDetails) (Hdp.step_announceAddress w.hdp a)).symm.trans hours
  replace hentry : (w.hdp.step a).pendingPeerConnections.lookup addr = some entry := hentry
  cases hwaits : w.hdp.waitsFor a with
  | some waits =>
    obtain ⟨sockets, holePuncher, addr', -, -, hat, hpending⟩ := Hdp.pending_of_waitsFor hwaits
    rw [hpending] at hentry
    by_cases heq : addr = addr'
    · subst heq
      rw [AList.lookup_insert] at hentry
      cases hentry
      rw [hours, hremote] at hat
      cases hat
      rfl
    · rw [AList.lookup_insert_ne heq] at hentry
      exact h addr entry hentry ours remote hours hremote
  | none =>
    cases hlooks : w.hdp.looksUp a with
    | some addr' =>
      rw [Hdp.pending_of_looksUp hlooks] at hentry
      by_cases heq : addr = addr'
      · rw [heq, AList.lookup_erase] at hentry
        cases hentry
      · rw [AList.lookup_erase_ne heq] at hentry
        exact h addr entry hentry ours remote hours hremote
    | none =>
      rw [Hdp.pending_of_none hwaits hlooks] at hentry
      exact h addr entry hentry ours remote hours hremote

/-- When a connection comes in, the other peers are still found. -/
private theorem found_of_not_waits (h : w.Found) (hwaits : w.hdp.waitsFor a = none) :
    (w.step a).Found := by
  unfold Found step
  rw [hwaits]
  cases hlooks : w.hdp.looksUp a with
  | some addr =>
    simp only
    intro e he
    obtain ⟨he, hne⟩ := List.mem_filter.mp he
    rw [Hdp.pending_of_looksUp hlooks, AList.lookup_erase_ne (of_decide_eq_true hne)]
    exact h e he
  | none =>
    simp only
    rw [Hdp.pending_of_none hwaits hlooks]
    exact h

/-- A peer that is kept under the address from which it will connect is found, and the others are
as long as none of them is expected from there. -/
private theorem found_insert {entry : DiscoveryMethod × AnnounceAddress} {addr : SocketAddr}
    (h : w.Found) (hwaits : w.hdp.waitsFor a = some (addr, entry))
    (hpending : (w.hdp.step a).pendingPeerConnections =
      w.hdp.pendingPeerConnections.insert addr entry) :
    (w.step a).Found ↔ w.Free addr entry.2 := by
  unfold Found step
  rw [hwaits]
  simp only
  rw [hpending]
  constructor
  · intro hfound e he haddr
    by_contra hne
    have hmem : e ∈ w.expected.filter (fun e ↦ e.2.2 ≠ entry.2) ++ [(addr, entry)] :=
      List.mem_append_left _ (List.mem_filter.mpr ⟨he, decide_eq_true hne⟩)
    have hlookup := hfound e hmem
    rw [haddr, AList.lookup_insert] at hlookup
    injection hlookup with heq
    exact hne (congrArg Prod.snd heq).symm
  · intro hfree e he
    rcases List.mem_append.mp he with he | he
    · obtain ⟨he, hne⟩ := List.mem_filter.mp he
      have hother : e.1 ≠ addr := fun heq ↦ of_decide_eq_true hne (hfree e he heq)
      rw [AList.lookup_insert_ne hother]
      exact h e he
    · rw [List.mem_singleton.mp he, AList.lookup_insert]

/-- A peer that is kept under another address than the announced one is not found. -/
private theorem not_found_insert {entry : DiscoveryMethod × AnnounceAddress}
    {ours remote : SocketAddr} (h : w.OwnKey) (hwaits : w.hdp.waitsFor a = some (remote, entry))
    (hpending : (w.hdp.step a).pendingPeerConnections =
      w.hdp.pendingPeerConnections.insert ours entry)
    (hours : w.hdp.node.announceAddress.connectionDetails = .noNat ours)
    (hremote : entry.2.connectionDetails = .asymmetric remote) (hne : ours ≠ remote) :
    ¬ (w.step a).Found := by
  unfold Found step
  rw [hwaits]
  simp only
  rw [hpending]
  intro hfound
  have hlookup := hfound (remote, entry) (by simp)
  rw [AList.lookup_insert_ne hne.symm] at hlookup
  exact hne (h remote entry hlookup ours remote hours hremote).symm

/-- A step finds all peers again exactly when it keeps them apart. -/
theorem found_step (h : w.Found) (hown : w.OwnKey) : (w.step a).Found ↔ w.KeepsApart a := by
  cases hwaits : w.hdp.waitsFor a with
  | none =>
    apply iff_of_true (found_of_not_waits h hwaits)
    cases a with
    | runAnnouncement sockets holePuncher =>
      intro source entry hentry
      rw [hwaits] at hentry
      cases hentry
    | _ => trivial
  | some waits =>
    obtain ⟨source, entry⟩ := waits
    obtain ⟨sockets, holePuncher, addr, rfl, hsource, hat, hpending⟩ :=
      Hdp.pending_of_waitsFor hwaits
    have hkeeps : w.KeepsApart (.runAnnouncement sockets holePuncher) ↔
        w.KeepsApartFrom holePuncher entry.2 w.hdp.node.announceAddress.connectionDetails
          entry.2.connectionDetails := by
      constructor
      · exact fun hall ↦ hall source entry hwaits
      · rintro hentry source' entry' hwaits'
        rw [hwaits] at hwaits'
        cases hwaits'
        exact hentry
    rw [hkeeps]
    generalize hours : w.hdp.node.announceAddress.connectionDetails = localDetails at hat ⊢
    generalize hremote : entry.2.connectionDetails = remoteDetails at hat hsource ⊢
    cases hat with
    | punched hpuncher hfound =>
      obtain rfl : source = addr := hsource
      rw [found_insert h hwaits hpending]
      split at hpuncher
      · cases hpuncher
        constructor
        · rintro hfree addr' hfound'
          rw [hfound] at hfound'
          cases hfound'
          exact hfree
        · exact fun hall ↦ hall source hfound
      · cases hpuncher
    | own ours remoteIp =>
      obtain rfl : source = addr := hsource
      exact found_insert h hwaits hpending
    | asymmetric ours addr =>
      obtain rfl : source = addr := hsource
      exact found_insert h hwaits hpending
    | noNat ours addr =>
      obtain rfl : source = addr := hsource
      exact found_insert h hwaits hpending
    | ownForAsymmetric ours remote =>
      obtain rfl : source = remote := hsource
      by_cases heq : addr = source
      · subst heq
        rw [found_insert h hwaits hpending]
        exact (and_iff_right rfl).symm
      · exact iff_of_false (not_found_insert hown hwaits hpending hours hremote heq)
          fun hboth ↦ heq hboth.1

/-- A node that waits for no peer. -/
def start (announceAddress : AnnounceAddress)
    (knownPeers : AList fun _ : String ↦ PeerConnectionDetails) : Expecting :=
  ⟨.start announceAddress knownPeers, []⟩

/-- Nothing comes through to the node. -/
def nothingComes : HolePuncher := ⟨fun _ ↦ .ok (), fun _ ↦ .error ""⟩

/-- The user connects to a peer, and the discovery task handles its announcement. -/
def announced (i : Nat) (peer : AnnounceAddress) : List Hdp.Action :=
  let sockets : Sockets := ⟨fun _ ↦ .error "", .error ""⟩
  [.connectToPeer peer, .runTask i .ok, .runTask i .ok, .runAnnouncement sockets nothingComes,
    .runAnnouncement sockets nothingComes, .runAnnouncement sockets nothingComes]

/-- When a node waits for a peer that has announced a socket address, it waits at this address
exactly when the peer has no asymmetric NAT, or the node has one, or the peer has announced the
address of the node. In a run of a node all peers that it waits for are found under the addresses
that they have announced exactly when every one of them is kept apart from the others. -/
theorem pending_peers_found_iff (announceAddress : AnnounceAddress)
    (knownPeers : AList fun _ : String ↦ PeerConnectionDetails) (actions : List Hdp.Action) :
    (∀ sockets holePuncher localDetails remote discoveryMethod addr announced,
      handlePeer sockets holePuncher localDetails remote discoveryMethod = .ok (none, addr) →
      remote.connectionDetails.socketAddress? = some announced →
      (addr = announced ↔ ∀ ours, localDetails = .noNat ours →
        remote.connectionDetails = .asymmetric announced → ours = announced)) ∧
    (Runs.EachState step Found (start announceAddress knownPeers) actions ↔
      Runs.EachStep step KeepsApart (start announceAddress knownPeers) actions) := by
  constructor
  · intro sockets holePuncher localDetails remote discoveryMethod addr announced h hremote
    exact waitsAt_announced_iff (waitsAt_of_handlePeer h) hremote
  · have hfound : (start announceAddress knownPeers).Found := fun _ heq ↦ by cases heq
    have hown : (start announceAddress knownPeers).OwnKey := by
      intro addr entry hentry
      cases hentry
    have hfree : Runs.EachStep step (fun _ _ ↦ True) (start announceAddress knownPeers) actions :=
      Runs.eachStep_of_forall fun _ _ ↦ trivial
    rw [Runs.eachState_iff, and_iff_right hfound]
    apply Runs.eachStep_iff (I := fun w ↦ w.Found ∧ w.OwnKey) ⟨hfound, hown⟩ hfree
    · exact fun w a hw _ ↦ found_step hw.1 hw.2
    · exact fun w a hw _ hnext ↦ ⟨hnext, hw.2.step a⟩

/-- A peer is kept under its announced address when both sides are behind asymmetric NATs. -/
theorem pending_peers_found_asymmetric :
    Runs.EachState step Found (start ⟨.asymmetric (.v4 1 1), "own"⟩ ∅)
      (announced 0 ⟨.asymmetric (.v4 2 2), "peer"⟩) := by
  refine (pending_peers_found_iff ⟨.asymmetric (.v4 1 1), "own"⟩ ∅
    (announced 0 ⟨.asymmetric (.v4 2 2), "peer"⟩)).2.mpr ⟨trivial, trivial, trivial, ?_, ?_, ?_,
      trivial⟩
  · intro source entry hwaits
    cases hwaits
  · intro source entry hwaits
    cases hwaits
  · intro source entry hwaits
    cases hwaits
    intro _ heq
    cases heq

/-- Of two peers behind asymmetric NATs that a node without NAT waits for, both are kept under the
address of the node: the second one takes the place of the first, and neither is found under the
address that it has announced. -/
theorem pending_peers_overwritten :
    let first : AnnounceAddress := ⟨.asymmetric (.v4 2 2), "first"⟩
    let second : AnnounceAddress := ⟨.asymmetric (.v4 3 3), "second"⟩
    let w := Runs.finalState step (start ⟨.noNat (.v4 1 1), "own"⟩ ∅)
      (announced 0 first ++ announced 1 second)
    handlePeer ⟨fun _ ↦ .error "", .error ""⟩ (some nothingComes) (.noNat (.v4 1 1)) first
        .direct = .ok (none, .v4 1 1) ∧
      w.hdp.pendingPeerConnections.lookup (.v4 2 2) = none ∧
      w.hdp.pendingPeerConnections.lookup (.v4 3 3) = none ∧
      w.hdp.pendingPeerConnections.lookup (.v4 1 1) = some (.direct, second) := by
  refine ⟨rfl, ?_, ?_, ?_⟩ <;> decide

end Expecting

end HarddriveParty
