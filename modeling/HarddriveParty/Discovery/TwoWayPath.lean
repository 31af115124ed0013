import HarddriveParty.Base.Runs
import HarddriveParty.Base.TwoParties
import HarddriveParty.Discovery.HolePunch

/-!
# What a successful hole punch shows

Two nodes punch towards each other's address over a network that loses, delays, duplicates and
reorders packets. A call that returns `Ok` has taken an acknowledgement, which the other side sends
only after it has taken a packet, and has sent one itself.
-/

namespace HarddriveParty

open Runs

/-- Two calls of `hole_punch_peer`, and what has happened on the wire. -/
structure HolePunch where
  party : TwoParties.Side → HolePunchPeer
  wire : List (Wire.Event SocketAddr UInt8)

namespace HolePunch

/-- What happens next: a step of a call, the send task of a socket handles a request, or a socket
receives a packet. -/
inductive Action where
  | run (x : TwoParties.Side) (action : HolePunchPeer.Action)
  | transmit (x : TwoParties.Side) (result : Except HolePunchError Unit)
  | deliver (x : TwoParties.Side) (packet : IncomingHolepunchPacket)

/-- The calls at these external addresses before they start, with no packets on their way. -/
def initial (address : TwoParties.Side → SocketAddr) : HolePunch where
  party x := ⟨address x.other, ⟨address x, [], []⟩, .subscribe⟩
  wire := []

variable (w : HolePunch)

/-- A packet with the source address of the other party is one that this party has sent. -/
def CanReceive (x : TwoParties.Side) (packet : IncomingHolepunchPacket) : Prop :=
  packet.source = (w.party x.other).socket.address →
    .sent packet.source (w.party x).socket.address packet.data ∈ w.wire

instance (x : TwoParties.Side) (packet : IncomingHolepunchPacket) :
    Decidable (w.CanReceive x packet) :=
  inferInstanceAs (Decidable (_ → _))

/-- The calls and the wire after an action. -/
def step : Action → HolePunch
  | .run x action =>
    let (call, received) := (w.party x).next action
    { party := Function.update w.party x call
      wire := w.wire ++ received.toList.map fun packet ↦
        .received (w.party x).socket.address packet.source packet.data }
  | .transmit x result =>
    let (call, sent) := (w.party x).transmit result
    { party := Function.update w.party x call
      wire := w.wire ++ sent.toList.map fun packet ↦
        .sent (w.party x).socket.address packet.dest packet.data }
  | .deliver x packet =>
    if w.CanReceive x packet then
      { w with party := Function.update w.party x ((w.party x).deliver packet) }
    else w

end HolePunch

/-! ### What a call knows -/

section Evidence

variable (me peer : SocketAddr) (wire : List (Wire.Event SocketAddr UInt8))

/-- The variables of the loop are right about what has happened on the wire. -/
structure HolePunchLoop.Evident (vars : HolePunchLoop) : Prop where
  data : vars.data = initPunch ∨ vars.data = ackPunch ∧ Wire.Heard me peer wire
  sentAck : vars.sentAck = true → .sent me peer ackPunch ∈ wire
  receivedAck : vars.receivedAck = true → Wire.TwoWay me peer wire

/-- A stage is right about what has happened on the wire. -/
def HolePunchStage.Evident : HolePunchStage → Prop
  | subscribe => True
  | loopHead vars => vars.Evident me peer wire
  | select vars sending => vars.Evident me peer wire ∧
      (sending = .returned (.ok ()) → vars.data = ackPunch → .sent me peer ackPunch ∈ wire)
  | returned result => result = .ok () →
      Wire.TwoWay me peer wire ∧ .sent me peer ackPunch ∈ wire

/-- The data of the packet whose result the call waits for. -/
def HolePunchStage.awaits : HolePunchStage → Option UInt8
  | select vars .await => some vars.data
  | _ => none

/-- The requests of the send task go to the peer, the acknowledgements only after hearing of it,
and the call waits for no other packet than the last one, that of its current iteration. -/
structure RequestsEvident (awaited : Option UInt8) (outgoing : List OutgoingHolepunchRequest) :
    Prop where
  dest : ∀ request ∈ outgoing, request.packet.dest = peer
  heard : ∀ request ∈ outgoing, request.packet.data = ackPunch → Wire.Heard me peer wire
  awaited : ∀ request ∈ outgoing, request.awaited = true → awaited = some request.packet.data
  last : outgoing.Pairwise fun request _ ↦ request.awaited = false

/-- What a call knows, has handed over and has still to receive is right about the wire. -/
structure HolePunchPeer.Evident (call : HolePunchPeer) : Prop where
  addr : call.addr = peer
  address : call.socket.address = me
  incoming : ∀ packet ∈ call.socket.incoming, packet.source = peer →
    .sent peer me packet.data ∈ wire
  outgoing : RequestsEvident me peer wire call.stage.awaits call.socket.outgoing
  stage : call.stage.Evident me peer wire

variable {me peer wire}

theorem HolePunchLoop.Evident.append {vars : HolePunchLoop} (h : vars.Evident me peer wire)
    (more : List (Wire.Event SocketAddr UInt8)) : vars.Evident me peer (wire ++ more) where
  data := h.data.imp_right fun hdata ↦ ⟨hdata.1, hdata.2.append more⟩
  sentAck hsent := List.mem_append_left more (h.sentAck hsent)
  receivedAck hreceived := (h.receivedAck hreceived).append more

theorem HolePunchStage.Evident.append {stage : HolePunchStage} (h : stage.Evident me peer wire)
    (more : List (Wire.Event SocketAddr UInt8)) : stage.Evident me peer (wire ++ more) := by
  cases stage with
  | subscribe => trivial
  | loopHead vars => exact HolePunchLoop.Evident.append h more
  | select vars sending =>
    exact ⟨h.1.append more, fun hsending hdata ↦ List.mem_append_left more (h.2 hsending hdata)⟩
  | returned result =>
    intro hresult
    obtain ⟨htwoWay, hsent⟩ := h hresult
    exact ⟨htwoWay.append more, List.mem_append_left more hsent⟩

theorem RequestsEvident.append {awaited : Option UInt8} {outgoing : List OutgoingHolepunchRequest}
    (h : RequestsEvident me peer wire awaited outgoing)
    (more : List (Wire.Event SocketAddr UInt8)) :
    RequestsEvident me peer (wire ++ more) awaited outgoing where
  dest := h.dest
  heard request hmem hdata := (h.heard request hmem hdata).append more
  awaited := h.awaited
  last := h.last

/-- What a call knows stays right when more happens on the wire. -/
theorem HolePunchPeer.Evident.append {call : HolePunchPeer} (h : call.Evident me peer wire)
    (more : List (Wire.Event SocketAddr UInt8)) : call.Evident me peer (wire ++ more) where
  addr := h.addr
  address := h.address
  incoming packet hmem hsource := List.mem_append_left more (h.incoming packet hmem hsource)
  outgoing := h.outgoing.append more
  stage := h.stage.append more

theorem requestsEvident_nil (awaited : Option UInt8) : RequestsEvident me peer wire awaited [] where
  dest _ hmem := absurd hmem List.not_mem_nil
  heard _ hmem := absurd hmem List.not_mem_nil
  awaited _ hmem := absurd hmem List.not_mem_nil
  last := .nil

theorem RequestsEvident.forget {awaited : Option UInt8} {outgoing : List OutgoingHolepunchRequest}
    (h : RequestsEvident me peer wire awaited outgoing) (awaited' : Option UInt8) :
    RequestsEvident me peer wire awaited'
      (outgoing.map fun request ↦ { request with awaited := false }) where
  dest forgotten hforgotten := by
    obtain ⟨request, hmem, rfl⟩ := List.mem_map.mp hforgotten
    exact h.dest request hmem
  heard forgotten hforgotten := by
    obtain ⟨request, hmem, rfl⟩ := List.mem_map.mp hforgotten
    exact h.heard request hmem
  awaited forgotten hforgotten := by
    obtain ⟨request, -, rfl⟩ := List.mem_map.mp hforgotten
    intro heq
    cases heq
  last := List.pairwise_map.mpr (List.pairwise_of_forall fun _ _ ↦ rfl)

/-- A packet that the call hands over while it waits for none is the only one it waits for. -/
theorem RequestsEvident.request {outgoing : List OutgoingHolepunchRequest}
    (h : RequestsEvident me peer wire none outgoing) {data : UInt8}
    (hheard : data = ackPunch → Wire.Heard me peer wire) :
    RequestsEvident me peer wire (some data) (outgoing ++ [⟨⟨data, peer⟩, true⟩]) where
  dest request hmem := by
    rcases List.mem_append.mp hmem with hmem | hmem
    · exact h.dest request hmem
    · rw [List.mem_singleton.mp hmem]
  heard request hmem := by
    rcases List.mem_append.mp hmem with hmem | hmem
    · exact h.heard request hmem
    · rw [List.mem_singleton.mp hmem]
      exact hheard
  awaited request hmem hawaited := by
    rcases List.mem_append.mp hmem with hmem | hmem
    · cases h.awaited request hmem hawaited
    · rw [List.mem_singleton.mp hmem]
  last := by
    refine List.pairwise_append.mpr ⟨h.last, List.pairwise_singleton .., ?_⟩
    intro request hmem _ _
    by_contra hawaited
    cases h.awaited request hmem (Bool.eq_true_of_not_eq_false hawaited)

/-- When the send task has handled a request, the call waits for it no more. -/
theorem RequestsEvident.handle {awaited : Option UInt8} {request : OutgoingHolepunchRequest}
    {outgoing : List OutgoingHolepunchRequest}
    (h : RequestsEvident me peer wire awaited (request :: outgoing)) :
    RequestsEvident me peer wire (if request.awaited then none else awaited) outgoing where
  dest other hmem := h.dest other (List.mem_cons_of_mem request hmem)
  heard other hmem := h.heard other (List.mem_cons_of_mem request hmem)
  awaited other hmem hawaited := by
    rw [if_neg]
    · exact h.awaited other (List.mem_cons_of_mem request hmem) hawaited
    · rw [(List.pairwise_cons.mp h.last).1 other hmem]
      exact Bool.false_ne_true
  last := (List.pairwise_cons.mp h.last).2

/-! ### The branches of the `select!` -/

theorem HolePunchLoop.Evident.sendBranch {vars : HolePunchLoop} (h : vars.Evident me peer wire)
    {result : Except HolePunchError Unit}
    (hsent : result = .ok () → vars.data = ackPunch → .sent me peer ackPunch ∈ wire) :
    (vars.sendBranch result).Evident me peer wire := by
  cases result with
  | error err =>
    intro hresult
    cases hresult
  | ok u =>
    simp only [HolePunchLoop.sendBranch]
    rcases h.data with hdata | ⟨hdata, hheard⟩
    · rw [if_pos hdata]
      split
      · intro hresult
        cases hresult
      · exact ⟨h.data, h.sentAck, h.receivedAck⟩
    · have hack : .sent me peer ackPunch ∈ wire := hsent rfl hdata
      rw [if_neg (by rw [hdata]; decide)]
      split
      · next hreceived => exact fun _ ↦ ⟨h.receivedAck hreceived, hack⟩
      · exact ⟨h.data, fun _ ↦ hack, h.receivedAck⟩

theorem HolePunchLoop.Evident.recvBranch {vars : HolePunchLoop} (h : vars.Evident me peer wire)
    (hreplies : Wire.RepliesAfterHearing (· = ackPunch) peer me wire)
    {packet : IncomingHolepunchPacket}
    (hsent : packet.source = peer → .sent peer me packet.data ∈ wire) :
    (vars.recvBranch peer (some packet)).Evident me peer
      (wire ++ [.received me packet.source packet.data]) := by
  have hmore := h.append [.received me packet.source packet.data]
  simp only [HolePunchLoop.recvBranch]
  split
  · next hsource =>
    have hheard : Wire.Heard me peer (wire ++ [.received me packet.source packet.data]) := by
      rw [hsource]
      exact Wire.heard_of_received (hsent hsource)
    split
    · exact ⟨Or.inr ⟨rfl, hheard⟩, hmore.sentAck, hmore.receivedAck⟩
    · split
      · next hack =>
        have htwoWay : Wire.TwoWay me peer (wire ++ [.received me packet.source packet.data]) := by
          rw [hsource]
          exact hreplies.twoWay hack (hsent hsource)
        split
        · next hsentAck => exact fun _ ↦ ⟨htwoWay, hmore.sentAck hsentAck⟩
        · exact ⟨Or.inr ⟨rfl, hheard⟩, hmore.sentAck, fun _ ↦ htwoWay⟩
      · exact ⟨hmore.data, hmore.sentAck, hmore.receivedAck⟩
  · exact ⟨hmore.data, hmore.sentAck, hmore.receivedAck⟩

/-! ### The steps of a call -/

variable {call : HolePunchPeer}

/-- The wire after a call has perhaps received a packet. -/
def wireAfter (me : SocketAddr) (wire : List (Wire.Event SocketAddr UInt8))
    (received : Option IncomingHolepunchPacket) : List (Wire.Event SocketAddr UInt8) :=
  wire ++ received.toList.map fun packet ↦ .received me packet.source packet.data

theorem HolePunchPeer.Evident.dropSend (h : call.Evident me peer wire) {stage : HolePunchStage}
    (hstage : stage.Evident me peer wire) : (call.dropSend stage).Evident me peer wire :=
  ⟨h.addr, h.address, h.incoming, h.outgoing.forget stage.awaits, hstage⟩

private theorem evident_idle (h : call.Evident me peer wire) :
    call.Evident me peer (wireAfter me wire none) := by
  rw [wireAfter]
  exact h.append _

private theorem sendBranch_awaits (vars : HolePunchLoop) (result : Except HolePunchError Unit) :
    (vars.sendBranch result).awaits = none := by
  rcases vars.sendBranch_stage result with ⟨next, hnext, -⟩ | ⟨returned, hreturned⟩
  · rw [hnext]
    rfl
  · rw [hreturned]
    rfl

private theorem takeRecv_evident (h : call.Evident me peer wire)
    (hreplies : Wire.RepliesAfterHearing (· = ackPunch) peer me wire) {vars : HolePunchLoop}
    {sending : SendHolepunchPacket} (hstage : call.stage = .select vars sending)
    {recv : IncomingHolepunchPacket} {incoming : List IncomingHolepunchPacket}
    (hincoming : call.socket.incoming = recv :: incoming) :
    HolePunchPeer.Evident me peer (wire ++ [.received me recv.source recv.data])
      { call with
        socket := { call.socket.forget with incoming := incoming }
        stage := vars.recvBranch call.addr (some recv) } := by
  have hmem (packet : IncomingHolepunchPacket) (hpacket : packet ∈ recv :: incoming) :
      packet ∈ call.socket.incoming := by
    rwa [hincoming]
  have hvars : vars.Evident me peer wire := by
    have hselect := h.stage
    rw [hstage] at hselect
    exact hselect.1
  have hmore := h.append [.received me recv.source recv.data]
  refine ⟨h.addr, h.address, fun packet hpacket ↦ ?_, hmore.outgoing.forget _, ?_⟩
  · exact hmore.incoming packet (hmem packet (List.mem_cons_of_mem recv hpacket))
  · rw [h.addr]
    exact hvars.recvBranch hreplies fun hsource ↦ h.incoming recv (hmem recv List.mem_cons_self)
      hsource

/-- A step of a call keeps right what it knows. -/
theorem HolePunchPeer.Evident.next (h : call.Evident me peer wire)
    (hreplies : Wire.RepliesAfterHearing (· = ackPunch) peer me wire) (action : Action) :
    (call.next action).1.Evident me peer (wireAfter me wire (call.next action).2) := by
  have hstage := h.stage
  have houtgoing := h.outgoing
  cases action with
  | subscribe =>
    simp only [HolePunchPeer.next]
    split
    · next heq =>
      rw [heq] at houtgoing
      apply evident_idle
      refine ⟨h.addr, h.address, ?_, houtgoing,
        ⟨Or.inl rfl, (fun heq ↦ by cases heq), fun heq ↦ by cases heq⟩⟩
      exact fun packet hmem ↦ absurd hmem List.not_mem_nil
    · exact evident_idle h
  | beginIteration =>
    simp only [HolePunchPeer.next]
    split
    · next vars heq =>
      rw [heq] at hstage houtgoing
      apply evident_idle
      exact ⟨h.addr, h.address, h.incoming, houtgoing, hstage, fun heq ↦ by cases heq⟩
    · exact evident_idle h
  | send =>
    simp only [HolePunchPeer.next]
    split
    · next vars heq =>
      rw [heq] at hstage houtgoing
      apply evident_idle
      refine ⟨h.addr, h.address, h.incoming, ?_, hstage.1, fun heq ↦ by cases heq⟩
      rw [h.addr]
      apply houtgoing.request
      intro hack
      -- the packet of an iteration is an acknowledgement only after hearing of the peer
      rcases hstage.1.data with hinit | ⟨-, hheard⟩
      · exact absurd (hinit.symm.trans hack) (by decide)
      · exact hheard
    · exact evident_idle h
  | sendTaskClosed =>
    simp only [HolePunchPeer.next]
    split
    · next vars heq =>
      rw [heq] at hstage
      apply evident_idle
      exact ⟨h.addr, h.address, h.incoming, requestsEvident_nil _, hstage.1, fun heq ↦ by cases heq⟩
    · next vars heq =>
      rw [heq] at hstage
      apply evident_idle
      exact ⟨h.addr, h.address, h.incoming, requestsEvident_nil _, hstage.1, fun heq ↦ by cases heq⟩
    · exact evident_idle h
  | takeSend =>
    simp only [HolePunchPeer.next]
    split
    · next vars result heq =>
      rw [heq] at hstage houtgoing
      apply evident_idle
      refine ⟨h.addr, h.address, h.incoming, ?_, ?_⟩
      · rw [sendBranch_awaits]
        exact houtgoing
      · apply hstage.1.sendBranch
        rintro rfl
        exact hstage.2 rfl
    · exact evident_idle h
  | takeRecv =>
    simp only [HolePunchPeer.next]
    split
    · next vars sending recv incoming heq hincoming =>
      exact takeRecv_evident h hreplies heq hincoming
    · exact evident_idle h
  | takeLagged skipped =>
    simp only [HolePunchPeer.next]
    split
    · next vars sending heq =>
      rw [heq] at hstage
      apply evident_idle
      refine ⟨h.addr, h.address, fun packet hmem ↦ ?_, h.outgoing.forget _, ?_⟩
      · exact h.incoming packet (List.mem_of_mem_drop hmem)
      · exact ⟨hstage.1.data, hstage.1.sentAck, hstage.1.receivedAck⟩
    · exact evident_idle h
  | timeout =>
    simp only [HolePunchPeer.next]
    split
    · exact evident_idle (h.dropSend (fun heq ↦ by cases heq))
    · exact evident_idle (h.dropSend (fun heq ↦ by cases heq))
    · exact evident_idle h

private theorem awaits_eq_some {stage : HolePunchStage} {data : UInt8}
    (h : stage.awaits = some data) : ∃ vars, stage = .select vars .await ∧ vars.data = data := by
  cases stage with
  | select vars sending =>
    cases sending with
    | await => exact ⟨vars, rfl, Option.some.inj h⟩
    | send => cases h
    | returned result => cases h
  | subscribe => cases h
  | loopHead vars => cases h
  | returned result => cases h

/-- The packet that the send task sends is that of the first request. -/
private theorem transmit_sent {result : Except HolePunchError Unit}
    {packet : OutgoingHolepunchPacket} (h : (call.transmit result).2 = some packet) :
    ∃ request outgoing, call.socket.outgoing = request :: outgoing ∧ packet = request.packet := by
  unfold HolePunchPeer.transmit at h
  split at h
  · cases h
  · next request outgoing heq =>
    refine ⟨request, outgoing, heq, ?_⟩
    dsimp only at h
    cases result with
    | error err =>
      split at h
      · cases h
      · cases h
    | ok u =>
      split at h
      · cases h
        rfl
      · cases h
        rfl

/-- The packet that the send task sends is for the peer, and it is an acknowledgement only after
hearing of the peer; and the call stays right. -/
theorem HolePunchPeer.Evident.transmit (h : call.Evident me peer wire)
    (result : Except HolePunchError Unit) :
    (call.transmit result).1.Evident me peer
      (wire ++ (call.transmit result).2.toList.map fun packet ↦
        .sent me packet.dest packet.data) ∧
    ∀ packet, (call.transmit result).2 = some packet →
      packet.dest = peer ∧ (packet.data = ackPunch → Wire.Heard me peer wire) := by
  have houtgoing := h.outgoing
  constructor
  · unfold HolePunchPeer.transmit
    split
    · exact h.append _
    · next request outgoing heq =>
      rw [heq] at houtgoing
      have hhandled := houtgoing.handle
      dsimp only
      split
      · next vars hawaited hstage =>
        have hselect := h.stage
        rw [hstage] at hselect
        refine ⟨h.addr, h.address, fun packet hmem hsource ↦ ?_, ?_, ?_, ?_⟩
        · exact List.mem_append_left _ (h.incoming packet hmem hsource)
        · rw [hawaited] at hhandled
          exact hhandled.append _
        · exact hselect.1.append _
        · -- the packet that the call waits for is that of its iteration
          intro hresult hack
          have hdata : vars.data = request.packet.data := by
            have hawaits := houtgoing.awaited request List.mem_cons_self hawaited
            rw [hstage] at hawaits
            exact Option.some.inj hawaits
          cases hresult
          apply List.mem_append_right
          have hdest := houtgoing.dest request List.mem_cons_self
          simp [hdest, ← hdata, hack]
      · next hother =>
        have hnot : request.awaited ≠ true := by
          intro hawaited
          obtain ⟨vars, hstage, -⟩ :=
            awaits_eq_some (houtgoing.awaited request List.mem_cons_self hawaited)
          exact hother vars hawaited hstage
        rw [if_neg hnot] at hhandled
        refine ⟨h.addr, h.address, fun packet hmem hsource ↦ ?_, ?_, ?_⟩
        · exact List.mem_append_left _ (h.incoming packet hmem hsource)
        · exact hhandled.append _
        · exact h.stage.append _
  · intro packet hsent
    obtain ⟨request, outgoing, heq, rfl⟩ := transmit_sent hsent
    rw [heq] at houtgoing
    exact ⟨houtgoing.dest _ List.mem_cons_self, houtgoing.heard _ List.mem_cons_self⟩

theorem HolePunchPeer.Evident.deliver (h : call.Evident me peer wire)
    {packet : IncomingHolepunchPacket}
    (hsent : packet.source = peer → .sent peer me packet.data ∈ wire) :
    (call.deliver packet).Evident me peer wire := by
  have hincoming (other : IncomingHolepunchPacket)
      (hmem : other ∈ (call.socket.forwardHolepunch packet).incoming)
      (hsource : other.source = peer) :
      .sent peer me other.data ∈ wire := by
    rcases List.mem_append.mp hmem with hmem | hmem
    · exact h.incoming other hmem hsource
    · cases List.mem_singleton.mp hmem
      exact hsent hsource
  unfold HolePunchPeer.deliver
  split
  · exact ⟨h.addr, h.address, hincoming, h.outgoing, h.stage⟩
  · exact ⟨h.addr, h.address, hincoming, h.outgoing, h.stage⟩
  · exact h

end Evidence

namespace HolePunch

open TwoParties (Side)

/-- What both calls know is right, and each party acknowledges only after hearing of the other. -/
structure Evident (address : Side → SocketAddr) (w : HolePunch) : Prop where
  calls : ∀ x, (w.party x).Evident (address x) (address x.other) w.wire
  replies : ∀ x, Wire.RepliesAfterHearing (· = ackPunch) (address x) (address x.other) w.wire

variable {address : Side → SocketAddr} {w : HolePunch}

private theorem Evident.replies_other (h : w.Evident address) (x : Side) :
    Wire.RepliesAfterHearing (· = ackPunch) (address x.other) (address x) w.wire := by
  have hother := h.replies x.other
  rwa [TwoParties.Side.other_other] at hother

private theorem calls_update (h : w.Evident address) (x : Side) {call : HolePunchPeer}
    {more : List (Wire.Event SocketAddr UInt8)}
    (hcall : call.Evident (address x) (address x.other) (w.wire ++ more)) (y : Side) :
    (Function.update w.party x call y).Evident (address y) (address y.other) (w.wire ++ more) := by
  by_cases hyx : y = x
  · subst hyx
    rwa [Function.update_self]
  · rw [Function.update_of_ne hyx]
    exact (h.calls y).append more

private theorem replies_append (h : w.Evident address) (y : Side)
    (event : Option (Wire.Event SocketAddr UInt8))
    (hevent : ∀ q, event = some (.sent (address y) (address y.other) q) → q = ackPunch →
      Wire.Heard (address y) (address y.other) w.wire) :
    Wire.RepliesAfterHearing (· = ackPunch) (address y) (address y.other)
      (w.wire ++ event.toList) := by
  cases event with
  | none =>
    rw [Option.toList_none, List.append_nil]
    exact h.replies y
  | some event => exact (h.replies y).concat fun q heq ↦ hevent q (congrArg some heq)

/-- A step keeps right what both calls know. -/
theorem Evident.step (h : w.Evident address) (action : Action) :
    (w.step action).Evident address := by
  cases action with
  | run x action =>
    simp only [HolePunch.step, (h.calls x).address, ← Option.toList_map]
    constructor
    · apply calls_update h
      rw [Option.toList_map]
      exact (h.calls x).next (h.replies_other x) action
    · intro y
      apply replies_append h
      intro q hq
      obtain ⟨packet, -, hpacket⟩ := Option.map_eq_some_iff.mp hq
      cases hpacket
  | transmit x result =>
    obtain ⟨hcall, hsent⟩ := (h.calls x).transmit result
    simp only [HolePunch.step, (h.calls x).address, ← Option.toList_map] at hcall ⊢
    refine ⟨calls_update h x hcall, fun y ↦ replies_append h y _ ?_⟩
    intro q hq hack
    obtain ⟨packet, hpacket, heq⟩ := Option.map_eq_some_iff.mp hq
    obtain ⟨hdest, hheard⟩ := hsent packet hpacket
    simp only [Wire.Event.sent.injEq] at heq
    obtain ⟨hme, hpeer, rfl⟩ := heq
    rw [← hme, ← hpeer, hdest]
    exact hheard hack
  | deliver x packet =>
    simp only [HolePunch.step]
    split
    · next hreceive =>
      refine ⟨fun y ↦ ?_, h.replies⟩
      have hcall : ((w.party x).deliver packet).Evident (address x) (address x.other) w.wire := by
        apply (h.calls x).deliver
        intro hsource
        rw [← hsource, ← (h.calls x).address]
        exact hreceive (hsource.trans (h.calls x.other).address.symm)
      rw [← List.append_nil w.wire] at hcall ⊢
      exact calls_update h x hcall y
    · exact h

theorem evident_initial (address : Side → SocketAddr) : (initial address).Evident address where
  calls _ := ⟨rfl, rfl, (fun _ heq ↦ by cases heq), requestsEvident_nil _, trivial⟩
  replies _ := Wire.repliesAfterHearing_nil

/-- The call of a party has returned `Ok` only if a packet of the party has been received by the
other, a packet that the other sent after that has been received by the party, and the party has
sent an acknowledgement. -/
def OkShowsPath (address : Side → SocketAddr) (w : HolePunch) : Prop :=
  ∀ x, (w.party x).stage = .returned (.ok ()) →
    Wire.TwoWay (address x) (address x.other) w.wire ∧
      .sent (address x) (address x.other) ackPunch ∈ w.wire

/-- In every run of two calls towards each other's address, whatever packets are lost, duplicated,
delayed or reordered and whatever the calls choose, a call that returns `Ok` has shown a path in
both directions. -/
theorem ok_shows_path (address : Side → SocketAddr) (actions : List Action) :
    EachState step (OkShowsPath address) (initial address) actions := by
  have hfree : EachStep step (fun _ _ ↦ True) (initial address) actions :=
    eachStep_of_forall fun _ _ ↦ trivial
  have hstates : EachState step (Evident address) (initial address) actions :=
    eachState_of_invariant (evident_initial address) hfree fun w action h _ ↦ h.step action
  refine hstates.mono fun w h x hok ↦ ?_
  have hstage := (h.calls x).stage
  rw [hok] at hstage
  exact hstage rfl

/-- A run in which both calls return `Ok`. -/
example :
    let address : Side → SocketAddr := fun
      | .a => .v4 1 1000
      | .b => .v4 2 2000
    let punched := finalState step (initial address)
      [.run .a .subscribe, .run .a .beginIteration, .run .b .subscribe, .run .b .beginIteration,
        .run .a .send, .transmit .a (.ok ()), .run .a .takeSend, .run .a .beginIteration,
        .deliver .b ⟨initPunch, address .a⟩, .run .b .takeRecv, .run .b .beginIteration,
        .run .b .send, .transmit .b (.ok ()), .run .b .takeSend, .run .b .beginIteration,
        .deliver .a ⟨ackPunch, address .b⟩, .run .a .takeRecv, .run .a .beginIteration,
        .run .a .send, .transmit .a (.ok ()), .run .a .takeSend,
        .deliver .b ⟨ackPunch, address .a⟩, .run .b .takeRecv]
    (punched.party .a).stage = .returned (.ok ()) ∧
      (punched.party .b).stage = .returned (.ok ()) := by
  decide +kernel

end HolePunch

end HarddriveParty
