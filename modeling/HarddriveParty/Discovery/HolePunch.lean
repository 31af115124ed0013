import HarddriveParty.Base.Wire
import HarddriveParty.Shared.AnnounceAddress

/-!
# UDP hole punching

Model of `hole_punch_peer` (`src/connections/discovery/hole_punch.rs`) and the channels that
connect it with the UDP socket. A step runs the call from one await to the next; which branch of
the `select!` is taken, and what happens to the packets, are inputs.
-/

namespace HarddriveParty

/-- The initial holepunch packet. -/
def initPunch : UInt8 := 0

/-- The acknowledgement holepunch packet. -/
def ackPunch : UInt8 := 1

/-- How many attempts to holepunch. -/
def maxHolepunchAttempts : Nat := 50

/-- `src/connections/discovery/hole_punch.rs:514`. -/
inductive HolePunchError where
  | broadcast
  | io (err : String)
  | maxAttempts
  | timeout
  | broadCastRecv (err : String)
  | join (err : String)
  | channelClosed
  | sendTaskClosed (dest : SocketAddr)
  | socketChannelClosed
  deriving DecidableEq, Repr

/-- A holepunch packet we have received (`src/connections/discovery/hole_punch.rs:202`), with
`source` for its field `from`. -/
structure IncomingHolepunchPacket where
  data : UInt8
  source : SocketAddr
  deriving DecidableEq, Repr

/-- A holepunch packet we want to send (`src/connections/discovery/hole_punch.rs:210`). -/
structure OutgoingHolepunchPacket where
  data : UInt8
  dest : SocketAddr
  deriving DecidableEq, Repr

/-- An outgoing packet, and whether the caller still waits for its result
(`src/connections/discovery/hole_punch.rs:217`). -/
structure OutgoingHolepunchRequest where
  packet : OutgoingHolepunchPacket
  awaited : Bool
  deriving DecidableEq, Repr

/-! ### The socket -/

/-- The channels between a call and a `PunchingUdpSocket`: the requests that the send task has still
to handle, and the packets that the call has still to receive. -/
structure PunchingUdpSocket where
  address : SocketAddr
  outgoing : List OutgoingHolepunchRequest
  incoming : List IncomingHolepunchPacket

namespace PunchingUdpSocket

/-- The call hands over a packet to the send task. -/
def request (socket : PunchingUdpSocket) (packet : OutgoingHolepunchPacket) : PunchingUdpSocket :=
  { socket with outgoing := socket.outgoing ++ [⟨packet, true⟩] }

/-- The call does not wait any more for the packets that it has handed over. -/
def forget (socket : PunchingUdpSocket) : PunchingUdpSocket :=
  { socket with outgoing := socket.outgoing.map fun request ↦ { request with awaited := false } }

/-- `forward_holepunch` (`src/connections/discovery/hole_punch.rs:182`) for one packet. -/
def forwardHolepunch (socket : PunchingUdpSocket) (packet : IncomingHolepunchPacket) :
    PunchingUdpSocket :=
  { socket with incoming := socket.incoming ++ [packet] }

end PunchingUdpSocket

/-! ### `hole_punch_peer` -/

/-- The variables of the loop of `hole_punch_peer` (`src/connections/discovery/hole_punch.rs:297`),
with the data of its packet. -/
structure HolePunchLoop where
  data : UInt8
  wait : Bool
  sentAck : Bool
  receivedAck : Bool
  attempts : Nat
  deriving DecidableEq, Repr

/-- Where `send_holepunch_packet` (`src/connections/discovery/hole_punch.rs:268`) is. -/
inductive SendHolepunchPacket where
  | send
  | await
  | returned (result : Except HolePunchError Unit)
  deriving DecidableEq

/-- Where `hole_punch_peer` is. -/
inductive HolePunchStage where
  | subscribe
  | loopHead (vars : HolePunchLoop)
  | select (vars : HolePunchLoop) (sending : SendHolepunchPacket)
  | returned (result : Except HolePunchError Unit)
  deriving DecidableEq

namespace HolePunchLoop

/-- The variables before the first iteration. -/
def initial : HolePunchLoop := ⟨initPunch, false, false, false, 0⟩

variable (vars : HolePunchLoop)

/-- The branch of the `select!` for a finished send
(`src/connections/discovery/hole_punch.rs:309`). -/
def sendBranch : Except HolePunchError Unit → HolePunchStage
  | .error err => .returned (.error err)
  | .ok () =>
    if vars.data = initPunch then
      if maxHolepunchAttempts ≤ vars.attempts + 1 then .returned (.error .maxAttempts)
      else .loopHead { vars with attempts := vars.attempts + 1, wait := true }
    else if vars.receivedAck then .returned (.ok ())
    else .loopHead { vars with sentAck := true, wait := true }

/-- The branch of the `select!` for a received packet
(`src/connections/discovery/hole_punch.rs:333`), `none` for an error of the channel. -/
def recvBranch (addr : SocketAddr) : Option IncomingHolepunchPacket → HolePunchStage
  | some recv =>
    if recv.source = addr then
      if recv.data = 0 then .loopHead { vars with data := ackPunch, wait := false }
      else if recv.data = 1 then
        if vars.sentAck then .returned (.ok ())
        else .loopHead { vars with data := ackPunch, receivedAck := true, wait := false }
      else .loopHead { vars with wait := false }
    else .loopHead { vars with wait := false }
  | none => .loopHead { vars with wait := false }

/-- A finished send leads to the next iteration, after a wait, or is the last one. -/
theorem sendBranch_stage (result : Except HolePunchError Unit) :
    (∃ next : HolePunchLoop, vars.sendBranch result = .loopHead next ∧ next.wait = true) ∨
      ∃ returned, vars.sendBranch result = .returned returned := by
  cases result with
  | error err => exact Or.inr ⟨_, rfl⟩
  | ok u =>
    simp only [sendBranch]
    split
    · split
      · exact Or.inr ⟨_, rfl⟩
      · exact Or.inl ⟨_, rfl, rfl⟩
    · split
      · exact Or.inr ⟨_, rfl⟩
      · exact Or.inl ⟨_, rfl, rfl⟩

end HolePunchLoop

/-- A call of `hole_punch_peer` and its socket. -/
structure HolePunchPeer where
  addr : SocketAddr
  socket : PunchingUdpSocket
  stage : HolePunchStage

namespace HolePunchPeer

/-- What the call does next: subscribe to incoming packets, begin an iteration, perhaps after
waiting, hand over its packet, find the send task closed, take a branch of the `select!`, or time
out. The channel of incoming packets drops its oldest ones when it is full. -/
inductive Action where
  | subscribe
  | beginIteration
  | send
  | sendTaskClosed
  | takeSend
  | takeRecv
  | takeLagged (skipped : Nat)
  | timeout

variable (call : HolePunchPeer)

/-- A branch other than the send is taken, so the send is dropped wherever it is. -/
def dropSend (stage : HolePunchStage) : HolePunchPeer :=
  { call with socket := call.socket.forget, stage := stage }

/-- The call after an action, and the packet that it has received in it. -/
def next : Action → HolePunchPeer × Option IncomingHolepunchPacket
  | .subscribe =>
    match call.stage with
    | .subscribe => ({ call with
        socket := { call.socket with incoming := [] }
        stage := .loopHead .initial }, none)
    | _ => (call, none)
  | .beginIteration =>
    match call.stage with
    | .loopHead vars => ({ call with stage := .select vars .send }, none)
    | _ => (call, none)
  | .send =>
    match call.stage with
    | .select vars .send => ({ call with
        socket := call.socket.request ⟨vars.data, call.addr⟩
        stage := .select vars .await }, none)
    | _ => (call, none)
  | .sendTaskClosed =>
    match call.stage with
    | .select vars .send => ({ call with
        socket := { call.socket with outgoing := [] }
        stage := .select vars (.returned (.error .channelClosed)) }, none)
    | .select vars .await => ({ call with
        socket := { call.socket with outgoing := [] }
        stage := .select vars (.returned (.error (.sendTaskClosed call.addr))) }, none)
    | _ => (call, none)
  | .takeSend =>
    match call.stage with
    | .select vars (.returned result) => ({ call with stage := vars.sendBranch result }, none)
    | _ => (call, none)
  | .takeRecv =>
    match call.stage, call.socket.incoming with
    | .select vars _, recv :: incoming =>
      ({ call.dropSend (vars.recvBranch call.addr (some recv)) with
          socket := { call.socket.forget with incoming := incoming } }, some recv)
    | _, _ => (call, none)
  | .takeLagged skipped =>
    match call.stage with
    | .select vars _ =>
      ({ call.dropSend (vars.recvBranch call.addr none) with
          socket := { call.socket.forget with
            incoming := call.socket.incoming.drop skipped } }, none)
    | _ => (call, none)
  | .timeout =>
    match call.stage with
    | .loopHead _ | .select _ _ => (call.dropSend (.returned (.error .timeout)), none)
    | _ => (call, none)

/-- The send task (`src/connections/discovery/hole_punch.rs:75`) handles its first request: the
packet that is sent, if the socket takes it, and the call that hears of it, if it still waits. -/
def transmit (result : Except HolePunchError Unit) :
    HolePunchPeer × Option OutgoingHolepunchPacket :=
  match call.socket.outgoing with
  | [] => (call, none)
  | request :: outgoing =>
    let call := { call with socket := { call.socket with outgoing := outgoing } }
    let sent := match result with
      | .ok () => some request.packet
      | .error _ => none
    match request.awaited, call.stage with
    | true, .select vars .await => ({ call with stage := .select vars (.returned result) }, sent)
    | _, _ => (call, sent)

/-- The socket receives a packet, which the call gets if it has subscribed. -/
def deliver (packet : IncomingHolepunchPacket) : HolePunchPeer :=
  match call.stage with
  | .loopHead _ | .select _ _ => { call with socket := call.socket.forwardHolepunch packet }
  | _ => call

end HolePunchPeer

end HarddriveParty
