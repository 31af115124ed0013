import HarddriveParty.Discovery.HolePunch

/-!
# Hole punching without a port

Model of `hole_punch_peer_without_port`, the easy side, and `birthday_hard_side`
(`src/connections/discovery/hole_punch.rs`). The easy side sends probes to random ports of the
other, and takes the first packet from there; the hard side opens many sockets, and takes the first
one that gets a packet. Each step runs one task from one await to the next.
-/

namespace HarddriveParty

/-- Maximum number of probes when guessing the remote port. -/
def maxUnknownPortHolepunchAttempts : Nat := 2048

/-- The number of sockets to listen on. -/
def unknownPortIncomingSockets : Nat := 256

/-! ### The easy side -/

/-- Where the task that sends the probes is (`src/connections/discovery/hole_punch.rs:384`), with
the number of its attempt. -/
inductive Probing where
  | send (attempt : Nat)
  | await (attempt : Nat) (dest : SocketAddr)
  | checkStop (attempt : Nat)
  | finished (result : Except HolePunchError Unit)
  deriving DecidableEq

/-- Where `hole_punch_peer_without_port` (`src/connections/discovery/hole_punch.rs:365`) is. -/
inductive WithoutPortStage where
  | subscribe
  | recv
  | stop (sender : SocketAddr)
  | join (sender : SocketAddr)
  | ack (sender : SocketAddr) (sending : SendHolepunchPacket)
  | returned (result : Except HolePunchError SocketAddr)
  deriving DecidableEq

/-- A call of `hole_punch_peer_without_port`, its task that sends probes, and its socket. -/
structure HolePunchPeerWithoutPort where
  addr : IpAddr
  socket : PunchingUdpSocket
  probing : Option Probing
  stopSignal : Bool
  stage : WithoutPortStage

namespace HolePunchPeerWithoutPort

/-- What happens next on the easy side: the call goes on, its channel of incoming packets lags or it
times out; the task sends a probe to a random port, goes on or panics; the send task of the socket
is found closed. -/
inductive Action where
  | run
  | lagged (err : String)
  | timeout
  | probe (port : UInt16)
  | checkStop
  | joinError (err : String)
  | sendTaskClosed

variable (easy : HolePunchPeerWithoutPort)

/-- Wait for a response: the first packet from the address counts. -/
def recv : HolePunchPeerWithoutPort :=
  match easy.socket.incoming with
  | [] => easy
  | recv :: incoming =>
    let easy := { easy with socket := { easy.socket with incoming := incoming } }
    if recv.source.ip = easy.addr ∧ (recv.data = 0 ∨ recv.data = 1) then
      { easy with stage := .stop recv.source }
    else easy

/-- Run the call to its next await. -/
def run : HolePunchPeerWithoutPort :=
  match easy.stage with
  | .subscribe => { easy with
      socket := { easy.socket with incoming := [] }
      probing := some (.send 1)
      stage := .recv }
  | .recv => easy.recv
  -- Signal to stop trying connections
  | .stop sender => { easy with stopSignal := true, stage := .join sender }
  | .join sender =>
    match easy.probing with
    | some (.finished (.ok ())) => { easy with stage := .ack sender .send }
    | some (.finished (.error err)) => { easy with stage := .returned (.error err) }
    | _ => easy
  -- Send a packet back
  | .ack sender .send => { easy with
      socket := easy.socket.request ⟨ackPunch, sender⟩
      stage := .ack sender .await }
  | .ack sender (.returned result) => { easy with stage := .returned (result.map fun _ ↦ sender) }
  | _ => easy

/-- The easy side after an action. -/
def next : Action → HolePunchPeerWithoutPort
  | .run => easy.run
  | .lagged err =>
    match easy.stage with
    | .recv => { easy with stage := .returned (.error (.broadCastRecv err)) }
    | _ => easy
  | .timeout =>
    match easy.stage with
    | .recv => { easy with stage := .returned (.error .timeout) }
    | _ => easy
  | .probe port =>
    match easy.probing with
    | some (.send attempt) =>
      -- zero has a special meaning
      if port = 0 then easy
      else
        let dest := AnnounceAddress.socketAddrOf easy.addr port
        { easy with
          socket := easy.socket.request ⟨initPunch, dest⟩
          probing := some (.await attempt dest) }
    | _ => easy
  | .checkStop =>
    match easy.probing with
    | some (.checkStop attempt) => { easy with
        probing := some (if easy.stopSignal ∨ maxUnknownPortHolepunchAttempts ≤ attempt then
          .finished (.ok ()) else .send (attempt + 1)) }
    | _ => easy
  | .joinError err =>
    match easy.stage with
    | .join _ => { easy with stage := .returned (.error (.join err)) }
    | _ => easy
  | .sendTaskClosed =>
    let easy := { easy with socket := { easy.socket with outgoing := [] } }
    match easy.probing, easy.stage with
    | some (.send _), _ => { easy with probing := some (.finished (.error .channelClosed)) }
    | some (.await _ dest), _ =>
      { easy with probing := some (.finished (.error (.sendTaskClosed dest))) }
    | _, .ack _ .send => { easy with stage := .returned (.error .channelClosed) }
    | _, .ack sender .await => { easy with stage := .returned (.error (.sendTaskClosed sender)) }
    | _, _ => easy

/-- The send task handles its first request: the packet that is sent, if the socket takes it, and
who waits for the result. -/
def transmit (result : Except HolePunchError Unit) :
    HolePunchPeerWithoutPort × Option OutgoingHolepunchPacket :=
  match easy.socket.outgoing with
  | [] => (easy, none)
  | request :: outgoing =>
    let easy := { easy with socket := { easy.socket with outgoing := outgoing } }
    let sent := match result with
      | .ok () => some request.packet
      | .error _ => none
    match easy.probing, easy.stage with
    | some (.await attempt _), _ => ({ easy with
        probing := some (match result with
          | .ok () => .checkStop attempt
          | .error err => .finished (.error err)) }, sent)
    | _, .ack sender .await => ({ easy with stage := .ack sender (.returned result) }, sent)
    | _, _ => (easy, sent)

/-- The socket receives a packet, which the call gets once it has subscribed. -/
def deliver (packet : IncomingHolepunchPacket) : HolePunchPeerWithoutPort :=
  match easy.stage with
  | .subscribe => easy
  | _ => { easy with socket := easy.socket.forwardHolepunch packet }

end HolePunchPeerWithoutPort

/-! ### The hard side -/

/-- Where the task of a socket of the hard side is
(`src/connections/discovery/hole_punch.rs:468`). -/
inductive ListenerTask where
  | punch
  | select
  | ack
  | sendSocket
  | finished
  deriving DecidableEq

/-- A socket of the hard side with its task, and the packets that it has still to take. -/
structure Listener where
  task : ListenerTask
  incoming : List IncomingHolepunchPacket

/-- Where `birthday_hard_side` (`src/connections/discovery/hole_punch.rs:452`) is. Sockets are
named by the iteration that binds them. -/
inductive HardSideStage where
  | bind
  | recv
  | stop (socket : Nat)
  | returned (result : Except HolePunchError (Nat × SocketAddr))
  deriving DecidableEq

/-- A call of `birthday_hard_side`, and the tasks of its sockets. The channel of sockets has room
for one. -/
structure BirthdayHardSide where
  targetAddr : SocketAddr
  listeners : List Listener
  socketChannel : Option Nat
  stopSignal : Bool
  stage : HardSideStage

namespace BirthdayHardSide

/-- What happens next on the hard side: the call goes on, cannot bind a socket, or times out; the
task of a socket goes on, takes the stop signal, or fails to receive or to send. -/
inductive Action where
  | run
  | bindError (err : String)
  | timeout
  | listen (i : Nat)
  | listenStopped (i : Nat)
  | listenError (i : Nat)
  | sendError (i : Nat)

variable (hard : BirthdayHardSide)

/-- Run the call to its next await. -/
def run : BirthdayHardSide :=
  match hard.stage with
  | .bind =>
    if hard.listeners.length < unknownPortIncomingSockets then
      { hard with listeners := hard.listeners ++ [⟨.punch, []⟩] }
    else { hard with stage := .recv }
  | .recv =>
    match hard.socketChannel with
    | some socket => { hard with socketChannel := none, stage := .stop socket }
    | none =>
      if ∀ listener ∈ hard.listeners, listener.task = .finished then
        { hard with stage := .returned (.error .socketChannelClosed) }
      else hard
  -- This stops all the listener tasks
  | .stop socket => { hard with
      stopSignal := true
      stage := .returned (.ok (socket, hard.targetAddr)) }
  | .returned _ => hard

/-- The call does not receive any sockets any more. -/
def isReturned : Bool :=
  match hard.stage with
  | .returned _ => true
  | _ => false

/-- The task of a socket goes on, with the data of the packet that it sends. -/
def listen (i : Nat) : BirthdayHardSide × Option UInt8 :=
  match hard.listeners[i]? with
  | none => (hard, none)
  | some listener =>
    match listener.task, listener.incoming with
    | .punch, _ => ({ hard with
        listeners := hard.listeners.set i { listener with task := .select } }, some initPunch)
    | .select, packet :: incoming => ({ hard with
        listeners := hard.listeners.set i
          ⟨if packet.source = hard.targetAddr then .ack else .finished, incoming⟩ }, none)
    | .ack, _ => ({ hard with
        listeners := hard.listeners.set i { listener with task := .sendSocket } }, some ackPunch)
    | .sendSocket, _ =>
      if hard.isReturned then
        ({ hard with listeners := hard.listeners.set i { listener with task := .finished } }, none)
      else
        match hard.socketChannel with
        | some _ => (hard, none)
        | none => ({ hard with
            socketChannel := some i
            listeners := hard.listeners.set i { listener with task := .finished } }, none)
    | _, _ => (hard, none)

/-- The hard side after an action, and the socket and the data of the packet that is sent in it. -/
def next : Action → BirthdayHardSide × Option (Nat × UInt8)
  | .run => (hard.run, none)
  | .bindError err =>
    match hard.stage with
    | .bind => ({ hard with stage := .returned (.error (.io err)) }, none)
    | _ => (hard, none)
  | .timeout =>
    match hard.stage with
    | .recv => ({ hard with stage := .returned (.error .timeout) }, none)
    | _ => (hard, none)
  | .listen i =>
    let (hard, data) := hard.listen i
    (hard, data.map (i, ·))
  | .listenStopped i =>
    -- without its sender the channel of the stop signal is closed
    if hard.stopSignal ∨ hard.isReturned then
      ({ hard with listeners := hard.listeners.modify i fun listener ↦
          if listener.task = .select then { listener with task := .finished } else listener }, none)
    else (hard, none)
  | .listenError i =>
    ({ hard with listeners := hard.listeners.modify i fun listener ↦
        if listener.task = .select then { listener with task := .finished } else listener }, none)
  | .sendError i =>
    match hard.listen i with
    -- a failed send is logged
    | (hard, some _) => (hard, none)
    | _ => (hard, none)

/-- A socket receives a packet. -/
def deliver (i : Nat) (packet : IncomingHolepunchPacket) : BirthdayHardSide :=
  { hard with listeners := hard.listeners.modify i fun listener ↦
      { listener with incoming := listener.incoming ++ [packet] } }

end BirthdayHardSide

/-! ### Both sides -/

/-- The NAT of the hard side, with the external address of each of its sockets. -/
structure HardNat where
  ip : IpAddr
  external : Nat → SocketAddr
  external_ip : ∀ i, (external i).ip = ip
  external_inj : ∀ i j, i < unknownPortIncomingSockets → j < unknownPortIncomingSockets →
    external i = external j → i = j

/-- An easy and a hard side, and what has been sent on the wire. -/
structure Birthday where
  easy : HolePunchPeerWithoutPort
  hard : BirthdayHardSide
  wire : List (Wire.Event SocketAddr UInt8)

namespace Birthday

/-- What happens next: a step of a side, the send task of the easy side handles a request, or a
packet is received. -/
inductive Action where
  | easy (action : HolePunchPeerWithoutPort.Action)
  | transmit (result : Except HolePunchError Unit)
  | deliverEasy (packet : IncomingHolepunchPacket)
  | hard (action : BirthdayHardSide.Action)
  | deliverHard (i : Nat) (packet : IncomingHolepunchPacket)

variable (nat : HardNat)

/-- The two calls before they start, towards each other. -/
def initial (easyAddr : SocketAddr) : Birthday where
  easy := ⟨nat.ip, ⟨easyAddr, [], []⟩, none, false, .subscribe⟩
  hard := ⟨easyAddr, [], none, false, .bind⟩
  wire := []

variable (w : Birthday)

/-- A packet from the address of the hard side is one that a socket of it has sent. -/
def CanReceiveEasy (packet : IncomingHolepunchPacket) : Prop :=
  packet.source.ip = nat.ip → .sent packet.source w.easy.socket.address packet.data ∈ w.wire

/-- A packet from the easy side is one that it has sent to the external address of the socket. -/
def CanReceiveHard (i : Nat) (packet : IncomingHolepunchPacket) : Prop :=
  packet.source = w.easy.socket.address → .sent packet.source (nat.external i) packet.data ∈ w.wire

instance (packet : IncomingHolepunchPacket) : Decidable (w.CanReceiveEasy nat packet) :=
  inferInstanceAs (Decidable (_ → _))

instance (i : Nat) (packet : IncomingHolepunchPacket) : Decidable (w.CanReceiveHard nat i packet) :=
  inferInstanceAs (Decidable (_ → _))

/-- Both sides after an action. -/
def step : Action → Birthday
  | .easy action => { w with easy := w.easy.next action }
  | .transmit result =>
    let (easy, sent) := w.easy.transmit result
    { w with
      easy := easy
      wire := w.wire ++ sent.toList.map fun packet ↦
        .sent w.easy.socket.address packet.dest packet.data }
  | .deliverEasy packet =>
    if w.CanReceiveEasy nat packet then { w with easy := w.easy.deliver packet } else w
  | .hard action =>
    let (hard, sent) := w.hard.next action
    { w with
      hard := hard
      wire := w.wire ++ sent.toList.map fun (i, data) ↦
        .sent (nat.external i) w.hard.targetAddr data }
  | .deliverHard i packet =>
    if w.CanReceiveHard nat i packet then { w with hard := w.hard.deliver i packet } else w

end Birthday

end HarddriveParty
