import HarddriveParty.Base.Runs
import HarddriveParty.Discovery.Birthday

/-!
# Which socket the two sides find

In a punch without a port each side goes by the first success that it sees. The easy side counts
every packet from the other address, also the initial packets that all sockets of the hard side
send; the hard side counts the first socket that gets a packet. They mean the same socket exactly
when the first response to arrive at the easy side comes from the first socket to report a packet.
Arrivals and reports are steps of the run; what each side has seen of them it keeps until it
returns.
-/

namespace HarddriveParty

open Runs

namespace HolePunchPeerWithoutPort

variable (easy : HolePunchPeerWithoutPort)

/-- The packet is a response from the hard side. -/
def Counts (packet : IncomingHolepunchPacket) : Prop :=
  packet.source.ip = easy.addr ∧ (packet.data = 0 ∨ packet.data = 1)

instance : DecidablePred easy.Counts := fun _ ↦ inferInstanceAs (Decidable (_ ∧ _))

/-- The response that the easy side goes by: the first that it holds, or the one it has taken. -/
def first : Option SocketAddr :=
  match easy.stage with
  | .subscribe => none
  | .recv => (easy.socket.incoming.find? fun packet ↦ easy.Counts packet).map (·.source)
  | .stop sender => some sender
  | .join sender => some sender
  | .ack sender _ => some sender
  | .returned (.ok sender) => some sender
  | .returned (.error _) => none

/-- The call has returned an error. -/
def Failed : Prop := ∃ err, easy.stage = .returned (.error err)

end HolePunchPeerWithoutPort

namespace BirthdayHardSide

variable (hard : BirthdayHardSide)

/-- The socket that the hard side goes by: the one in the channel, or the one it has taken. -/
def first : Option Nat :=
  match hard.stage with
  | .bind => hard.socketChannel
  | .recv => hard.socketChannel
  | .stop socket => some socket
  | .returned (.ok (socket, _)) => some socket
  | .returned (.error _) => none

/-- The call has returned an error. -/
def Failed : Prop := ∃ err, hard.stage = .returned (.error err)

/-- The task of the socket is about to report its packet, to a channel that is free. -/
def Reports (i : Nat) : Prop :=
  (hard.listeners[i]?).map (·.task) = some .sendSocket ∧ hard.isReturned = false ∧
    hard.socketChannel = none

instance (i : Nat) : Decidable (hard.Reports i) := inferInstanceAs (Decidable (_ ∧ _ ∧ _))

end BirthdayHardSide

namespace Birthday

variable (nat : HardNat)

/-- The sender of the packet, if the step is the arrival of a response: the easy side has
subscribed to packets, and gets one from the address of the hard side. -/
def arrival : Birthday × Action → Option SocketAddr
  | (w, .deliverEasy packet) =>
    if w.CanReceiveEasy nat packet ∧ w.easy.stage ≠ .subscribe ∧ w.easy.Counts packet then
      some packet.source
    else none
  | _ => none

/-- The socket, if the step is the report of one. -/
def report : Birthday × Action → Option Nat
  | (w, .hard (.listen i)) => if w.hard.Reports i then some i else none
  | _ => none

/-- The first response to arrive in a run comes from the first socket to report a packet. -/
def FirstsAgree (w : Birthday) (actions : List Action) : Prop :=
  ∀ sender socket, (trace (step nat) w actions).findSome? (arrival nat) = some sender →
    (trace (step nat) w actions).findSome? report = some socket → sender = nat.external socket

end Birthday

/-! ### The easy side -/

namespace HolePunchPeerWithoutPort

variable (easy : HolePunchPeerWithoutPort)

/-- The easy side looks at the packets in the order in which they have reached it. -/
private theorem recv_first (hstage : easy.stage = .recv) :
    easy.recv.first = easy.first := by
  unfold recv
  cases hincoming : easy.socket.incoming with
  | nil => rfl
  | cons packet incoming =>
    simp only [first, hstage, hincoming, List.find?_cons]
    by_cases hcounts : easy.Counts packet
    · have hif : packet.source.ip = easy.addr ∧ (packet.data = 0 ∨ packet.data = 1) := hcounts
      simp [hif, hcounts]
    · have hif : ¬(packet.source.ip = easy.addr ∧ (packet.data = 0 ∨ packet.data = 1)) := hcounts
      simp only [if_neg hif, hcounts, decide_false]
      rfl

private theorem run_first :
    easy.run.first = easy.first ∨ easy.run.Failed := by
  cases hstage : easy.stage with
  | subscribe =>
    left
    simp [run, first, hstage]
  | recv =>
    left
    rw [run, hstage]
    exact recv_first easy hstage
  | stop sender =>
    left
    simp [run, first, hstage]
  | join sender =>
    simp only [run, hstage]
    split
    · left
      simp [first, hstage]
    · next err _ => exact Or.inr ⟨err, rfl⟩
    · exact Or.inl rfl
  | ack sender sending =>
    cases sending with
    | send =>
      left
      simp [run, first, hstage]
    | await =>
      left
      simp [run, hstage]
    | returned result =>
      cases result with
      | ok u =>
        left
        simp [run, first, hstage, Except.map]
      | error err =>
        right
        exact ⟨err, by simp [run, hstage, Except.map]⟩
  | returned result =>
    left
    simp [run, hstage]

/-- A step of the easy side keeps the first response, unless the call fails. -/
theorem next_first (action : Action) :
    (easy.next action).first = easy.first ∨ (easy.next action).Failed := by
  cases action with
  | run => exact run_first easy
  | lagged err =>
    simp only [next]
    split
    · exact Or.inr ⟨.broadCastRecv err, rfl⟩
    · exact Or.inl rfl
  | timeout =>
    simp only [next]
    split
    · exact Or.inr ⟨.timeout, rfl⟩
    · exact Or.inl rfl
  | probe port =>
    left
    simp only [next]
    split
    · split <;> rfl
    · rfl
  | checkStop =>
    left
    simp only [next]
    split <;> rfl
  | joinError err =>
    simp only [next]
    split
    · exact Or.inr ⟨.join err, rfl⟩
    · exact Or.inl rfl
  | sendTaskClosed =>
    simp only [next]
    split
    · exact Or.inl rfl
    · exact Or.inl rfl
    · exact Or.inr ⟨.channelClosed, rfl⟩
    · next sender _ _ _ => exact Or.inr ⟨.sendTaskClosed sender, rfl⟩
    · exact Or.inl rfl

theorem transmit_first (result : Except HolePunchError Unit) :
    (easy.transmit result).1.first = easy.first := by
  unfold transmit
  split
  · rfl
  · dsimp only
    split
    · rfl
    · next hstage _ => simp only [first, hstage]
    · rfl

/-- A response that reaches the easy side is the one to go by if none has before. -/
theorem deliver_first (packet : IncomingHolepunchPacket) :
    (easy.deliver packet).Failed ∨ (easy.deliver packet).first = easy.first.or
      (if easy.stage ≠ .subscribe ∧ easy.Counts packet then some packet.source else none) := by
  cases hstage : easy.stage with
  | recv =>
    right
    have hdelivered : (easy.deliver packet).first = ((easy.socket.incoming ++ [packet]).find?
        fun packet ↦ easy.Counts packet).map (·.source) := by
      simp only [deliver, hstage, first]
      rfl
    have hfirst : easy.first =
        (easy.socket.incoming.find? fun packet ↦ easy.Counts packet).map (·.source) := by
      simp only [first, hstage]
    rw [hdelivered, hfirst, List.find?_append]
    cases easy.socket.incoming.find? fun packet ↦ easy.Counts packet with
    | some earlier => simp
    | none => by_cases hcounts : easy.Counts packet <;> simp [hcounts]
  | subscribe => simp [deliver, first, hstage]
  | stop sender => simp [deliver, first, hstage]
  | join sender => simp [deliver, first, hstage]
  | ack sender sending => simp [deliver, first, hstage]
  | returned result =>
    cases result with
    | ok sender => simp [deliver, first, hstage]
    | error err => exact Or.inl ⟨err, by simp [deliver, hstage]⟩

variable {easy}

/-- A call that has failed stays so. -/
theorem Failed.next (h : easy.Failed) (action : Action) : (easy.next action).Failed := by
  obtain ⟨err, hstage⟩ := h
  refine ⟨err, ?_⟩
  cases action with
  | probe port =>
    simp only [HolePunchPeerWithoutPort.next]
    split
    · split <;> exact hstage
    · exact hstage
  | checkStop =>
    simp only [HolePunchPeerWithoutPort.next]
    split <;> exact hstage
  | sendTaskClosed =>
    simp only [HolePunchPeerWithoutPort.next, hstage]
    split <;> first | rfl | contradiction
  | _ => simp [HolePunchPeerWithoutPort.next, run, hstage]

theorem Failed.transmit (h : easy.Failed) (result : Except HolePunchError Unit) :
    (easy.transmit result).1.Failed := by
  obtain ⟨err, hstage⟩ := h
  refine ⟨err, ?_⟩
  unfold HolePunchPeerWithoutPort.transmit
  split
  · exact hstage
  · simp only [hstage]
    split <;> first | rfl | contradiction

theorem Failed.deliver (h : easy.Failed) (packet : IncomingHolepunchPacket) :
    (easy.deliver packet).Failed := by
  obtain ⟨err, hstage⟩ := h
  exact ⟨err, by simp [HolePunchPeerWithoutPort.deliver, hstage]⟩

end HolePunchPeerWithoutPort

/-! ### The hard side -/

namespace BirthdayHardSide

variable {hard : BirthdayHardSide} {i : Nat}

theorem listen_stage (hard : BirthdayHardSide) (i : Nat) :
    (hard.listen i).1.stage = hard.stage := by
  unfold listen
  split
  · rfl
  · split
    · rfl
    · rfl
    · rfl
    · split
      · rfl
      · split <;> rfl
    · rfl

/-- A socket that reports is the one to go by if none has before. -/
theorem listen_first (hard : BirthdayHardSide) (i : Nat) :
    (hard.listen i).1.first = hard.first.or (if hard.Reports i then some i else none) := by
  by_cases h : hard.Reports i
  · obtain ⟨htask, hreturned, hchannel⟩ := h
    obtain ⟨⟨task, incoming⟩, hlistener, rfl⟩ := Option.map_eq_some_iff.mp htask
    rw [if_pos ⟨htask, hreturned, hchannel⟩]
    cases hstage : hard.stage with
    | bind | recv => simp [listen, hlistener, isReturned, hchannel, first, hstage]
    | stop socket => simp [listen, hlistener, isReturned, hchannel, first, hstage]
    | returned result => simp [isReturned, hstage] at hreturned
  · rw [if_neg h, Option.or_none]
    unfold listen
    split
    · rfl
    · next listener hlistener =>
      split
      · rfl
      · rfl
      · rfl
      · next htask =>
        split
        · rfl
        · next hreturned =>
          split
          · rfl
          · next hchannel =>
            have hwaits : (hard.listeners[i]?).map (·.task) = some .sendSocket := by
              rw [hlistener, Option.map_some, htask]
            exact absurd ⟨hwaits, by simpa using hreturned, hchannel⟩ h
      · rfl

private theorem hard_run_first (hard : BirthdayHardSide) :
    hard.run.first = hard.first ∨ hard.run.Failed := by
  cases hstage : hard.stage with
  | bind =>
    left
    simp only [run, hstage]
    split <;> simp [BirthdayHardSide.first, hstage]
  | recv =>
    simp only [run, hstage]
    split
    · next socket hchannel =>
      left
      simp [BirthdayHardSide.first, hstage, hchannel]
    · split
      · exact Or.inr ⟨.socketChannelClosed, rfl⟩
      · exact Or.inl rfl
  | stop socket =>
    left
    simp [run, BirthdayHardSide.first, hstage]
  | returned result =>
    left
    simp [run, hstage]

/-- Any other step of the hard side keeps the first socket, unless the call fails. -/
theorem next_first (hard : BirthdayHardSide) {action : Action}
    (haction : ∀ i, action ≠ .listen i) :
    (hard.next action).1.first = hard.first ∨ (hard.next action).1.Failed := by
  cases action with
  | run => exact hard_run_first hard
  | bindError err =>
    simp only [next]
    split
    · exact Or.inr ⟨.io err, rfl⟩
    · exact Or.inl rfl
  | timeout =>
    simp only [next]
    split
    · exact Or.inr ⟨.timeout, rfl⟩
    · exact Or.inl rfl
  | listen i => exact absurd rfl (haction i)
  | listenStopped i =>
    left
    simp only [next]
    split <;> rfl
  | listenError i => exact Or.inl rfl
  | sendError i =>
    left
    simp only [next]
    split
    · next hard' data hlisten =>
      have hnot : ¬hard.Reports i := by
        rintro ⟨htask, hreturned, hchannel⟩
        obtain ⟨⟨task, incoming⟩, hlistener, rfl⟩ := Option.map_eq_some_iff.mp htask
        simp [listen, hlistener, hreturned, hchannel] at hlisten
      have hfirst := hard.listen_first i
      rwa [hlisten, if_neg hnot, Option.or_none] at hfirst
    · rfl

/-- A call that has failed stays so. -/
theorem Failed.next (h : hard.Failed) (action : Action) : (hard.next action).1.Failed := by
  obtain ⟨err, hstage⟩ := h
  refine ⟨err, ?_⟩
  cases action with
  | listen i => exact (listen_stage hard i).trans hstage
  | listenStopped i =>
    simp only [BirthdayHardSide.next]
    split <;> exact hstage
  | listenError i => exact hstage
  | sendError i =>
    simp only [BirthdayHardSide.next]
    split
    · next hard' data hlisten =>
      have hsame := listen_stage hard i
      rw [hlisten] at hsame
      exact hsame.trans hstage
    · exact hstage
  | _ => simp [BirthdayHardSide.next, run, hstage]

end BirthdayHardSide

namespace Birthday

variable {nat : HardNat}

/-- The easy side goes by the first response to arrive, unless the call fails. -/
private theorem step_easy_first (w : Birthday) (action : Action) :
    (w.step nat action).easy.Failed ∨
      (w.step nat action).easy.first = w.easy.first.or (arrival nat (w, action)) := by
  cases action with
  | easy action =>
    simp only [arrival, Option.or_none]
    exact (w.easy.next_first action).symm
  | transmit result =>
    simp only [arrival, Option.or_none]
    exact Or.inr (w.easy.transmit_first result)
  | deliverEasy packet =>
    by_cases hreceive : w.CanReceiveEasy nat packet
    · simp only [step, arrival, hreceive, true_and]
      exact w.easy.deliver_first packet
    · right
      simp [step, arrival, hreceive]
  | hard action =>
    simp only [arrival, Option.or_none]
    exact Or.inr rfl
  | deliverHard i packet =>
    right
    simp only [arrival, Option.or_none, step]
    split <;> rfl

/-- The hard side goes by the first socket to report, unless the call fails. -/
private theorem step_hard_first (w : Birthday) (action : Action) :
    (w.step nat action).hard.Failed ∨
      (w.step nat action).hard.first = w.hard.first.or (report (w, action)) := by
  cases action with
  | hard action =>
    by_cases hlisten : ∃ i, action = .listen i
    · obtain ⟨i, rfl⟩ := hlisten
      exact Or.inr (w.hard.listen_first i)
    · have hnone : report (w, .hard action) = none := by
        cases action with
        | listen i => exact absurd ⟨i, rfl⟩ hlisten
        | _ => rfl
      rw [hnone, Option.or_none]
      exact (w.hard.next_first fun i heq ↦ hlisten ⟨i, heq⟩).symm
  | deliverEasy packet =>
    right
    simp only [report, Option.or_none, step]
    split <;> rfl
  | deliverHard i packet =>
    right
    simp only [report, Option.or_none, step]
    split <;> rfl
  | _ =>
    simp only [report, Option.or_none]
    exact Or.inr rfl

private theorem step_easy_failed {w : Birthday} (h : w.easy.Failed) (action : Action) :
    (w.step nat action).easy.Failed := by
  cases action with
  | easy action => exact h.next action
  | transmit result => exact h.transmit result
  | deliverEasy packet =>
    simp only [step]
    split
    · exact h.deliver packet
    · exact h
  | hard action => exact h
  | deliverHard i packet =>
    simp only [step]
    split <;> exact h

private theorem step_hard_failed {w : Birthday} (h : w.hard.Failed) (action : Action) :
    (w.step nat action).hard.Failed := by
  cases action with
  | hard action => exact h.next action
  | deliverEasy packet =>
    simp only [step]
    split <;> exact h
  | deliverHard i packet =>
    simp only [step]
    split <;> exact h
  | _ => exact h

/-- Where the easy side returns `Ok`, it returns the sender of the first response to arrive. -/
theorem returns_first_arrival {easyAddr : SocketAddr} {actions : List Action} {sender : SocketAddr}
    (heasy : (finalState (step nat) (initial nat easyAddr) actions).easy.stage =
      .returned (.ok sender)) :
    (trace (step nat) (initial nat easyAddr) actions).findSome? (arrival nat) = some sender := by
  have hstart : (initial nat easyAddr).easy.first = none := rfl
  rcases kept_finalState (M := fun w : Birthday ↦ w.easy.first) (f := arrival nat)
    (L := fun w ↦ w.easy.Failed) (fun w action h ↦ step_easy_failed h action) step_easy_first
    hstart with ⟨err, herr⟩ | hfirst
  · cases heasy.symm.trans herr
  · rw [← hfirst]
    simp [HolePunchPeerWithoutPort.first, heasy]

/-- Where the hard side returns `Ok`, it returns the first socket to report a packet. -/
theorem returns_first_report {easyAddr target : SocketAddr} {actions : List Action} {socket : Nat}
    (hhard : (finalState (step nat) (initial nat easyAddr) actions).hard.stage =
      .returned (.ok (socket, target))) :
    (trace (step nat) (initial nat easyAddr) actions).findSome? report = some socket := by
  have hstart : (initial nat easyAddr).hard.first = none := rfl
  rcases kept_finalState (M := fun w : Birthday ↦ w.hard.first) (f := report)
    (L := fun w ↦ w.hard.Failed) (fun w action h ↦ step_hard_failed h action) step_hard_first
    hstart with ⟨err, herr⟩ | hfirst
  · cases hhard.symm.trans herr
  · rw [← hfirst]
    simp [BirthdayHardSide.first, hhard]

/-- In every run in which both calls return `Ok`, the address on the easy side is the external
address of the socket on the hard side exactly when the first response to arrive comes from the
first socket to report a packet. -/
theorem same_socket_iff (nat : HardNat) (easyAddr : SocketAddr) (actions : List Action)
    {sender target : SocketAddr} {socket : Nat}
    (heasy : (finalState (step nat) (initial nat easyAddr) actions).easy.stage =
      .returned (.ok sender))
    (hhard : (finalState (step nat) (initial nat easyAddr) actions).hard.stage =
      .returned (.ok (socket, target))) :
    sender = nat.external socket ↔ FirstsAgree nat (initial nat easyAddr) actions := by
  have harrival := returns_first_arrival heasy
  have hreport := returns_first_report hhard
  constructor
  · intro hsame sender' socket' hsender hsocket
    cases harrival.symm.trans hsender
    cases hreport.symm.trans hsocket
    exact hsame
  · exact fun h ↦ h sender socket harrival hreport

/-! ### Runs with two sockets -/

/-- A NAT that gives the sockets successive ports. -/
def successivePorts : HardNat where
  ip := .v4 2
  external i := .v4 2 (UInt16.ofNat (1000 + i))
  external_ip _ := rfl
  external_inj := by
    intro i j hi hj h
    have hport := congrArg UInt16.toNat (SocketAddr.v4.inj h).2
    simp only [UInt16.toNat_ofNat', unknownPortIncomingSockets] at hport hi hj
    omega

/-- The external address of the easy side. -/
def easyAddress : SocketAddr := .v4 1 500

/-- Both sides have sent a packet for each of the first two sockets, and these are on their way. -/
def twoSocketsPunch : List Action :=
  List.replicate (unknownPortIncomingSockets + 1) (.hard .run) ++
  [.hard (.listen 0), .hard (.listen 1), .easy .run,
    .easy (.probe 1000), .transmit (.ok ()), .easy .checkStop,
    .easy (.probe 1001), .transmit (.ok ()), .easy .checkStop]

/-- The packet to one socket arrives, and the hard side takes it. -/
def hardTakes (i : Nat) : List Action :=
  [.deliverHard i ⟨initPunch, easyAddress⟩, .hard (.listen i), .hard (.listen i),
    .hard (.listen i), .hard .run, .hard .run]

/-- The initial packet of one socket arrives, and the easy side takes it. -/
def easyTakes (i : Nat) : List Action :=
  [.deliverEasy ⟨initPunch, successivePorts.external i⟩, .easy .run, .easy .run,
    .easy (.probe 1002), .transmit (.ok ()), .easy .checkStop, .easy .run, .easy .run,
    .transmit (.ok ()), .easy .run]

/-- A run in which the packet to the second socket and the packet of socket `i` arrive. -/
def punchWith (i : Nat) : List Action := twoSocketsPunch ++ easyTakes i ++ hardTakes 1

private theorem easy_returns (i : Nat) (hi : i = 0 ∨ i = 1) :
    (finalState (step successivePorts) (initial successivePorts easyAddress)
      (punchWith i)).easy.stage = .returned (.ok (successivePorts.external i)) := by
  rcases hi with rfl | rfl <;> decide +kernel

private theorem hard_returns (i : Nat) (hi : i = 0 ∨ i = 1) :
    (finalState (step successivePorts) (initial successivePorts easyAddress)
      (punchWith i)).hard.stage = .returned (.ok (1, easyAddress)) := by
  rcases hi with rfl | rfl <;> decide +kernel

/-- The first response and the first report are of the second socket. -/
theorem same_socket_second :
    FirstsAgree successivePorts (initial successivePorts easyAddress) (punchWith 1) :=
  (same_socket_iff successivePorts easyAddress (punchWith 1) (easy_returns 1 (Or.inr rfl))
    (hard_returns 1 (Or.inr rfl))).mp rfl

/-- The easy side takes the initial packet of one socket, while its own packet gets through to
another. -/
theorem initial_packet_of_another_socket :
    ¬∀ (nat : HardNat) (easyAddr : SocketAddr) (actions : List Action)
        (sender target : SocketAddr) (socket : Nat),
      (finalState (step nat) (initial nat easyAddr) actions).easy.stage =
          .returned (.ok sender) →
        (finalState (step nat) (initial nat easyAddr) actions).hard.stage =
            .returned (.ok (socket, target)) →
          sender = nat.external socket := by
  intro hclaim
  have hsame := hclaim successivePorts easyAddress (punchWith 0) _ _ 1
    (easy_returns 0 (Or.inl rfl)) (hard_returns 0 (Or.inl rfl))
  exact absurd hsame (by decide)

end Birthday

end HarddriveParty
