import HarddriveParty.Base.Runs
import HarddriveParty.Discovery.HolePunch

/-!
# Packets of other addresses during a hole punch

`hole_punch_peer` drops the packet it is sending whenever it receives one, from whatever address,
and gets its packets from a bounded channel that all punches on the socket share. With a clock for
its sleeps and sends, packets of other addresses leave its result alone as long as none arrives
while it sends, and none is in the channel when it overflows. They can change it otherwise.
-/

namespace HarddriveParty

open Runs

/-! ### `hole_punch_peer` with a clock -/

/-- Maximum capacity of channel used to receive holepunch packets. -/
def packetChannelCapacity : Nat := 1024

/-- The nanoseconds of a millisecond, times are in nanoseconds since the call has subscribed. -/
def nanosPerMilli : Nat := 1000000

/-- How long to wait between holepunch attempts. -/
def holepunchWait : Nat := 2000 * nanosPerMilli

/-- Maximum time to wait for a hole-punch response. -/
def holepunchTimeout : Nat := 120000 * nanosPerMilli

/-- A packet that the call gets from the socket, the time at which it gets into the channel, and
whether the `select!` takes it before a send that is finished at the same time. -/
structure TimedPacket where
  time : Nat
  packet : IncomingHolepunchPacket
  takenFirst : Nat → Bool

/-- The remote address of a call, the end of a sleep by its beginning, and the duration and result
of a send by its beginning and data. -/
structure PunchTiming where
  addr : SocketAddr
  wake : Nat → Nat
  wake_ge : ∀ time, time + holepunchWait ≤ wake time
  send : Nat → UInt8 → Nat × Except HolePunchError Unit

/-- A call of `hole_punch_peer` at a time, with the packets it has still to receive. -/
structure TimedHolePunch where
  now : Nat
  stage : HolePunchStage
  packets : List TimedPacket

namespace PunchTiming

variable (timing : PunchTiming)

/-- The packet comes from the remote address. -/
def Related (timed : TimedPacket) : Prop := timed.packet.source = timing.addr

instance : DecidablePred timing.Related := fun _ ↦ inferInstanceAs (Decidable (_ = _))

section Select

variable (begins : Nat) (vars : HolePunchLoop)

/-- When the send of a `select!` that begins at this time is finished. -/
def sendEnds : Nat := begins + (timing.send begins vars.data).1

/-- The `select!` receives the packet and drops its send. -/
def TakesRecv (timed : TimedPacket) : Prop :=
  let received := max begins timed.time
  received < timing.sendEnds begins vars ∨
    received = timing.sendEnds begins vars ∧ timed.takenFirst received = true

instance (timed : TimedPacket) : Decidable (timing.TakesRecv begins vars timed) :=
  inferInstanceAs (Decidable (_ ∨ _))

end Select

/-- The packets in the channel at a time. -/
def queued (time : Nat) (packets : List TimedPacket) : List TimedPacket :=
  packets.takeWhile fun timed ↦ timed.time ≤ time

/-- The `recv` of the call, at a time at which there is a packet. A receiver that is behind by more
than the capacity of the channel gets an error, and continues with the oldest packet left. -/
def recv (time : Nat) (vars : HolePunchLoop) (packets : List TimedPacket) : TimedHolePunch :=
  let behind := (queued time packets).length
  if packetChannelCapacity < behind then
    ⟨time, vars.recvBranch timing.addr none, packets.drop (behind - packetChannelCapacity)⟩
  else ⟨time, vars.recvBranch timing.addr (packets.head?.map (·.packet)), packets.tail⟩

/-- The branch that the `select!` takes, when it begins at this time. -/
def branch (begins : Nat) (vars : HolePunchLoop) (packets : List TimedPacket) : TimedHolePunch :=
  match packets with
  | timed :: _ =>
    if timing.TakesRecv begins vars timed then
      timing.recv (max begins timed.time) vars packets
    else
      ⟨timing.sendEnds begins vars, vars.sendBranch (timing.send begins vars.data).2, packets⟩
  | [] => ⟨timing.sendEnds begins vars, vars.sendBranch (timing.send begins vars.data).2, []⟩

/-- The rest of an iteration after its sleep, unless the call is out of time before. -/
def select (begins : Nat) (vars : HolePunchLoop) (packets : List TimedPacket) : TimedHolePunch :=
  let next := timing.branch begins vars packets
  if next.now ≤ holepunchTimeout then next
  else ⟨holepunchTimeout, .returned (.error .timeout), packets⟩

/-- When the `select!` of an iteration begins. -/
def selectBegins (now : Nat) (vars : HolePunchLoop) : Nat :=
  if vars.wait then timing.wake now else now

/-- One iteration of the loop. -/
def turn (call : TimedHolePunch) : TimedHolePunch :=
  match call.stage with
  | .loopHead vars => timing.select (timing.selectBegins call.now vars) vars call.packets
  | _ => call

end PunchTiming

/-- The packets that a call gets, in the order of their receipt. -/
structure PunchTraffic where
  packets : List TimedPacket
  inOrder : packets.Pairwise (·.time ≤ ·.time)

namespace PunchTraffic

variable (timing : PunchTiming) (traffic : PunchTraffic)

/-- The packets from the remote address. -/
def related : List TimedPacket := traffic.packets.filter fun timed ↦ timing.Related timed

/-- The call before its first iteration. -/
def start : TimedHolePunch := ⟨0, .loopHead .initial, traffic.packets⟩

/-- The call after this many iterations. -/
def after (n : Nat) : TimedHolePunch := timing.turn^[n] traffic.start

/-- The call returns the result. -/
def Returns (result : Except HolePunchError Unit) : Prop :=
  ∃ n, (traffic.after timing n).stage = .returned result

end PunchTraffic

/-! ### When packets of other addresses do no harm -/

namespace PunchTiming

variable (timing : PunchTiming)

/-- A `select!` that begins at this time is undisturbed by packets of other addresses: the channel
is not too full when it receives with one in it, and it receives one only at its beginning, or its
send is finished before one arrives. -/
def Undisturbed (begins : Nat) (vars : HolePunchLoop) : List TimedPacket → Prop
  | timed :: packets =>
    if timing.TakesRecv begins vars timed then
      ((queued (max begins timed.time) (timed :: packets)).length ≤ packetChannelCapacity ∨
        ∀ other ∈ queued (max begins timed.time) (timed :: packets), timing.Related other) ∧
      (timing.Related timed ∨ timed.time ≤ begins)
    else timing.Related timed ∨ timing.sendEnds begins vars < timed.time
  | [] => True

instance (begins : Nat) (vars : HolePunchLoop) (packets : List TimedPacket) :
    Decidable (timing.Undisturbed begins vars packets) :=
  match packets with
  | timed :: packets => by
    unfold Undisturbed
    infer_instance
  | [] => isTrue trivial

end PunchTiming

/-- The next iteration of the call is undisturbed by packets of other addresses. -/
def TimedHolePunch.Undisturbed (timing : PunchTiming) (call : TimedHolePunch) : Prop :=
  match call.stage with
  | .loopHead vars => timing.Undisturbed (timing.selectBegins call.now vars) vars call.packets
  | _ => True

instance (timing : PunchTiming) (call : TimedHolePunch) : Decidable (call.Undisturbed timing) := by
  unfold TimedHolePunch.Undisturbed
  cases call.stage <;> infer_instance

/-- All iterations of the call are undisturbed by packets of other addresses. -/
def PunchTraffic.Undisturbed (timing : PunchTiming) (traffic : PunchTraffic) : Prop :=
  ∀ n, (traffic.after timing n).Undisturbed timing

/-! ### The iteration with and without them -/

section Packets

variable {packets : List TimedPacket} {p : TimedPacket → Bool}

/-- The first packet arrives first. -/
theorem time_le_of_mem {timed other : TimedPacket}
    (hsorted : (timed :: packets).Pairwise (·.time ≤ ·.time)) (hmem : other ∈ timed :: packets) :
    timed.time ≤ other.time := by
  rcases List.mem_cons.mp hmem with rfl | hmem
  · exact le_rfl
  · exact (List.pairwise_cons.mp hsorted).1 other hmem

/-- The packets of a kind in the channel are those of the packets in the channel. -/
theorem queued_filter (hsorted : packets.Pairwise (·.time ≤ ·.time)) (time : Nat) :
    PunchTiming.queued time (packets.filter p) = (PunchTiming.queued time packets).filter p := by
  induction packets with
  | nil => rfl
  | cons timed packets ih =>
    have hrest := (List.pairwise_cons.mp hsorted).2
    unfold PunchTiming.queued at ih ⊢
    by_cases htime : timed.time ≤ time
    · rw [List.takeWhile_cons_of_pos (by simpa using htime)]
      by_cases hp : p timed = true
      · rw [List.filter_cons_of_pos hp, List.filter_cons_of_pos hp,
          List.takeWhile_cons_of_pos (by simpa using htime), ih hrest]
      · rw [List.filter_cons_of_neg hp, List.filter_cons_of_neg hp, ih hrest]
    · rw [List.takeWhile_cons_of_neg (by simpa using htime)]
      -- no later packet is in the channel before the first one
      cases hlater : (timed :: packets).filter p with
      | nil => rfl
      | cons other others =>
        rw [List.takeWhile_cons_of_neg, List.filter_nil]
        have hmem : other ∈ timed :: packets :=
          List.mem_of_mem_filter (hlater ▸ List.mem_cons_self)
        have hless := time_le_of_mem hsorted hmem
        simp only [decide_eq_true_eq]
        omega

/-- Dropping packets from a channel that has only such of a kind drops as many of the kind. -/
theorem filter_drop_of_queued {time n : Nat}
    (hall : ∀ timed ∈ PunchTiming.queued time packets, p timed = true)
    (hn : n ≤ (PunchTiming.queued time packets).length) :
    (packets.drop n).filter p = (packets.filter p).drop n := by
  have hsplit : packets = packets.take n ++ packets.drop n := (List.take_append_drop n packets).symm
  have hqueued : PunchTiming.queued time packets <+: packets := List.takeWhile_prefix _
  have hdropped : packets.take n <+: packets := List.take_prefix n packets
  have hchannel : packets.take n <+: PunchTiming.queued time packets :=
    List.prefix_of_prefix_length_le hdropped hqueued ((List.length_take_le n packets).trans hn)
  have htake : (packets.take n).filter p = packets.take n :=
    List.filter_eq_self.mpr fun timed hmem ↦ hall timed (hchannel.subset hmem)
  have hlength : (packets.take n).length = n := by
    rw [List.length_take, min_eq_left]
    exact hn.trans hqueued.length_le
  conv_rhs => rw [hsplit, List.filter_append, htake]
  rw [List.drop_left' hlength]

end Packets

namespace HolePunchLoop

variable (vars : HolePunchLoop) (wait : Bool)

/-- Whether the call has waited before does not matter to the branches of its `select!`. -/
theorem sendBranch_wait (result : Except HolePunchError Unit) :
    { vars with wait := wait }.sendBranch result = vars.sendBranch result := by
  cases result <;> rfl

theorem recvBranch_wait (addr : SocketAddr) (received : Option IncomingHolepunchPacket) :
    { vars with wait := wait }.recvBranch addr received = vars.recvBranch addr received := by
  cases received <;> rfl

end HolePunchLoop

namespace PunchTiming

variable (timing : PunchTiming) {begins : Nat} {vars : HolePunchLoop}
variable {packets quiet : List TimedPacket}

/-- Two states of a call are the same but for packets of other addresses in the first. -/
structure SameBut (call quiet : TimedHolePunch) : Prop where
  now : call.now = quiet.now
  stage : call.stage = quiet.stage
  packets : call.packets.filter (fun timed ↦ timing.Related timed) = quiet.packets

/-- What a `select!` can do: it finishes its send, or it receives and has fewer packets left. -/
theorem branch_cases (begins : Nat) (vars : HolePunchLoop) (packets : List TimedPacket) :
    timing.branch begins vars packets =
        ⟨timing.sendEnds begins vars, vars.sendBranch (timing.send begins vars.data).2, packets⟩ ∨
      ∃ time received rest, begins ≤ time ∧ rest.Sublist packets ∧ rest.length < packets.length ∧
        (∀ packet ∈ received, packet ∈ packets.map (·.packet)) ∧
        timing.branch begins vars packets = ⟨time, vars.recvBranch timing.addr received, rest⟩ := by
  cases packets with
  | nil => exact Or.inl rfl
  | cons timed packets =>
    simp only [branch]
    split
    · right
      unfold recv
      dsimp only
      split
      · next hbehind =>
        have hqueued : (queued (max begins timed.time) (timed :: packets)).length ≤
            (timed :: packets).length :=
          (List.takeWhile_sublist _).length_le
        refine ⟨_, none, _, le_max_left _ _, List.drop_sublist _ _, ?_,
          (fun _ heq ↦ by cases heq), rfl⟩
        rw [List.length_drop]
        omega
      · refine ⟨_, some timed.packet, _, le_max_left _ _, List.tail_sublist _,
          Nat.lt_succ_self _, ?_, rfl⟩
        intro packet hpacket
        cases hpacket
        exact List.mem_cons_self
    · exact Or.inl rfl

/-- A branch of the `select!` is not taken before the `select!` begins. -/
theorem branch_now (begins : Nat) (vars : HolePunchLoop) (packets : List TimedPacket) :
    begins ≤ (timing.branch begins vars packets).now := by
  rcases timing.branch_cases begins vars packets with
    h | ⟨time, received, rest, htime, -, -, -, h⟩
  · rw [h]
    exact Nat.le_add_right _ _
  · rw [h]
    exact htime

variable (vars) in
/-- `recv` with and without packets of other addresses, when its first packet is related. -/
theorem recv_sameBut {time : Nat} {timed : TimedPacket}
    (hsorted : (timed :: packets).Pairwise (·.time ≤ ·.time)) (hrelated : timing.Related timed)
    (hroom : (queued time (timed :: packets)).length ≤ packetChannelCapacity ∨
      ∀ other ∈ queued time (timed :: packets), timing.Related other) :
    timing.SameBut (timing.recv time vars (timed :: packets))
      (timing.recv time vars ((timed :: packets).filter fun timed ↦ timing.Related timed)) := by
  have hqueued := queued_filter (p := fun timed ↦ timing.Related timed) hsorted time
  unfold recv
  simp only [hqueued]
  rcases hroom with hroom | hall
  · -- the channel does not overflow, so it does not with fewer packets
    have hfewer := (List.length_filter_le (fun timed ↦ decide (timing.Related timed))
      (queued time (timed :: packets))).trans hroom
    rw [if_neg (not_lt.mpr hroom), if_neg (not_lt.mpr hfewer)]
    rw [List.filter_cons_of_pos (by simpa using hrelated)]
    exact ⟨rfl, rfl, rfl⟩
  · -- only related packets are in the channel
    have hsame : (queued time (timed :: packets)).filter (fun timed ↦ timing.Related timed) =
        queued time (timed :: packets) :=
      List.filter_eq_self.mpr fun other hmem ↦ by simpa using hall other hmem
    rw [hsame]
    by_cases hbehind : packetChannelCapacity < (queued time (timed :: packets)).length
    · simp only [if_pos hbehind]
      have hskipped := Nat.sub_le (queued time (timed :: packets)).length packetChannelCapacity
      generalize (queued time (timed :: packets)).length - packetChannelCapacity = skipped
        at hskipped ⊢
      refine ⟨rfl, rfl, ?_⟩
      exact filter_drop_of_queued (fun other hmem ↦ by simpa using hall other hmem) hskipped
    · simp only [if_neg hbehind]
      rw [List.filter_cons_of_pos (by simpa using hrelated)]
      exact ⟨rfl, rfl, rfl⟩

/-- When the call takes its send first, it does so without packets of other addresses. -/
theorem branch_of_send (h : ∀ timed ∈ quiet.head?, ¬timing.TakesRecv begins vars timed) :
    timing.branch begins vars quiet =
      ⟨timing.sendEnds begins vars, vars.sendBranch (timing.send begins vars.data).2, quiet⟩ := by
  cases quiet with
  | nil => rfl
  | cons timed packets =>
    have htimed : ¬timing.TakesRecv begins vars timed := h timed rfl
    simp only [branch, if_neg htimed]

/-- When the call takes its send before the first packet, and this is a related one or arrives
after the send, then it takes it before the first related packet. -/
theorem not_takesRecv_related {timed : TimedPacket}
    (hsorted : (timed :: packets).Pairwise (·.time ≤ ·.time))
    (htakes : ¬timing.TakesRecv begins vars timed)
    (h : timing.Related timed ∨ timing.sendEnds begins vars < timed.time) :
    ∀ other ∈ ((timed :: packets).filter fun timed ↦ timing.Related timed).head?,
      ¬timing.TakesRecv begins vars other := by
  intro other hhead
  rcases h with hrelated | hlater
  · rw [List.filter_cons_of_pos (by simpa using hrelated)] at hhead
    obtain rfl : timed = other := by simpa using hhead
    exact htakes
  · have hmem := List.mem_of_mem_filter (List.mem_of_mem_head? hhead)
    have hless := time_le_of_mem hsorted hmem
    simp only [TakesRecv]
    omega

/-- A `select!` that is undisturbed takes the branch that it takes without packets of other
addresses, or it takes such a packet at once. -/
theorem branch_sameBut (hsorted : packets.Pairwise (·.time ≤ ·.time))
    (h : timing.Undisturbed begins vars packets) :
    timing.SameBut (timing.branch begins vars packets)
        (timing.branch begins vars (packets.filter fun timed ↦ timing.Related timed)) ∨
      timing.branch begins vars packets =
          ⟨begins, .loopHead { vars with wait := false }, packets.tail⟩ ∧
        packets.tail.filter (fun timed ↦ timing.Related timed) =
          packets.filter fun timed ↦ timing.Related timed := by
  cases packets with
  | nil => exact Or.inl ⟨rfl, rfl, rfl⟩
  | cons timed packets =>
    simp only [Undisturbed] at h
    by_cases htakes : timing.TakesRecv begins vars timed
    · rw [if_pos htakes] at h
      obtain ⟨hroom, hat⟩ := h
      by_cases hrelated : timing.Related timed
      · left
        have hsame := timing.recv_sameBut vars hsorted hrelated hroom
        rw [List.filter_cons_of_pos (by simpa using hrelated)] at hsame ⊢
        simp only [branch, if_pos htakes]
        exact hsame
      · right
        have htime : timed.time ≤ begins := hat.resolve_left hrelated
        have hfull : (queued begins (timed :: packets)).length ≤ packetChannelCapacity := by
          rw [max_eq_left htime] at hroom
          refine hroom.resolve_right fun hall ↦ hrelated (hall timed ?_)
          unfold queued
          rw [List.takeWhile_cons_of_pos (by simpa using htime)]
          exact List.mem_cons_self
        simp only [branch, if_pos htakes, recv, max_eq_left htime, if_neg (not_lt.mpr hfull)]
        refine ⟨?_, ?_⟩
        · have hsource : ¬timed.packet.source = timing.addr := hrelated
          simp [HolePunchLoop.recvBranch, hsource]
        · rw [List.filter_cons_of_neg (by simpa using hrelated), List.tail_cons]
    · rw [if_neg htakes] at h
      left
      have hquiet := timing.not_takesRecv_related hsorted htakes h
      rw [branch_of_send timing hquiet, branch_of_send timing (by simpa using htakes)]
      exact ⟨rfl, rfl, rfl⟩

/-- The same for the iteration, which may also be out of time. -/
theorem select_sameBut (hsorted : packets.Pairwise (·.time ≤ ·.time))
    (h : timing.Undisturbed begins vars packets) :
    timing.SameBut (timing.select begins vars packets)
        (timing.select begins vars (packets.filter fun timed ↦ timing.Related timed)) ∨
      timing.select begins vars packets =
          ⟨begins, .loopHead { vars with wait := false }, packets.tail⟩ ∧
        packets.tail.filter (fun timed ↦ timing.Related timed) =
          packets.filter fun timed ↦ timing.Related timed := by
  unfold select
  dsimp only
  rcases branch_sameBut timing hsorted h with hsame | ⟨hahead, htail⟩
  · left
    rw [← hsame.now]
    split
    · exact hsame
    · exact ⟨rfl, rfl, rfl⟩
  · rw [hahead]
    by_cases hbegins : begins ≤ holepunchTimeout
    · exact Or.inr ⟨if_pos hbegins, htail⟩
    · left
      have hquiet := timing.branch_now begins vars
        (packets.filter fun timed ↦ timing.Related timed)
      rw [if_neg hbegins, if_neg (by omega)]
      exact ⟨rfl, rfl, rfl⟩

/-- Whether the call has waited before does not matter to the rest of an iteration. -/
theorem select_wait (begins : Nat) (vars : HolePunchLoop) (wait : Bool)
    (packets : List TimedPacket) :
    timing.select begins { vars with wait := wait } packets =
      timing.select begins vars packets := by
  have hbranch : timing.branch begins { vars with wait := wait } packets =
      timing.branch begins vars packets := by
    cases packets with
    | nil => simp only [branch, sendEnds, HolePunchLoop.sendBranch_wait]
    | cons timed packets =>
      have hsame : timing.TakesRecv begins { vars with wait := wait } timed ↔
          timing.TakesRecv begins vars timed := Iff.rfl
      by_cases htakes : timing.TakesRecv begins vars timed
      · simp only [branch, if_pos htakes, if_pos (hsame.mpr htakes), recv,
          HolePunchLoop.recvBranch_wait]
      · simp only [branch, if_neg htakes, if_neg (mt hsame.mp htakes), sendEnds,
          HolePunchLoop.sendBranch_wait]
  unfold select
  rw [hbranch]

/-! ### Whole runs -/

/-- One call is a run without the packets of other addresses behind the other, which has perhaps
received some of them at the beginning of the `select!` that they are both at. -/
inductive Follows (call quiet : TimedHolePunch) : Prop where
  | same (h : timing.SameBut call quiet)
  | ahead (vars : HolePunchLoop) (hstage : call.stage = .loopHead { vars with wait := false })
      (hquiet : quiet.stage = .loopHead vars)
      (hnow : call.now = timing.selectBegins quiet.now vars)
      (hpackets : call.packets.filter (fun timed ↦ timing.Related timed) = quiet.packets)

/-- Both calls are at the beginning of the same `select!`. -/
theorem Follows.loopHead {timing : PunchTiming} {call quiet : TimedHolePunch}
    {vars : HolePunchLoop} (h : timing.Follows call quiet) (hstage : call.stage = .loopHead vars) :
    ∃ wait, quiet.stage = .loopHead { vars with wait := wait } ∧
      timing.selectBegins call.now vars =
        timing.selectBegins quiet.now { vars with wait := wait } ∧
      call.packets.filter (fun timed ↦ timing.Related timed) = quiet.packets := by
  cases h with
  | same h =>
    refine ⟨vars.wait, ?_, ?_, h.packets⟩
    · rw [← h.stage, hstage]
    · rw [h.now]
  | ahead vars' hahead hquiet hnow hpackets =>
    obtain rfl : vars = { vars' with wait := false } := by
      rw [hstage] at hahead
      exact HolePunchStage.loopHead.inj hahead
    refine ⟨vars'.wait, hquiet, ?_, hpackets⟩
    rw [hnow]
    rfl

theorem turn_loopHead {call : TimedHolePunch} (hstage : call.stage = .loopHead vars) :
    timing.turn call = timing.select (timing.selectBegins call.now vars) vars call.packets := by
  unfold turn
  rw [hstage]

theorem turn_of_ne {call : TimedHolePunch} (hstage : ∀ vars, call.stage ≠ .loopHead vars) :
    timing.turn call = call := by
  unfold turn
  split
  · next vars h => exact absurd h (hstage vars)
  · rfl

theorem turn_returned {call : TimedHolePunch} {result : Except HolePunchError Unit}
    (hstage : call.stage = .returned result) : timing.turn call = call := by
  apply turn_of_ne
  intro vars
  rw [hstage]
  exact HolePunchStage.noConfusion

theorem select_packets (begins : Nat) (vars : HolePunchLoop) (packets : List TimedPacket) :
    (timing.select begins vars packets).packets.Sublist packets := by
  unfold select
  dsimp only
  split
  · rcases timing.branch_cases begins vars packets with h | ⟨_, _, rest, -, hrest, -, -, h⟩
    · rw [h]
    · rw [h]
      exact hrest
  · exact List.Sublist.refl packets

theorem turn_packets (call : TimedHolePunch) :
    (timing.turn call).packets.Sublist call.packets := by
  unfold turn
  split
  · exact timing.select_packets _ _ _
  · exact List.Sublist.refl _

/-- An undisturbed iteration is one without the packets of other addresses, or the beginning of
one. -/
theorem Follows.turn {timing : PunchTiming} {call quiet : TimedHolePunch}
    (h : timing.Follows call quiet) (hsorted : call.packets.Pairwise (·.time ≤ ·.time))
    (hundisturbed : call.Undisturbed timing) :
    timing.Follows (timing.turn call) quiet ∨
      timing.Follows (timing.turn call) (timing.turn quiet) := by
  by_cases hrunning : ∃ vars, call.stage = .loopHead vars
  · obtain ⟨vars, hstage⟩ := hrunning
    obtain ⟨wait, hquiet, hbegins, hpackets⟩ := h.loopHead hstage
    have hselect : timing.Undisturbed (timing.selectBegins call.now vars) vars call.packets := by
      simpa only [TimedHolePunch.Undisturbed, hstage] using hundisturbed
    rw [timing.turn_loopHead hstage, timing.turn_loopHead hquiet, ← hbegins, select_wait,
      ← hpackets]
    rcases timing.select_sameBut hsorted hselect with hsame | ⟨hahead, htail⟩
    · exact Or.inr (.same hsame)
    · left
      rw [hahead]
      exact .ahead { vars with wait := wait } rfl hquiet hbegins (htail.trans hpackets)
  · right
    rw [timing.turn_of_ne fun vars hvars ↦ hrunning ⟨vars, hvars⟩]
    cases h with
    | same hsame =>
      rw [timing.turn_of_ne fun vars hvars ↦ hrunning ⟨vars, hsame.stage.trans hvars⟩]
      exact .same hsame
    | ahead vars hstage => exact absurd ⟨_, hstage⟩ hrunning

end PunchTiming

/-! ### An iteration is a run of the call -/

namespace HolePunchPeer

/-- What happens to a call: it runs, the send task handles a request, or its socket receives. -/
inductive Event where
  | run (action : Action)
  | transmit (result : Except HolePunchError Unit)
  | deliver (packet : IncomingHolepunchPacket)

/-- The call after an event. -/
def step (call : HolePunchPeer) : Event → HolePunchPeer
  | .run action => (call.next action).1
  | .transmit result => (call.transmit result).1
  | .deliver packet => call.deliver packet

end HolePunchPeer

/-- The call with a clock is at the same place as the one without, with no packets between the
latter and its socket. -/
structure TimedHolePunch.Matches (timing : PunchTiming) (call : TimedHolePunch)
    (peer : HolePunchPeer) : Prop where
  addr : peer.addr = timing.addr
  stage : peer.stage = call.stage
  outgoing : peer.socket.outgoing = []
  incoming : peer.socket.incoming = []

namespace PunchTiming

variable (timing : PunchTiming)

/-- Events that take a call from an iteration to the next with a packet sent. -/
def sendEvents (result : Except HolePunchError Unit) : List HolePunchPeer.Event :=
  [.run .beginIteration, .run .send, .transmit result, .run .takeSend]

/-- Events that take a call from an iteration to the next with a packet or an error received. -/
def recvEvents : Option IncomingHolepunchPacket → List HolePunchPeer.Event
  | some packet => [.run .beginIteration, .deliver packet, .run .takeRecv]
  | none => [.run .beginIteration, .run (.takeLagged 0)]

variable {timing} {call : TimedHolePunch} {peer : HolePunchPeer} {vars : HolePunchLoop}

theorem matches_send (h : call.Matches timing peer) (hstage : call.stage = .loopHead vars)
    (result : Except HolePunchError Unit) (now : Nat) (packets : List TimedPacket) :
    TimedHolePunch.Matches timing ⟨now, vars.sendBranch result, packets⟩
      (finalState HolePunchPeer.step peer (sendEvents result)) := by
  obtain ⟨addr, ⟨address, outgoing, incoming⟩, stage⟩ := peer
  obtain ⟨rfl, hpeer, rfl, rfl⟩ := h
  obtain rfl : stage = .loopHead vars := hpeer.trans hstage
  exact ⟨rfl, rfl, rfl, rfl⟩

theorem matches_recv (h : call.Matches timing peer) (hstage : call.stage = .loopHead vars)
    (received : Option IncomingHolepunchPacket) (now : Nat) (packets : List TimedPacket) :
    TimedHolePunch.Matches timing ⟨now, vars.recvBranch timing.addr received, packets⟩
      (finalState HolePunchPeer.step peer (recvEvents received)) := by
  obtain ⟨addr, ⟨address, outgoing, incoming⟩, stage⟩ := peer
  obtain ⟨rfl, hpeer, rfl, rfl⟩ := h
  obtain rfl : stage = .loopHead vars := hpeer.trans hstage
  cases received with
  | none => exact ⟨rfl, rfl, rfl, rfl⟩
  | some packet => exact ⟨rfl, rfl, rfl, rfl⟩

/-- Each iteration is a run of the call in which the socket gets only packets of the traffic. -/
theorem turn_matches (h : call.Matches timing peer) :
    ∃ events, (timing.turn call).Matches timing (finalState HolePunchPeer.step peer events) ∧
      ∀ packet, .deliver packet ∈ events → packet ∈ call.packets.map (·.packet) := by
  by_cases hrunning : ∃ vars, call.stage = .loopHead vars
  · obtain ⟨vars, hstage⟩ := hrunning
    rw [timing.turn_loopHead hstage, select]
    split
    · rcases timing.branch_cases (timing.selectBegins call.now vars) vars call.packets with
        hsend | ⟨time, received, rest, -, -, -, hreceived, hrecv⟩
      · rw [hsend]
        exact ⟨_, matches_send h hstage _ _ _, by simp [sendEvents]⟩
      · rw [hrecv]
        refine ⟨_, matches_recv h hstage received _ _, ?_⟩
        cases received with
        | none => simp [recvEvents]
        | some other =>
          intro packet hmem
          obtain rfl : packet = other := by simpa [recvEvents] using hmem
          exact hreceived packet rfl
    · refine ⟨[.run .timeout], ?_, by simp⟩
      obtain ⟨addr, ⟨address, outgoing, incoming⟩, stage⟩ := peer
      obtain ⟨rfl, hpeer, rfl, rfl⟩ := h
      obtain rfl : stage = .loopHead vars := hpeer.trans hstage
      exact ⟨rfl, rfl, rfl, rfl⟩
  · refine ⟨[], ?_, by simp⟩
    rw [timing.turn_of_ne fun vars hvars ↦ hrunning ⟨vars, hvars⟩]
    exact h

end PunchTiming

/-! ### Every call returns -/

/-- The call has returned. -/
def TimedHolePunch.Done (call : TimedHolePunch) : Prop := ∃ result, call.stage = .returned result

/-- An iteration takes a packet, or begins a wait, or takes time. -/
def TimedHolePunch.remaining (call : TimedHolePunch) : Nat :=
  let waits := match call.stage with
    | .loopHead vars => if vars.wait then 0 else 1
    | _ => 0
  2 * call.packets.length + waits + (holepunchTimeout - call.now)

namespace PunchTiming

variable (timing : PunchTiming)

end PunchTiming

/-! ### How packets of other addresses do harm -/

namespace PunchTiming

variable (timing : PunchTiming) {begins : Nat} {vars : HolePunchLoop} {noise : TimedPacket}

end PunchTiming

/-! ### Two runs with the same packets from the remote address -/

namespace PunchTraffic

variable (timing : PunchTiming) (traffic : PunchTraffic)

theorem after_succ (n : Nat) :
    traffic.after timing (n + 1) = timing.turn (traffic.after timing n) :=
  Function.iterate_succ_apply' timing.turn n traffic.start

theorem after_packets (n : Nat) : (traffic.after timing n).packets.Sublist traffic.packets := by
  induction n with
  | zero => exact List.Sublist.refl _
  | succ n ih =>
    rw [after_succ]
    exact (timing.turn_packets _).trans ih

/-- A run of iterations is a run of the call in which the socket gets only packets of the
traffic. -/
theorem after_matches {timing : PunchTiming} {traffic : PunchTraffic} {peer : HolePunchPeer}
    (h : traffic.start.Matches timing peer) (n : Nat) :
    ∃ events, (traffic.after timing n).Matches timing
        (finalState HolePunchPeer.step peer events) ∧
      ∀ packet, .deliver packet ∈ events → packet ∈ traffic.packets.map (·.packet) := by
  induction n with
  | zero => exact ⟨[], h, by simp⟩
  | succ n ih =>
    obtain ⟨events, hevents, hpackets⟩ := ih
    obtain ⟨more, hmore, hmorePackets⟩ := PunchTiming.turn_matches hevents
    refine ⟨events ++ more, ?_, ?_⟩
    · rw [after_succ, finalState_append]
      exact hmore
    · intro packet hmem
      rcases List.mem_append.mp hmem with hmem | hmem
      · exact hpackets packet hmem
      · exact ((traffic.after_packets timing n).map _).subset (hmorePackets packet hmem)

/-- Nothing changes after the call has returned. -/
theorem after_of_returned {n m : Nat} {result : Except HolePunchError Unit}
    (h : (traffic.after timing n).stage = .returned result) (hle : n ≤ m) :
    traffic.after timing m = traffic.after timing n := by
  induction m, hle using Nat.le_induction with
  | base => rfl
  | succ m hle ih =>
    rw [after_succ, ih]
    exact timing.turn_returned h

/-- A call returns one result. -/
theorem Returns.unique {timing : PunchTiming} {traffic : PunchTraffic}
    {result result' : Except HolePunchError Unit} (h : traffic.Returns timing result)
    (h' : traffic.Returns timing result') : result = result' := by
  obtain ⟨n, hn⟩ := h
  obtain ⟨m, hm⟩ := h'
  have hlast := traffic.after_of_returned timing hn (le_max_left n m)
  rw [traffic.after_of_returned timing hm (le_max_right n m)] at hlast
  rw [hlast, hn] at hm
  exact HolePunchStage.returned.inj hm

/-- The traffic without the packets of other addresses. -/
def quiet : PunchTraffic where
  packets := traffic.related timing
  inOrder := traffic.inOrder.filter _

end PunchTraffic

/-- A packet that the `select!` takes before a send finished at the same time. -/
def TimedPacket.received (millis : Nat) (data : UInt8) (source : SocketAddr) : TimedPacket :=
  ⟨millis * nanosPerMilli, ⟨data, source⟩, fun _ ↦ true⟩

namespace PunchTraffic

end PunchTraffic

end HarddriveParty
