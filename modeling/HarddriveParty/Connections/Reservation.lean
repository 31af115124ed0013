import HarddriveParty.Base.Registry
import HarddriveParty.Base.Runs
import HarddriveParty.Connections.PeerMap

/-!
# One outbound dial per peer

A task of `spawn_outbound_connect` reserves the name of its peer before it dials and releases it
afterwards. It looks at the reservations twice, but only the second look and the insertion are one
lock scope. The reserved names are exactly those of the tasks that dial, one task for each name.
-/

namespace HarddriveParty

open Runs

/-- The task is between its reservation and its release. -/
def OutboundConnect.reserved : OutboundConnect → Bool
  | connect => true
  | release _ => true
  | _ => false

/-- What a task has reserved. -/
def reservation : DiscoveredPeer × OutboundConnect → Option (String × Unit)
  | (peer, outboundConnect) =>
    if outboundConnect.reserved then some (peer.announceAddress.name, ()) else none

namespace Hdp

/-- The task with this index has reserved the name. -/
def Reserves (hdp : Hdp) (i : Nat) (name : String) : Prop :=
  ∃ peer outboundConnect, hdp.outbound[i]? = some (peer, outboundConnect) ∧
    outboundConnect.reserved = true ∧ peer.announceAddress.name = name

/-- At most one task has reserved a name, and one has exactly when the name is reserved. -/
structure ReservedOnce (hdp : Hdp) : Prop where
  unique : ∀ name i j, hdp.Reserves i name → hdp.Reserves j name → i = j
  pending : ∀ name, name ∈ hdp.node.pendingOutboundConnections ↔ ∃ i, hdp.Reserves i name

/-- What a task has reserved stays reserved in the steps of the others. -/
def ReleasesOwn (hdp : Hdp) : Action → Prop
  | .runOutbound i result => ∀ j name, j ≠ i → hdp.Reserves j name →
      (hdp.step (.runOutbound i result)).Reserves j name ∧
        name ∈ (hdp.step (.runOutbound i result)).node.pendingOutboundConnections
  | _ => True

end Hdp

/-! ### What a step does to the reservations -/

section Registry

/-- The reserved names, and who has reserved them. -/
def NodeState.reservations (node : NodeState) (holds : Nat → Option (String × Unit)) :
    Registry Nat String Unit where
  entry name := if name ∈ node.pendingOutboundConnections then some () else none
  holds := holds

variable {node : NodeState} {holds : Nat → Option (String × Unit)} {i : Nat}

private theorem reservations_idle {node' : NodeState}
    (hpending : node'.pendingOutboundConnections = node.pendingOutboundConnections)
    {held : Option (String × Unit)} (hheld : held = holds i) :
    (node.reservations holds).Moves (node'.reservations (Function.update holds i held)) := by
  subst hheld
  simp only [NodeState.reservations, hpending, Function.update_eq_self]
  exact .idle

private theorem reserve_eq (name : String) :
    NodeState.reservations
        { node with pendingOutboundConnections := insert name node.pendingOutboundConnections }
        (Function.update holds i (some (name, ()))) =
      (node.reservations holds).enter i name () := by
  simp only [NodeState.reservations, Registry.enter]
  congr 1
  funext other
  by_cases hother : other = name <;> simp [hother]

private theorem release_eq (name : String) :
    NodeState.reservations
        { node with pendingOutboundConnections := node.pendingOutboundConnections.erase name }
        (Function.update holds i none) =
      (node.reservations holds).leave i name () := by
  simp only [NodeState.reservations, Registry.leave]
  congr 1
  funext other
  by_cases hother : other = name
  · subst hother
    by_cases hmem : other ∈ node.pendingOutboundConnections <;> simp [hmem]
  · by_cases hmem : name ∈ node.pendingOutboundConnections <;> simp [hmem, hother]

/-- A step of a task reserves the name of its peer if it is not reserved, releases it, or leaves
the reservations alone. -/
theorem OutboundConnect.next_moves (peer : DiscoveredPeer) (outboundConnect : OutboundConnect)
    (result : Except UiServerError Connected)
    (hheld : holds i = reservation (peer, outboundConnect)) :
    (node.reservations holds).Moves ((outboundConnect.next peer node result).1.reservations
      (Function.update holds i
        (reservation (peer, (outboundConnect.next peer node result).2.1)))) := by
  cases outboundConnect with
  | checkPending =>
    simp only [OutboundConnect.next]
    split <;> exact reservations_idle rfl hheld.symm
  | checkPeers =>
    simp only [OutboundConnect.next]
    split <;> exact reservations_idle rfl hheld.symm
  | reserve =>
    simp only [OutboundConnect.next]
    split
    · exact reservations_idle rfl hheld.symm
    · simp only [reservation, reserved, if_true, reserve_eq]
      exact .enter i peer.announceAddress.name () hheld
  | connect =>
    simp only [OutboundConnect.next]
    split
    · split <;> exact reservations_idle rfl hheld.symm
    · exact reservations_idle rfl hheld.symm
  | release result =>
    have hstage : reservation (peer, ((release result).next peer node ‹_›).2.1) = none := by
      cases result <;> rfl
    rw [hstage]
    simp only [OutboundConnect.next, release_eq]
    exact .leave i peer.announceAddress.name () hheld
  | fail err => exact reservations_idle rfl hheld.symm
  | finished => exact reservations_idle rfl hheld.symm

/-- A name is reserved only when it is not. -/
theorem OutboundConnect.next_reserves {peer : DiscoveredPeer} {outboundConnect : OutboundConnect}
    {result : Except UiServerError Connected} (hbefore : outboundConnect.reserved = false)
    (hafter : (outboundConnect.next peer node result).2.1.reserved = true) :
    peer.announceAddress.name ∉ node.pendingOutboundConnections := by
  cases outboundConnect with
  | checkPending =>
    simp only [OutboundConnect.next] at hafter
    split at hafter <;> cases hafter
  | checkPeers =>
    simp only [OutboundConnect.next] at hafter
    split at hafter <;> cases hafter
  | reserve =>
    simp only [OutboundConnect.next] at hafter
    split at hafter
    · cases hafter
    · assumption
  | connect => cases hbefore
  | release result => cases hbefore
  | fail err => cases hafter
  | finished => cases hafter

end Registry

namespace Hdp

variable {hdp : Hdp} {action : Action}

/-- The reserved names of a node, and the tasks that have reserved them. -/
def reservations (hdp : Hdp) : Registry Nat String Unit :=
  hdp.node.reservations (heldBy reservation hdp.outbound)

private theorem reservations_eq {hdp' : Hdp}
    (hpending : hdp'.node.pendingOutboundConnections = hdp.node.pendingOutboundConnections)
    (houtbound : heldBy reservation hdp'.outbound = heldBy reservation hdp.outbound) :
    hdp'.reservations = hdp.reservations := by
  simp only [reservations, NodeState.reservations, hpending, houtbound]

private theorem runOutbound_reservations {i : Nat} {peer : DiscoveredPeer}
    {outboundConnect : OutboundConnect}
    (houtbound : hdp.outbound[i]? = some (peer, outboundConnect))
    (result : Except UiServerError Connected) :
    (hdp.runOutbound i result).reservations =
      (outboundConnect.next peer hdp.node result).1.reservations
        (Function.update (heldBy reservation hdp.outbound) i
          (reservation (peer, (outboundConnect.next peer hdp.node result).2.1))) := by
  have hlt : i < hdp.outbound.length := (List.getElem?_eq_some_iff.mp houtbound).1
  simp only [reservations, runOutbound, houtbound, heldBy_set hlt]

private theorem runMainLoop_reservations (input : Input) :
    (hdp.runMainLoop input).reservations = hdp.reservations := by
  apply reservations_eq (congrArg (·.pendingOutboundConnections) (hdp.runMainLoop_node input).1)
  unfold runMainLoop
  split
  · split <;> rfl
  · split
    · rfl
    · -- a new task has not reserved anything
      exact heldBy_append (by simp [reservation, OutboundConnect.reserved])
  · split <;> rfl
  · split <;> rfl
  · rfl
  · rfl
  · rfl

private theorem runAnnouncement_reservations (sockets : Sockets) (holePuncher : HolePuncher) :
    (hdp.runAnnouncement sockets holePuncher).reservations = hdp.reservations := by
  unfold runAnnouncement
  split
  · split <;> rfl
  · rfl
  · dsimp only
    split <;> rfl

/-- Only a step of a task of `spawn_outbound_connect` changes the reservations. -/
theorem step_reservations (haction : ∀ i result, action ≠ .runOutbound i result) :
    (hdp.step action).reservations = hdp.reservations := by
  cases action with
  | runOutbound i result => exact absurd rfl (haction i result)
  | lose conn error => exact reservations_eq (by simp [step, stepRuntime, Runtime.step]) rfl
  | runTask i answer =>
    cases htask : hdp.tasks[i]? with
    | none => rw [runTask_eq_self htask]
    | some task =>
      have hnode := (runTask_eq htask answer).1
      exact reservations_eq (by rw [hnode, (task.next_keeps hdp.node answer).2]) rfl
  | runMainLoop input => exact runMainLoop_reservations input
  | runAnnouncement sockets holePuncher => exact runAnnouncement_reservations sockets holePuncher
  | _ => rfl

/-- A step reserves a name, releases one, or leaves the reservations alone. -/
theorem step_moves (hdp : Hdp) (action : Action) :
    hdp.reservations.Moves (hdp.step action).reservations := by
  by_cases haction : ∃ i result, action = .runOutbound i result
  · obtain ⟨i, result, rfl⟩ := haction
    cases houtbound : hdp.outbound[i]? with
    | none =>
      simp only [step, runOutbound, houtbound]
      exact .idle
    | some task =>
      simp only [step, runOutbound_reservations houtbound]
      exact task.2.next_moves task.1 result (heldBy_of_getElem? houtbound)
  · rw [step_reservations fun i result h ↦ haction ⟨i, result, h⟩]
    exact .idle

private theorem reserves_iff {i : Nat} {name : String} :
    hdp.Reserves i name ↔ hdp.reservations.holds i = some (name, ()) := by
  simp only [reservations, NodeState.reservations, heldBy_eq_some]
  constructor
  · rintro ⟨peer, outboundConnect, houtbound, hreserved, rfl⟩
    exact ⟨_, houtbound, by simp [reservation, hreserved]⟩
  · rintro ⟨⟨peer, outboundConnect⟩, houtbound, hreservation⟩
    cases hreserved : outboundConnect.reserved with
    | true =>
      refine ⟨peer, outboundConnect, houtbound, hreserved, ?_⟩
      simpa [reservation, hreserved] using hreservation
    | false => simp [reservation, hreserved] at hreservation

private theorem pending_iff {name : String} :
    name ∈ hdp.node.pendingOutboundConnections ↔ hdp.reservations.entry name = some () := by
  simp [reservations, NodeState.reservations]

/-- A name is reserved only while it is free. -/
private theorem step_guard (i : Nat) (name : String) (u : Unit)
    (hbefore : hdp.reservations.holds i = none)
    (hafter : (hdp.step action).reservations.holds i = some (name, u)) :
    hdp.reservations.entry name = none := by
  by_cases haction : ∃ j result, action = .runOutbound j result
  · obtain ⟨j, result, rfl⟩ := haction
    cases houtbound : hdp.outbound[j]? with
    | none =>
      simp only [step, runOutbound, houtbound] at hafter
      cases hbefore.symm.trans hafter
    | some task =>
      simp only [step, runOutbound_reservations houtbound] at hafter
      by_cases hij : i = j
      · subst hij
        simp only [NodeState.reservations, Function.update_self, reservation] at hafter
        have hheld : reservation task = none := (heldBy_of_getElem? houtbound).symm.trans hbefore
        have hstage : task.2.reserved = false := by
          by_contra hreserved
          simp [reservation, hreserved] at hheld
        split at hafter
        · next hreserved =>
          cases hafter
          have hfree := OutboundConnect.next_reserves hstage hreserved
          simpa [reservations, NodeState.reservations] using hfree
        · cases hafter
      · simp only [NodeState.reservations, Function.update_of_ne hij] at hafter
        cases hbefore.symm.trans hafter
  · rw [step_reservations fun j result h ↦ haction ⟨j, result, h⟩] at hafter
    cases hbefore.symm.trans hafter

/-- Every reservation has one owner. -/
structure Reserved (hdp : Hdp) : Prop where
  owned : hdp.reservations.Owned
  exclusive : hdp.reservations.Exclusive

theorem Reserved.step (h : hdp.Reserved) (action : Action) : (hdp.step action).Reserved :=
  ⟨h.owned.moves (hdp.step_moves action), h.exclusive.moves (hdp.step_moves action) step_guard⟩

theorem Reserved.reservedOnce (h : hdp.Reserved) : hdp.ReservedOnce := by
  constructor
  · intro name i j hi hj
    exact h.exclusive.unique i j name () () (reserves_iff.mp hi) (reserves_iff.mp hj)
  · intro name
    rw [pending_iff]
    constructor
    · intro hentry
      obtain ⟨i, hi⟩ := h.owned name () hentry
      exact ⟨i, reserves_iff.mpr hi⟩
    · rintro ⟨i, hi⟩
      exact h.exclusive.entered i name () (reserves_iff.mp hi)

theorem Reserved.releasesOwn (h : hdp.Reserved) (action : Action) : hdp.ReleasesOwn action := by
  cases action with
  | runOutbound i result =>
    intro j name hji hj
    have hkeeps : (hdp.step (.runOutbound i result)).Reserves j name := by
      obtain ⟨peer, outboundConnect, houtbound, hreserved, hname⟩ := hj
      refine ⟨peer, outboundConnect, ?_, hreserved, hname⟩
      simp only [Hdp.step, runOutbound]
      split
      · exact houtbound
      · simpa only [List.getElem?_set_ne (Ne.symm hji)] using houtbound
    exact ⟨hkeeps, ((h.step _).reservedOnce.pending name).mpr ⟨j, hkeeps⟩⟩
  | _ => trivial

private theorem reserved_start (announceAddress : AnnounceAddress)
    (knownPeers : AList fun _ : String ↦ PeerConnectionDetails) :
    (start announceAddress knownPeers).Reserved := by
  have hnew : ∀ task ∈ (start announceAddress knownPeers).outbound, reservation task = none := by
    rintro ⟨peer, outboundConnect⟩ htask
    obtain ⟨⟨name, details⟩, -, hdial⟩ := List.mem_filterMap.mp htask
    cases details <;> cases hdial
    rfl
  have hholds (i : Nat) : (start announceAddress knownPeers).reservations.holds i = none := by
    have hnone : heldBy reservation ([] ++ (start announceAddress knownPeers).outbound) i =
        heldBy reservation [] i := congrFun (heldBy_append hnew) i
    simpa [reservations, NodeState.reservations, heldBy] using hnone
  constructor
  · intro name u hentry
    cases hentry
  · constructor
    · intro i name u hi
      cases (hholds i).symm.trans hi
    · intro i j name u v hi
      cases (hholds i).symm.trans hi

/-- In every run of a node, for any number of tasks that dial any peers and however they interleave
with what happens to the map of peers: at most one task has reserved a name, a name is reserved
exactly when one has, and no task releases what another has reserved. -/
theorem reserved_once (announceAddress : AnnounceAddress)
    (knownPeers : AList fun _ : String ↦ PeerConnectionDetails) (actions : List Action) :
    EachState step ReservedOnce (start announceAddress knownPeers) actions ∧
      EachStep step ReleasesOwn (start announceAddress knownPeers) actions := by
  have hstart := reserved_start announceAddress knownPeers
  have hfree : EachStep step (fun _ _ ↦ True) (start announceAddress knownPeers) actions :=
    eachStep_of_forall fun _ _ ↦ trivial
  constructor
  · exact (eachState_of_invariant hstart hfree fun hdp action h _ ↦ h.step action).mono
      fun hdp h ↦ h.reservedOnce
  · exact eachStep_of_invariant hstart hfree (fun hdp action h _ ↦ h.step action)
      fun hdp action h _ ↦ h.releasesOwn action

end Hdp

end HarddriveParty
