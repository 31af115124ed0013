import HarddriveParty.Base.Broadcast
import HarddriveParty.Base.Runs
import HarddriveParty.Streams.EventMessages

/-!
# The events that a UI gets to see

Model of the way of an event from the node to the user interfaces: the broadcast channel
(`src/lib.rs:118`), the websockets that it is written to (`src/ui_server/ws.rs`) and the loops of
the UIs that read them and connect again (`web-ui/src/ws.rs`). Sockets are served and read at their
own pace, and break at any time. On each socket a UI sees the events from some event on without a
gap, and over all its sockets it sees no event twice and none out of order.
-/

namespace HarddriveParty

open Broadcast Runs

/-- A websocket between the node and a UI: the place at which its receiver has subscribed and the
one at which it is, whether `handle_socket` still runs, whether the connection is lost, the
messages that the UI has not read, and the events that it has read. -/
structure EventSocket where
  subscribed : Nat
  next : Nat
  serving : Bool
  lost : Bool
  wire : List Bytes
  shown : List UiEvent
  deriving DecidableEq, Repr

/-- The loop of a UI that reads events (`web-ui/src/ws.rs:37`): the socket that it reads, those that
it has read before, the seconds to the next attempt, and whether the UI tells its user that it has
no connection. -/
structure WebsocketService where
  current : Option EventSocket
  past : List EventSocket
  retryDelay : Nat
  wsConnectionError : Bool
  deriving DecidableEq, Repr

/-- The number of events that the channel keeps (`src/lib.rs:118`). -/
def eventCapacity : Nat := 65536

namespace EventSocket

variable (sent : List UiEvent) (s : EventSocket)

/-- A socket that is opened: `handle_socket` subscribes (`src/ui_server/ws.rs:8`). -/
def opened : EventSocket := ⟨sent.length, sent.length, true, false, [], []⟩

/-- One round of `handle_socket` (`src/ui_server/ws.rs:10`). A receiver that lags behind ends it, as
does a socket that cannot be written to. -/
def serve (nanos : Nanos) : EventSocket :=
  if s.serving then
    match recv eventCapacity sent s.next with
    | .value event =>
      if s.lost then { s with next := s.next + 1, serving := false }
      else { s with next := s.next + 1, wire := s.wire ++ [event.serialize nanos] }
    | .empty => s
    | .lagged _ => { s with serving := false }
  else s

/-- The connection is lost, and of the messages on the wire only the first arrive. -/
def lose (arriving : Nat) : EventSocket := { s with lost := true, wire := s.wire.take arriving }

end EventSocket

namespace WebsocketService

variable (errorText : Bytes → String) (ui : WebsocketService)

/-- A UI that has just been opened (`web-ui/src/ws.rs:42`). -/
def new : WebsocketService := ⟨none, [], 3, false⟩

/-- Say that there is no connection, and wait longer the next time (`web-ui/src/ws.rs:84`). -/
def retry : WebsocketService :=
  { ui with
    current := none
    past := ui.past ++ ui.current.toList
    retryDelay := min (ui.retryDelay * 2) 30
    wsConnectionError := true }

/-- Connect (`web-ui/src/ws.rs:46`), if there is no connection. -/
def connect (sent : List UiEvent) (success : Bool) : WebsocketService :=
  match ui.current with
  | some _ => ui
  | none =>
    if success then { ui with current := some (.opened sent), wsConnectionError := false }
    else ui.retry

/-- Read the next message or the end of the socket (`web-ui/src/ws.rs:53`). What cannot be decoded
is left out. -/
def read : WebsocketService :=
  match ui.current with
  | none => ui
  | some s =>
    match s.wire with
    | message :: wire =>
      match UiEvent.deserialize errorText message with
      | .ok event =>
        { ui with current := some { s with wire := wire, shown := s.shown ++ [event] } }
      | .error _ => { ui with current := some { s with wire := wire } }
    | [] => if s.serving ∧ ¬s.lost then ui else ui.retry

end WebsocketService

/-- The events that the node has sent, and the UIs. -/
structure EventSockets where
  sent : List UiEvent
  uis : List WebsocketService
  deriving DecidableEq, Repr

namespace EventSockets

/-- What can happen next. A socket that a UI has left may still be served; of that nothing is
read. -/
inductive Action where
  | sendEvent (event : UiEvent)
  | openUi
  | connect (ui : Nat) (success : Bool)
  | serve (ui : Nat) (nanos : Nanos)
  | lose (ui : Nat) (arriving : Nat)
  | read (ui : Nat)

/-- No event has been sent, and no UI is open. -/
def start : EventSockets := ⟨[], []⟩

variable (errorText : Bytes → String)

/-- The events and the UIs after an action. -/
def step (r : EventSockets) : Action → EventSockets
  | .sendEvent event => { r with sent := r.sent ++ [event] }
  | .openUi => { r with uis := r.uis ++ [.new] }
  | .connect ui success => { r with uis := r.uis.modify ui (·.connect r.sent success) }
  | .serve ui nanos =>
    { r with uis := r.uis.modify ui fun ui ↦
        { ui with current := ui.current.map (·.serve r.sent nanos) } }
  | .lose ui arriving =>
    { r with uis := r.uis.modify ui fun ui ↦
        { ui with current := ui.current.map (·.lose arriving) } }
  | .read ui => { r with uis := r.uis.modify ui (·.read errorText) }

end EventSockets

/-! ### What a socket has shown -/

/-- What a socket has shown and what is on its wire were sent without a gap, and this is all that
its receiver was given as long as it is served. -/
def EventSocket.Sound (errorText : Bytes → String) (sent : List UiEvent) (s : EventSocket) : Prop :=
  ∃ onWire : List UiEvent, s.wire.map (UiEvent.deserialize errorText) = onWire.map .ok ∧
    Given sent s.subscribed (s.subscribed + (s.shown ++ onWire).length) (s.shown ++ onWire) ∧
    (s.serving = true → s.lost = false → s.next = s.subscribed + (s.shown ++ onWire).length)

namespace EventSocket

variable {errorText : Bytes → String} {sent : List UiEvent} {s : EventSocket}

theorem sound_opened : (opened sent).Sound errorText sent :=
  ⟨[], rfl, .subscribe sent, fun _ _ ↦ rfl⟩

theorem Sound.send (h : s.Sound errorText sent) (event : UiEvent) :
    s.Sound errorText (sent ++ [event]) := by
  obtain ⟨onWire, hwire, hgiven, hnext⟩ := h
  exact ⟨onWire, hwire, hgiven.send event, hnext⟩

theorem Sound.serve (h : s.Sound errorText sent) (hfits : ∀ event ∈ sent, event.Fits)
    (nanos : Nanos) : (s.serve sent nanos).Sound errorText sent := by
  obtain ⟨onWire, hwire, hgiven, hnext⟩ := h
  unfold EventSocket.serve
  split
  · next hserving =>
    split
    · next event hrecv =>
      have hevent := recv_eq_value hrecv
      split
      · exact ⟨onWire, hwire, hgiven, fun hserving ↦ by cases hserving⟩
      · next hlost =>
        have hplace := hnext hserving (Bool.eq_false_iff.mpr hlost)
        have hlength : (s.shown ++ (onWire ++ [event])).length =
            (s.shown ++ onWire).length + 1 := by
          rw [← List.append_assoc, List.length_append, List.length_singleton]
        refine ⟨onWire ++ [event], ?_, ?_, fun _ _ ↦ ?_⟩
        · rw [List.map_append, List.map_append, hwire, List.map_singleton, List.map_singleton,
            UiEvent.deserialize_serialize (hfits event (List.mem_of_getElem? hevent))]
        · show Given sent s.subscribed (s.subscribed + (s.shown ++ (onWire ++ [event])).length)
            (s.shown ++ (onWire ++ [event]))
          rw [hlength, ← Nat.add_assoc, ← List.append_assoc]
          rw [hplace] at hevent
          exact hgiven.receive hevent
        · show s.next + 1 = s.subscribed + (s.shown ++ (onWire ++ [event])).length
          rw [hlength, hplace, Nat.add_assoc]
    · exact ⟨onWire, hwire, hgiven, hnext⟩
    · exact ⟨onWire, hwire, hgiven, fun hserving ↦ by cases hserving⟩
  · exact ⟨onWire, hwire, hgiven, hnext⟩

theorem Sound.lose (h : s.Sound errorText sent) (arriving : Nat) :
    (s.lose arriving).Sound errorText sent := by
  obtain ⟨onWire, hwire, hgiven, hnext⟩ := h
  refine ⟨onWire.take arriving, ?_, ?_, fun _ hlost ↦ by cases hlost⟩
  · show (s.wire.take arriving).map _ = _
    rw [List.map_take, List.map_take, hwire]
  · exact hgiven.of_prefix (List.prefix_append_right_inj _ |>.mpr (List.take_prefix _ _))

/-- What is shown was sent without a gap. -/
theorem Sound.shown (h : s.Sound errorText sent) :
    Given sent s.subscribed (s.subscribed + s.shown.length) s.shown := by
  obtain ⟨onWire, -, hgiven, -⟩ := h
  exact hgiven.of_prefix (List.prefix_append _ _)

/-- The next message is one of the events. -/
theorem Sound.read (h : s.Sound errorText sent) {message : Bytes} {wire : List Bytes}
    (hmessage : s.wire = message :: wire) : ∃ event,
      UiEvent.deserialize errorText message = .ok event ∧
        Sound errorText sent { s with wire := wire, shown := s.shown ++ [event] } := by
  obtain ⟨onWire, hwire, hgiven, hnext⟩ := h
  rw [hmessage] at hwire
  cases onWire with
  | nil => cases hwire
  | cons event onWire =>
    rw [List.map_cons, List.map_cons] at hwire
    obtain ⟨hevent, hrest⟩ := List.cons.inj hwire
    refine ⟨event, hevent, onWire, hrest, ?_, ?_⟩
    · rwa [List.append_assoc]
    · rwa [List.append_assoc]

end EventSocket

/-! ### What a UI has shown -/

namespace WebsocketService

variable {errorText : Bytes → String} {sent : List UiEvent} {ui : WebsocketService}

/-- All sockets of a UI, in the order in which it has opened them. -/
def sockets (ui : WebsocketService) : List EventSocket := ui.past ++ ui.current.toList

/-- All sockets are sound, and each has been opened behind what the ones before it have shown. -/
structure Sound (errorText : Bytes → String) (sent : List UiEvent) (ui : WebsocketService) :
    Prop where
  sockets : ∀ s ∈ ui.sockets, s.Sound errorText sent
  order : ui.sockets.Pairwise fun s t ↦ s.subscribed + s.shown.length ≤ t.subscribed

theorem sound_new : (new).Sound errorText sent := ⟨by simp [sockets, new], by simp [sockets, new]⟩

theorem Sound.send (h : ui.Sound errorText sent) (event : UiEvent) :
    ui.Sound errorText (sent ++ [event]) :=
  ⟨fun s hs ↦ (h.sockets s hs).send event, h.order⟩

/-- The socket that is read changes, but not the place at which it has subscribed. -/
private theorem Sound.setCurrent (h : ui.Sound errorText sent) {s s' : EventSocket}
    (hcurrent : ui.current = some s) (hsound : s'.Sound errorText sent)
    (hsubscribed : s'.subscribed = s.subscribed) :
    Sound errorText sent { ui with current := some s' } := by
  have hsockets : ui.sockets = ui.past ++ [s] := by rw [WebsocketService.sockets, hcurrent]; rfl
  have horder := h.order
  rw [hsockets, List.pairwise_append] at horder
  refine ⟨fun t ht ↦ ?_, ?_⟩
  · rcases List.mem_append.mp ht with ht | ht
    · exact h.sockets t (List.mem_append_left _ ht)
    · obtain rfl := List.mem_singleton.mp ht
      exact hsound
  · refine List.pairwise_append.mpr ⟨horder.1, List.pairwise_singleton _ _, fun t ht t' ht' ↦ ?_⟩
    obtain rfl := List.mem_singleton.mp ht'
    rw [hsubscribed]
    exact horder.2.2 t ht s List.mem_cons_self

/-- The sockets are the same after a UI has left the current one. -/
private theorem Sound.retry (h : ui.Sound errorText sent) : ui.retry.Sound errorText sent := by
  have hsockets : ui.retry.sockets = ui.sockets := List.append_nil _
  exact ⟨hsockets ▸ h.sockets, hsockets ▸ h.order⟩

theorem Sound.connect (h : ui.Sound errorText sent) (success : Bool) :
    (ui.connect sent success).Sound errorText sent := by
  unfold WebsocketService.connect
  split
  · exact h
  · next hcurrent =>
    split
    · have hsockets : ui.sockets = ui.past := by
        rw [WebsocketService.sockets, hcurrent]
        exact List.append_nil _
      refine ⟨fun s hs ↦ ?_, ?_⟩
      · rcases List.mem_append.mp hs with hs | hs
        · exact h.sockets s (hsockets ▸ hs)
        · obtain rfl := List.mem_singleton.mp hs
          exact EventSocket.sound_opened
      · refine List.pairwise_append.mpr
          ⟨hsockets ▸ h.order, List.pairwise_singleton _ _, fun s hs t ht ↦ ?_⟩
        obtain rfl := List.mem_singleton.mp ht
        exact (h.sockets s (hsockets ▸ hs)).shown.bound
    · exact h.retry

theorem Sound.modify (h : ui.Sound errorText sent) {f : EventSocket → EventSocket}
    (hsound : ∀ s, s.Sound errorText sent → (f s).Sound errorText sent)
    (hsubscribed : ∀ s, (f s).subscribed = s.subscribed) :
    Sound errorText sent { ui with current := ui.current.map f } := by
  cases hcurrent : ui.current with
  | none =>
    rw [Option.map_none, ← hcurrent]
    exact h
  | some s =>
    have hs : s ∈ ui.sockets := by
      rw [WebsocketService.sockets, hcurrent]
      exact List.mem_append_right _ List.mem_cons_self
    exact h.setCurrent hcurrent (hsound s (h.sockets s hs)) (hsubscribed s)

theorem Sound.read (h : ui.Sound errorText sent) : (ui.read errorText).Sound errorText sent := by
  unfold WebsocketService.read
  split
  · exact h
  · next s hcurrent =>
    have hs : s ∈ ui.sockets := by
      rw [WebsocketService.sockets, hcurrent]
      exact List.mem_append_right _ List.mem_cons_self
    split
    · next message wire hwire =>
      obtain ⟨event, hevent, hsound⟩ := (h.sockets s hs).read hwire
      rw [hevent]
      exact h.setCurrent hcurrent hsound rfl
    · split
      · exact h
      · exact h.retry

end WebsocketService

theorem EventSocket.serve_subscribed (sent : List UiEvent) (s : EventSocket) (nanos : Nanos) :
    (s.serve sent nanos).subscribed = s.subscribed := by
  unfold serve
  split
  · split
    · split <;> rfl
    · rfl
    · rfl
  · rfl

namespace EventSockets

variable {errorText : Bytes → String} {r : EventSockets}

/-- All events fit into messages, and all UIs are sound. -/
structure Sound (errorText : Bytes → String) (r : EventSockets) : Prop where
  fits : ∀ event ∈ r.sent, event.Fits
  uis : ∀ ui ∈ r.uis, ui.Sound errorText r.sent

/-- The events that a step sends fit into messages. -/
def Action.Fits : Action → Prop
  | .sendEvent event => event.Fits
  | _ => True

theorem Sound.step (h : r.Sound errorText) {action : Action} (hfits : action.Fits) :
    (r.step errorText action).Sound errorText := by
  have hmodify (i : Nat) (f : WebsocketService → WebsocketService)
      (hf : ∀ ui : WebsocketService, ui.Sound errorText r.sent → (f ui).Sound errorText r.sent) :
      Sound errorText { r with uis := r.uis.modify i f } := by
    refine ⟨h.fits, fun ui hui ↦ ?_⟩
    obtain ⟨j, hj⟩ := List.getElem?_of_mem hui
    rw [List.getElem?_modify] at hj
    obtain ⟨ui', hui', rfl⟩ := Option.map_eq_some_iff.mp hj
    have hsound := h.uis ui' (List.mem_of_getElem? hui')
    split
    · exact hf ui' hsound
    · exact hsound
  cases action with
  | sendEvent event =>
    refine ⟨fun event' hmem ↦ ?_, fun ui hui ↦ (h.uis ui hui).send event⟩
    rcases List.mem_append.mp hmem with hmem | hmem
    · exact h.fits event' hmem
    · obtain rfl := List.mem_singleton.mp hmem
      exact hfits
  | openUi =>
    refine ⟨h.fits, fun ui hui ↦ ?_⟩
    rcases List.mem_append.mp hui with hui | hui
    · exact h.uis ui hui
    · obtain rfl := List.mem_singleton.mp hui
      exact WebsocketService.sound_new
  | connect i success => exact hmodify i _ fun ui hui ↦ hui.connect success
  | serve i nanos =>
    exact hmodify i _ fun ui hui ↦ hui.modify (fun s hs ↦ hs.serve h.fits nanos)
      fun s ↦ s.serve_subscribed r.sent nanos
  | lose i arriving =>
    exact hmodify i _ fun ui hui ↦ hui.modify (fun s hs ↦ hs.lose arriving) fun s ↦ rfl
  | read i => exact hmodify i _ fun ui hui ↦ hui.read

/-- In every state of every run: on each of its sockets a UI has shown the events from one that was
sent after it has connected on, without a gap; a socket that is not lost, is served and has no
message and no event left has shown all of them; and over all its sockets a UI has shown a
sublist of the events that were sent. -/
theorem events_shown (errorText : Bytes → String) {actions : List Action}
    (hfits : ∀ action ∈ actions, action.Fits) :
    EachState (step errorText) (fun r ↦ ∀ ui ∈ r.uis,
      (∀ s ∈ ui.sockets, Given r.sent s.subscribed (s.subscribed + s.shown.length) s.shown ∧
        (s.serving = true → s.lost = false → s.wire = [] →
          recv eventCapacity r.sent s.next = .empty → s.shown = r.sent.drop s.subscribed)) ∧
      (ui.sockets.flatMap EventSocket.shown).Sublist r.sent) start actions := by
  have hstart : start.Sound errorText :=
    ⟨fun event hmem ↦ absurd hmem List.not_mem_nil, fun ui hmem ↦ absurd hmem List.not_mem_nil⟩
  have hall : EachState (step errorText) (Sound errorText) start actions :=
    eachState_of_invariant hstart (eachStep_of_forall hfits) fun r action h hfits ↦ h.step hfits
  refine hall.mono fun r h ui hui ↦ ?_
  obtain ⟨hsockets, horder⟩ := h.uis ui hui
  refine ⟨fun s hs ↦ ⟨(hsockets s hs).shown, fun hserving hlost hwire hempty ↦ ?_⟩, ?_⟩
  · obtain ⟨onWire, honWire, hgiven, hnext⟩ := hsockets s hs
    rw [hwire] at honWire
    cases onWire with
    | cons event onWire => cases honWire
    | nil =>
      rw [List.append_nil] at hgiven hnext
      refine hgiven.at_end ?_
      rw [← hnext hserving hlost]
      exact recv_eq_empty hempty
  · have hgiven : ∀ p ∈ ui.sockets.map fun s ↦ (s.subscribed, s.shown),
        Given r.sent p.1 (p.1 + p.2.length) p.2 := by
      intro p hp
      obtain ⟨s, hs, rfl⟩ := List.mem_map.mp hp
      exact (hsockets s hs).shown
    have hshown := flatMap_sublist _ 0 hgiven (List.pairwise_map.mpr horder)
      fun _ _ ↦ Nat.zero_le _
    rwa [List.flatMap_map] at hshown

/-- Two peers connect, the second after a UI has. -/
def connectedLate : List Action :=
  [.sendEvent (.peerConnected "amberCloudYak"), .openUi, .connect 0 true,
    .sendEvent (.peerConnected "jadeRiverFox"), .serve 0 ⟨0, by decide⟩, .read 0]

/-- The UI shows the second one. -/
theorem events_shown_late :
    (finalState (step fun _ ↦ "") start connectedLate).uis.map (·.sockets.map (·.shown)) =
      [[[.peerConnected "jadeRiverFox"]]] := by
  have hfits : ∀ action ∈ connectedLate, action.Fits := by
    have hfits (name : String)
        (hname : ((Codec.uiEvent Bincode.Format.u64).write (.inl name)).length < 2 ^ 32) :
        (UiEvent.peerConnected name).Fits := ⟨fun info h ↦ (by cases h), fun _ ↦ hname⟩
    exact List.forall_iff_forall_mem.mp
      ⟨hfits _ (by decide +kernel), trivial, trivial, hfits _ (by decide +kernel), trivial, trivial⟩
  generalize hfinal : finalState (step fun _ ↦ "") start connectedLate = r
  have hsent : r.sent = [.peerConnected "amberCloudYak", .peerConnected "jadeRiverFox"] := by
    rw [← hfinal]
    decide +kernel
  have hui : ∃ ui s, r.uis = [ui] ∧ ui.sockets = [s] ∧ s.subscribed = 1 ∧ s.serving = true ∧
      s.lost = false ∧ s.wire = [] ∧ recv eventCapacity r.sent s.next = .empty := by
    rw [← hfinal]
    exact ⟨_, _, rfl, rfl, rfl, rfl, rfl, rfl, by decide +kernel⟩
  obtain ⟨ui, s, huis, hsockets, hsubscribed, hserving, hlost, hwire, hempty⟩ := hui
  have hshown := (events_shown (fun _ ↦ "") hfits).final
  rw [hfinal] at hshown
  have hs := ((hshown ui (huis ▸ List.mem_cons_self)).1 s (hsockets ▸ List.mem_cons_self)).2
    hserving hlost hwire hempty
  rw [huis, List.map_singleton, hsockets, List.map_singleton, hs, hsubscribed, hsent]
  rfl

end EventSockets

end HarddriveParty
