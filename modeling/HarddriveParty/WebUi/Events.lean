import HarddriveParty.Connections.Events
import HarddriveParty.Shared.AnnounceAddress
import HarddriveParty.WebUi.Model

/-!
# Events of the node in the web UI

Model of the event loop of `HdpUi` (`web-ui/src/hdp.rs`). An event that ends a connection
attempt clears one pending announce address, the first in the iteration order of the set that
begins with the peer's name. That is the peer's entry, and its only one, or it is the entry of
a peer whose name begins with this one; where the two can be confused is said exactly.
-/

namespace HarddriveParty

/-- An iteration order of a `HashSet<String>`; the set does not promise any. -/
structure HashOrder where
  iter : Finset String → List String
  nodup : ∀ s, (iter s).Nodup
  mem_iter : ∀ s a, a ∈ iter s ↔ a ∈ s

/-- `str::starts_with`. -/
def StartsWith (s start : String) : Prop := Utf8.encode start <+: Utf8.encode s

instance (s start : String) : Decidable (StartsWith s start) :=
  inferInstanceAs (Decidable (_ <+: _))

namespace AppContext

variable (order : HashOrder) (ui : AppContext)

/-- Clear the first pending announce address that begins with the name
(`web-ui/src/hdp.rs:182`, `web-ui/src/hdp.rs:211`). -/
def clearPending (pendingPeers : Finset String) (name : String) : Finset String :=
  match (order.iter pendingPeers).find? fun a ↦ StartsWith a name with
  | some announceAddress => pendingPeers.erase announceAddress
  | none => pendingPeers

/-- The status of a file of which some bytes have been read. -/
def progressStatus (complete : Bool) (bytesRead : UInt64) (requestId : UInt32) : DownloadStatus :=
  if complete then .downloaded requestId else .downloading bytesRead requestId

/-- The file of a download event is entered under its path (`web-ui/src/hdp.rs:231`). -/
def enterDownloading (m : FilesMap) (event : DownloadEvent) (path : String) (bytesRead : UInt64) :
    FilesMap :=
  m.entry ⟨event.peerName, path⟩
    (fun file ↦ { file with
      downloadStatus :=
        progressStatus (bytesRead = file.size.getD 0) bytesRead event.requestId })
    (some (File.fromDownloadingFile path event.peerName
      (.downloading bytesRead event.requestId)))
    (by intro _; rfl) (by rintro _ ⟨rfl⟩; rfl)

/-- The first file in key order that has the request with this id. -/
def requestRoot (m : FilesMap) (requestId : UInt32) : Option (PeerPath × File) :=
  m.tree.toList.find? fun kv ↦ (kv.2.request.map UiDownloadRequest.requestId) = some requestId

/-- The requested path gets the progress of its request (`web-ui/src/hdp.rs:258`). -/
def markRequestRoot (m : FilesMap) (event : DownloadEvent) (totalBytesRead : UInt64) : FilesMap :=
  match requestRoot m event.requestId with
  | none => m
  | some (k, _) =>
    m.entry k
      (fun file ↦ { file with
        downloadStatus :=
          progressStatus (file.size.getD 0 ≤ totalBytesRead) totalBytesRead event.requestId })
      none (by intro _; rfl) (by simp)

/-- A download has progressed or is complete (`web-ui/src/hdp.rs:222`). -/
def downloadEvent (m : FilesMap) (event : DownloadEvent) : FilesMap :=
  match event.downloadInfo with
  | .downloading path bytesRead totalBytesRead _ =>
    markRequestRoot (enterDownloading m event path bytesRead) event totalBytesRead
  | .completed _ =>
    m.entry ⟨event.peerName, event.path⟩
      (fun file ↦ { file with downloadStatus := .downloaded event.requestId }) none
      (by intro _; rfl) (by simp)

/-- The query for the root directory of one peer. -/
def rootQuery (name : String) : FilesQuery :=
  { peerName := some name
    query := { path := none, searchterm := none, recursive := false } }

/-- One event of the node, with the queries that it makes the UI send
(`web-ui/src/hdp.rs:167`). -/
def handleEvent : UiEvent → AppContext × List FilesQuery
  | .peerConnected name =>
    ({ ui with
        peers := insert name ui.peers
        pendingPeers := clearPending order ui.pendingPeers name }, [rootQuery name])
  | .peerDisconnected name _ => (ui.disconnect name, [])
  | .uploaded uploadInfo => ({ ui with uploads := ui.uploads.upsert uploadInfo }, [])
  | .peerConnectionFailed name _ =>
    ({ ui with
        peers := ui.peers.erase name
        pendingPeers := clearPending order ui.pendingPeers name }, [])
  | .download event => ({ ui with files := downloadEvent ui.files event }, [])

/-- The UI after a sequence of events, each handled under some iteration order. -/
def handleEvents (ui : AppContext) (events : List (HashOrder × UiEvent)) : AppContext :=
  events.foldl (fun ui event ↦ (ui.handleEvent event.1 event.2).1) ui

theorem peers_handleEvent (event : UiEvent) :
    (ui.handleEvent order event).1.peers = event.updatePeers ui.peers := by
  cases event <;> rfl

/-- The peers after a sequence of events are those that the node's side is compared with. -/
theorem peers_handleEvents (ui : AppContext) (events : List (HashOrder × UiEvent)) :
    (ui.handleEvents events).peers =
      (events.map Prod.snd).foldl UiEvent.updatePeers ui.peers := by
  unfold handleEvents
  induction events generalizing ui with
  | nil => rfl
  | cons event events ih =>
    rw [List.foldl_cons, ih, peers_handleEvent]
    rfl

end AppContext

section Pending

variable (engine : Base64.NoPadCodec) (name : String) (pending : Finset String)

/-- The name in a pending announce address, if it can be decoded. -/
def announcedName (s : String) : Option String :=
  (AnnounceAddress.fromString engine s).toOption.map AnnounceAddress.name

/-- The pending set without exactly the announce addresses of the name. -/
def withoutName : Finset String := pending.filter fun a ↦ announcedName engine a ≠ some name

/-- In this order, the first pending string that begins with the name is an announce address
of that name, and the only one. -/
def FirstIsOnlyEntry (strings : List String) : Prop :=
  ∀ before a after, strings = before ++ a :: after → (∀ b ∈ before, ¬ StartsWith b name) →
    StartsWith a name → ∀ b ∈ strings, announcedName engine b = some name ↔ b = a

/-- At most one pending string begins with the name, and that is an announce address of the
name. -/
def OnlyOwnEntry : Prop :=
  ∀ a ∈ pending, StartsWith a name →
    announcedName engine a = some name ∧ ∀ b ∈ pending, StartsWith b name → b = a

variable {engine name pending}

/-- An announce address begins with its name. -/
theorem startsWith_of_announcedName {s : String} (h : announcedName engine s = some name) :
    StartsWith s name := by
  obtain ⟨a, ha, rfl⟩ := Option.map_eq_some_iff.mp h
  have htext := AnnounceAddress.toText_of_fromString engine s a (Outcome.toOption_eq_some_iff.mp ha)
  rw [StartsWith, ← htext, AnnounceAddress.toText, Utf8.encode_append, Utf8.encode_append,
    List.append_assoc]
  exact List.prefix_append _ _

private theorem find_of_decomposition {strings before after : List String} {a : String}
    (hs : strings = before ++ a :: after) (hbefore : ∀ b ∈ before, ¬ StartsWith b name)
    (ha : StartsWith a name) : strings.find? (fun b ↦ StartsWith b name) = some a := by
  rw [List.find?_eq_some_iff_append]
  refine ⟨decide_eq_true ha, before, after, hs, fun b hb ↦ ?_⟩
  simpa using hbefore b hb

/-- Clearing takes away exactly the entries of the name when the string that it finds is the
only one. -/
theorem clearPending_iff (order : HashOrder) :
    AppContext.clearPending order pending name = withoutName engine name pending ↔
      FirstIsOnlyEntry engine name (order.iter pending) := by
  unfold AppContext.clearPending
  cases hfind : (order.iter pending).find? fun a ↦ StartsWith a name with
  | none =>
    have hnone : ∀ a ∈ order.iter pending, ¬ StartsWith a name := by
      intro a ha
      simpa using List.find?_eq_none.mp hfind a ha
    refine iff_of_true ?_ ?_
    · refine (Finset.filter_eq_self.mpr fun a ha hname ↦ ?_).symm
      exact hnone a ((order.mem_iter pending a).mpr ha) (startsWith_of_announcedName hname)
    · intro before a after hs _ ha
      exact absurd ha (hnone a (by rw [hs]; simp))
  | some a =>
    obtain ⟨ha, before, after, hs, hbefore⟩ := List.find?_eq_some_iff_append.mp hfind
    have hfirst : FirstIsOnlyEntry engine name (order.iter pending) ↔
        ∀ b ∈ pending, announcedName engine b = some name ↔ b = a := by
      constructor
      · intro h b hb
        exact h before a after hs (fun c hc ↦ by simpa using hbefore c hc)
          (of_decide_eq_true ha) b ((order.mem_iter pending b).mpr hb)
      · intro h before' a' after' hs' hbefore' ha' b hb
        have hsame := find_of_decomposition hs' hbefore' ha'
        rw [hfind, Option.some.injEq] at hsame
        rw [← hsame]
        exact h b ((order.mem_iter pending b).mp hb)
    rw [hfirst, Finset.ext_iff]
    refine forall_congr' fun b ↦ ?_
    rw [Finset.mem_erase, withoutName, Finset.mem_filter]
    constructor
    · intro h hb
      simp only [hb, and_true, true_and] at h
      exact not_iff_not.mp h.symm
    · intro h
      by_cases hb : b ∈ pending
      · simp [hb, h hb]
      · simp [hb]

/-- An iteration order that starts with a given member of the set. -/
private theorem exists_order_from {a : String} (ha : a ∈ pending) :
    ∃ order : HashOrder, ∃ rest, order.iter pending = a :: rest := by
  refine ⟨{
    iter := fun s ↦ if s = pending then a :: (pending.erase a).toList else s.toList
    nodup := ?_
    mem_iter := ?_ }, _, if_pos rfl⟩
  · intro s
    split
    · simp [Finset.nodup_toList]
    · exact s.nodup_toList
  · intro s b
    split
    · next hs =>
      by_cases hba : b = a
      · simp [hs, hba, ha]
      · simp [hs, hba]
    · exact Finset.mem_toList

/-- Every iteration order finds the right string when at most one begins with the name. -/
theorem forall_firstIsOnlyEntry_iff :
    (∀ order : HashOrder, FirstIsOnlyEntry engine name (order.iter pending)) ↔
      OnlyOwnEntry engine name pending := by
  constructor
  · intro h a ha hstart
    have honly : ∀ c ∈ pending, StartsWith c name →
        ∀ b ∈ pending, announcedName engine b = some name ↔ b = c := by
      intro c hc hcstart b hb
      obtain ⟨order, rest, hrest⟩ := exists_order_from hc
      exact h order [] c rest hrest (by simp) hcstart b ((order.mem_iter pending b).mpr hb)
    have hown := (honly a ha hstart a ha).mpr rfl
    refine ⟨hown, fun b hb hbstart ↦ ?_⟩
    exact ((honly b hb hbstart a ha).mp hown).symm
  · intro h order before a after hs _ hstart b hb
    have ha : a ∈ pending := (order.mem_iter pending a).mp (by rw [hs]; simp)
    obtain ⟨hown, honly⟩ := h a ha hstart
    constructor
    · intro hname
      exact honly b ((order.mem_iter pending b).mp hb) (startsWith_of_announcedName hname)
    · rintro rfl
      exact hown

end Pending

section Events

variable (engine : Base64.NoPadCodec) (ui : AppContext) (name : String)

/-- After the event exactly the announce addresses of the name are no longer pending. -/
def Clears (order : HashOrder) (event : UiEvent) : Prop :=
  (ui.handleEvent order event).1.pendingPeers = withoutName engine name ui.pendingPeers

/-- A connection and a failed connection clear exactly the pending entries of the name, if and
only if the first pending string in iteration order that begins with the name is such an entry
and the only one; whatever the order, when no other pending string begins with the name. -/
theorem connection_events_clear_iff (engine : Base64.NoPadCodec) (ui : AppContext)
    (name error : String) :
    (∀ order, (Clears engine ui name order (.peerConnected name) ↔
        FirstIsOnlyEntry engine name (order.iter ui.pendingPeers)) ∧
      (Clears engine ui name order (.peerConnectionFailed name error) ↔
        FirstIsOnlyEntry engine name (order.iter ui.pendingPeers))) ∧
    ((∀ order, Clears engine ui name order (.peerConnected name) ∧
        Clears engine ui name order (.peerConnectionFailed name error)) ↔
      OnlyOwnEntry engine name ui.pendingPeers) := by
  refine ⟨fun order ↦ ⟨clearPending_iff order, clearPending_iff order⟩, ?_⟩
  rw [← forall_firstIsOnlyEntry_iff]
  refine forall_congr' fun order ↦ ?_
  show AppContext.clearPending order ui.pendingPeers name = _ ∧
    AppContext.clearPending order ui.pendingPeers name = _ ↔ _
  rw [and_self]
  exact clearPending_iff order

/-- A connection to `ann` clears the pending entry of `anna`. -/
theorem ann_clears_anna :
    ¬ ∀ engine ui name order, (∀ s ∈ ui.pendingPeers, ∃ a, s = AnnounceAddress.toText engine a) →
      Clears engine ui name order (.peerConnected name) := by
  intro h
  let anna : AnnounceAddress := ⟨.noNat (.v4 0x593a0d94 51080), "anna"⟩
  let text := AnnounceAddress.toText Base64.standard anna
  let ui : AppContext := { AppContext.empty with pendingPeers := {text} }
  have hname : announcedName Base64.standard text = some "anna" := by
    rw [announcedName, AnnounceAddress.fromString_toText Base64.standard anna trivial]
    rfl
  have htexts : ∀ s ∈ ui.pendingPeers, ∃ a, s = AnnounceAddress.toText Base64.standard a := by
    intro s hs
    exact ⟨anna, Finset.mem_singleton.mp hs⟩
  have hclears : ∀ order : HashOrder,
      FirstIsOnlyEntry Base64.standard "ann" (order.iter ui.pendingPeers) :=
    fun order ↦ (clearPending_iff order).mp (h Base64.standard ui "ann" order htexts)
  have hstart : StartsWith text "ann" :=
    List.IsPrefix.trans (show Utf8.encode "ann" <+: Utf8.encode "anna" by decide)
      (startsWith_of_announcedName hname)
  have hown := (forall_firstIsOnlyEntry_iff.mp hclears text
    (Finset.mem_singleton_self text) hstart).1
  rw [hname] at hown
  exact absurd hown (by decide)

end Events

end HarddriveParty
