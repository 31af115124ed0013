import HarddriveParty.Base.Runs
import HarddriveParty.WebUi.Events
import HarddriveParty.WebUi.Subtree

/-!
# Runs of the web UI

The UI takes one step for each chunk of a reply, each event of the node and each click that
changes its state, in any order. A step drops one peer with its files and search results, or it
keeps every file and enters some more. Hence every search result always has its file, and the
files map holds only what replies and events have entered since the page was loaded.
-/

namespace HarddriveParty

/-- What changes the state of the UI. -/
inductive UiAction where
  | sharesQuery (ownName : Option String) (response : LsResponse)
  | download (peerPath : PeerPath) (id : UInt32)
  | connectRefused (announceAddress : String)
  | disconnect (peerName : String)
  | receiveFiles (peerName : String) (response : LsResponse)
  | receiveRequests (newRequests : List UiDownloadRequest)
  | requestedFiles (request : UiDownloadRequest) (requestedFiles : List UiRequestedFile)
  /-- The existing search results are removed (`web-ui/src/lib.rs:698`). -/
  | startSearch
  | search (peerName : String) (response : LsResponse)
  /-- A new announce address is pending (`web-ui/src/peer.rs:222`). -/
  | addPeer (announceAddress : String)
  /-- A click on the row of a file (`web-ui/src/file.rs:131`). -/
  | expandDir (row : File)
  | event (order : HashOrder) (event : UiEvent)

namespace FilesMap

/-- A directory that is clicked is expanded, or no longer so; the row has its own copy of whether
it is a directory, and shares the rest with the map. -/
def expandDir (m : FilesMap) (row : File) : FilesMap :=
  if row.isDir.getD false then
    m.entry row.key (fun file ↦ { file with isExpanded := !file.isExpanded }) none
      (by intro _; rfl) (by simp)
  else m

/-- The map has a file under the key. -/
def Has (m : FilesMap) (k : PeerPath) : Prop := (m.get? k).isSome

/-- The second map has the keys of the first and those that were entered. -/
def Grows (entered : List PeerPath) (m m' : FilesMap) : Prop :=
  ∀ k, m'.Has k ↔ m.Has k ∨ k ∈ entered

section Growth

variable {m m' m'' : FilesMap} {xs ys : List PeerPath}

theorem Grows.refl (m : FilesMap) : Grows [] m m := fun k ↦ by simp

theorem Grows.trans (h : Grows xs m m') (h' : Grows ys m' m'') : Grows (xs ++ ys) m m'' := by
  intro k
  rw [h' k, h k, List.mem_append, or_assoc]

theorem has_entry (m : FilesMap) (k j : PeerPath) (modify : File → File) (new : Option File)
    (hmodify : ∀ f, (modify f).key = f.key) (hnew : ∀ f ∈ new, f.key = k) :
    (m.entry k modify new hmodify hnew).Has j ↔ m.Has j ∨ j = k ∧ new.isSome := by
  unfold Has
  rw [get?_entry]
  by_cases hj : j = k
  · simp [hj]
  · simp [hj]

/-- An entry that may insert a file enters its key. -/
theorem grows_entry (m : FilesMap) (k : PeerPath) (modify : File → File) (new : File)
    (hmodify : ∀ f, (modify f).key = f.key) (hnew : ∀ f ∈ some new, f.key = k) :
    Grows [k] m (m.entry k modify (some new) hmodify hnew) := by
  intro j
  simp [has_entry]

/-- An entry that inserts no file enters nothing. -/
theorem grows_modify (m : FilesMap) (k : PeerPath) (modify : File → File)
    (hmodify : ∀ f, (modify f).key = f.key) (hnew : ∀ f : File, f ∈ none → f.key = k) :
    Grows [] m (m.entry k modify none hmodify hnew) := by
  intro j
  simp [has_entry]

/-- A loop over a range enters nothing. -/
theorem grows_updateRange (m : FilesMap) (lo hi : PeerPath) (modify : File → File)
    (hmodify : ∀ f, (modify f).key = f.key) :
    Grows [] m (m.updateRange lo hi modify hmodify) := by
  intro j
  unfold Has
  rw [get?_updateRange, Option.isSome_map]
  simp

/-- A loop enters what its steps enter. -/
theorem grows_foldl {α : Type} (step : FilesMap → α → FilesMap) (entered : α → PeerPath)
    (hstep : ∀ m a, Grows [entered a] m (step m a)) (as : List α) (m : FilesMap) :
    Grows (as.map entered) m (as.foldl step m) := by
  induction as generalizing m with
  | nil => exact Grows.refl m
  | cons a as ih => exact (hstep m a).trans (ih (step m a))

theorem grows_insertEntries (m : FilesMap) (peerName : String) (entries : List Entry) :
    Grows (entries.map fun entry ↦ ⟨peerName, entry.name⟩) m
      (entries.foldl (fun m entry ↦ m.insertEntry peerName entry) m) :=
  grows_foldl _ _ (fun m _ ↦ m.grows_entry _ _ _ _ _) entries m

theorem grows_insertShares (m : FilesMap) (ownName : String) (entries : List Entry) :
    Grows (entries.map fun entry ↦ ⟨ownName, entry.name⟩) m
      (entries.foldl (fun m entry ↦ m.insertShare ownName entry) m) :=
  grows_foldl _ _ (fun m _ ↦ m.grows_entry _ _ _ _ _) entries m

theorem grows_markRequested (m : FilesMap) (peerPath : PeerPath) (id : UInt32) :
    Grows [peerPath] m (m.markRequested peerPath id) := by
  have henter : Grows [peerPath] m (m.enterRequested peerPath id) := by
    unfold enterRequested
    exact m.grows_entry _ _ _ _ _
  exact henter.trans (grows_updateRange _ _ _ _ _)

theorem grows_mergeRequest (m : FilesMap) (request : UiDownloadRequest) :
    Grows [request.peerPath] m (m.mergeRequest request) := by
  have henter : Grows [request.peerPath] m (m.enterRequest request) := m.grows_entry _ _ _ _ _
  exact henter.trans (grows_updateRange _ _ _ _ _)

theorem grows_mergeRequestedFiles (m : FilesMap) (request : UiDownloadRequest)
    (requestedFiles : List UiRequestedFile) :
    Grows (requestedFiles.map fun file ↦ ⟨request.peerName, file.path⟩) m
      (m.mergeRequestedFiles request requestedFiles) := by
  have hstep (m : FilesMap) (file : UiRequestedFile) :
      Grows [⟨request.peerName, file.path⟩] m (mergeRequestedFile request m file) := by
    unfold mergeRequestedFile
    exact m.grows_entry _ _ _ _ _
  have hloop := grows_foldl _ _ hstep requestedFiles m
  rw [← List.append_nil (requestedFiles.map _)]
  exact hloop.trans (grows_modify _ _ _ _ _)

theorem grows_expandDir (m : FilesMap) (row : File) : Grows [] m (m.expandDir row) := by
  unfold expandDir
  split
  · exact grows_modify _ _ _ _ _
  · exact Grows.refl m

theorem has_retain (m : FilesMap) (keep : PeerPath → Bool) (k : PeerPath) :
    (m.retain keep).Has k ↔ m.Has k ∧ keep k := by
  unfold Has
  rw [get?_retain]
  cases m.get? k with
  | none => simp
  | some f => simp

end Growth

end FilesMap

namespace AppContext

open FilesMap

/-- One step of the UI. -/
def step (ui : AppContext) : UiAction → AppContext
  | .sharesQuery ownName response => ui.sharesQuery ownName response
  | .download peerPath id => ui.download peerPath id
  | .connectRefused announceAddress => ui.connectRefused announceAddress
  | .disconnect peerName => ui.disconnect peerName
  | .receiveFiles peerName response => ui.receiveFiles peerName response
  | .receiveRequests newRequests => ui.receiveRequests newRequests
  | .requestedFiles request requestedFiles => ui.requestedFiles request requestedFiles
  | .startSearch => { ui with searchResults := [] }
  | .search peerName response => ui.search peerName response
  | .addPeer announceAddress =>
    { ui with pendingPeers := insert announceAddress ui.pendingPeers }
  | .expandDir row => { ui with files := ui.files.expandDir row }
  | .event order event => (ui.handleEvent order event).1

/-- The key that a download event enters. -/
def downloadKeys (event : DownloadEvent) : List PeerPath :=
  match event.downloadInfo with
  | .downloading path _ _ _ => [⟨event.peerName, path⟩]
  | .completed _ => []

/-- The keys that an action enters in the files map. -/
def enteredKeys : UiAction → List PeerPath
  | .sharesQuery none _ => []
  | .sharesQuery (some ownName) response =>
    response.entries.map fun entry ↦ ⟨ownName, entry.name⟩
  | .download peerPath _ => [peerPath]
  | .receiveFiles peerName response => response.entries.map fun entry ↦ ⟨peerName, entry.name⟩
  | .receiveRequests newRequests => newRequests.map UiDownloadRequest.peerPath
  | .requestedFiles request requestedFiles =>
    requestedFiles.map fun file ↦ ⟨request.peerName, file.path⟩
  | .search peerName response => response.entries.map fun entry ↦ ⟨peerName, entry.name⟩
  | .event _ (.download event) => downloadKeys event
  | _ => []

/-- The step keeps every file, and a search result that is new has one. -/
def Keeps (entered : List PeerPath) (ui ui' : AppContext) : Prop :=
  Grows entered ui.files ui'.files ∧
    ∀ k ∈ ui'.searchResults, k ∈ ui.searchResults ∨ ui'.files.Has k

theorem grows_markRequestRoot (m : FilesMap) (event : DownloadEvent) (totalBytesRead : UInt64) :
    Grows [] m (markRequestRoot m event totalBytesRead) := by
  unfold markRequestRoot
  split
  · exact Grows.refl m
  · exact grows_modify _ _ _ _ _

theorem grows_downloadEvent (m : FilesMap) (event : DownloadEvent) :
    Grows (downloadKeys event) m (downloadEvent m event) := by
  unfold downloadKeys downloadEvent
  cases event.downloadInfo with
  | downloading path bytesRead totalBytesRead speed =>
    have henter : Grows [⟨event.peerName, path⟩] m (enterDownloading m event path bytesRead) :=
      m.grows_entry _ _ _ _ _
    exact henter.trans (grows_markRequestRoot _ event totalBytesRead)
  | completed secs => exact grows_modify _ _ _ _ _

variable {ui ui' : AppContext}

/-- A step that keeps the search results keeps everything if it keeps the files. -/
theorem keeps_of_grows {entered : List PeerPath} (hfiles : Grows entered ui.files ui'.files)
    (hresults : ui'.searchResults = ui.searchResults) : Keeps entered ui ui' := by
  refine ⟨hfiles, fun k hk ↦ Or.inl ?_⟩
  rwa [hresults] at hk

/-- The UI that has the same files and search results has kept both. -/
theorem keeps_same (hfiles : ui'.files = ui.files)
    (hresults : ui'.searchResults = ui.searchResults) : Keeps [] ui ui' := by
  apply keeps_of_grows _ hresults
  rw [hfiles]
  exact Grows.refl ui.files

/-- A step changes the files and the search results of one peer at most, and all of these, or
it keeps every file. -/
theorem step_cases (ui : AppContext) (action : UiAction) :
    (∃ peerName, ui.step action = ui.disconnect peerName ∧ enteredKeys action = []) ∨
      Keeps (enteredKeys action) ui (ui.step action) := by
  cases action with
  | sharesQuery ownName response =>
    cases ownName with
    | none =>
      cases response with
      | success entries => exact Or.inr (keeps_same rfl rfl)
      | err e => exact Or.inr (keeps_same rfl rfl)
    | some ownName =>
      cases response with
      | success entries =>
        exact Or.inr (keeps_of_grows (grows_insertShares ui.files ownName entries) rfl)
      | err e => exact Or.inr (keeps_same rfl rfl)
  | download peerPath id =>
    exact Or.inr (keeps_of_grows (grows_markRequested ui.files peerPath id) rfl)
  | connectRefused announceAddress => exact Or.inr (keeps_same rfl rfl)
  | disconnect peerName => exact Or.inl ⟨peerName, rfl, rfl⟩
  | receiveFiles peerName response =>
    cases response with
    | success entries =>
      exact Or.inr (keeps_of_grows (grows_insertEntries ui.files peerName entries) rfl)
    | err e => exact Or.inr (keeps_same rfl rfl)
  | receiveRequests newRequests =>
    exact Or.inr (keeps_of_grows
      (grows_foldl _ _ grows_mergeRequest newRequests ui.files) rfl)
  | requestedFiles request requestedFiles =>
    exact Or.inr (keeps_of_grows
      (grows_mergeRequestedFiles ui.files request requestedFiles) rfl)
  | startSearch =>
    refine Or.inr ⟨Grows.refl ui.files, fun k hk ↦ ?_⟩
    cases hk
  | search peerName response =>
    cases response with
    | success entries =>
      have hgrows := grows_insertEntries ui.files peerName entries
      refine Or.inr ⟨hgrows, fun k hk ↦ ?_⟩
      rcases List.mem_append.mp hk with hold | hnew
      · exact Or.inl hold
      · exact Or.inr ((hgrows k).mpr (Or.inr hnew))
    | err e => exact Or.inr (keeps_same rfl rfl)
  | addPeer announceAddress => exact Or.inr (keeps_same rfl rfl)
  | expandDir row => exact Or.inr (keeps_of_grows (grows_expandDir ui.files row) rfl)
  | event order event =>
    cases event with
    | peerConnected name => exact Or.inr (keeps_same rfl rfl)
    | peerDisconnected name error => exact Or.inl ⟨name, rfl, rfl⟩
    | uploaded uploadInfo => exact Or.inr (keeps_same rfl rfl)
    | peerConnectionFailed name error => exact Or.inr (keeps_same rfl rfl)
    | download event =>
      exact Or.inr (keeps_of_grows (grows_downloadEvent ui.files event) rfl)

/-- Every search result has a file in the map. -/
def ResultsHaveFiles (ui : AppContext) : Prop := ∀ k ∈ ui.searchResults, ui.files.Has k

/-- The rows of the search table (`web-ui/src/search.rs:24`). -/
def searchRows (ui : AppContext) : List File := ui.searchResults.filterMap ui.files.get?

theorem resultsHaveFiles_step (h : ResultsHaveFiles ui) (action : UiAction) :
    ResultsHaveFiles (ui.step action) := by
  rcases step_cases ui action with ⟨peerName, hdrop, -⟩ | ⟨hgrows, hresults⟩
  · rw [hdrop]
    intro k hk
    obtain ⟨hk, hname⟩ := List.mem_filter.mp hk
    exact (has_retain _ _ k).mpr ⟨h k hk, hname⟩
  · intro k hk
    rcases hresults k hk with hold | hnew
    · exact (hgrows k).mpr (Or.inl (h k hold))
    · exact hnew

/-- When every result has its file, the search table has one row for each, in order. -/
theorem map_key_searchRows (h : ResultsHaveFiles ui) :
    (searchRows ui).map File.key = ui.searchResults := by
  unfold ResultsHaveFiles at h
  unfold searchRows
  generalize ui.searchResults = results at h ⊢
  induction results with
  | nil => rfl
  | cons k results ih =>
    obtain ⟨f, hf⟩ := Option.isSome_iff_exists.mp (h k (by simp))
    rw [List.filterMap_cons_some hf, List.map_cons, ui.files.key_of_get? hf,
      ih fun j hj ↦ h j (by simp [hj])]

/-- In every state of the UI the search table shows every search result. -/
theorem eachState_searchRows (actions : List UiAction) :
    Runs.EachState step (fun ui ↦ (searchRows ui).map File.key = ui.searchResults) empty
      actions := by
  have hstart : ResultsHaveFiles empty := by
    intro k hk
    cases hk
  have hrun : Runs.EachState step ResultsHaveFiles empty actions :=
    Runs.eachState_of_invariant hstart (Runs.eachStep_of_forall fun _ _ ↦ trivial)
      fun ui action h _ ↦ resultsHaveFiles_step h action
  exact hrun.mono fun ui h ↦ map_key_searchRows h

/-- Steps that enter only such keys, and no others, keep a property of all keys. -/
theorem forall_has_step_iff {P : PeerPath → Prop} (action : UiAction)
    (h : ∀ k, ui.files.Has k → P k) :
    (∀ k, (ui.step action).files.Has k → P k) ↔ ∀ k ∈ enteredKeys action, P k := by
  rcases step_cases ui action with ⟨peerName, hdrop, hkeys⟩ | ⟨hgrows, -⟩
  · rw [hdrop, hkeys]
    refine iff_of_true (fun k hk ↦ h k ?_) (by simp)
    exact ((has_retain _ _ k).mp hk).1
  · constructor
    · intro hstep k hk
      exact hstep k ((hgrows k).mpr (Or.inr hk))
    · intro hkeys k hk
      rcases (hgrows k).mp hk with hold | hnew
      · exact h k hold
      · exact hkeys k hnew

/-- From a freshly loaded page on, a property of all keys holds in every state if and only if
the actions enter such keys only. -/
theorem eachState_forall_has_iff (P : PeerPath → Prop) (actions : List UiAction) :
    Runs.EachState step (fun ui ↦ ∀ k, ui.files.Has k → P k) empty actions ↔
      ∀ action ∈ actions, ∀ k ∈ enteredKeys action, P k := by
  have hstart : ∀ k, empty.files.Has k → P k := by
    intro k hk
    simp [empty, Has] at hk
  have hsteps : Runs.EachState step (fun ui ↦ ∀ k, ui.files.Has k → P k) empty actions ↔
      Runs.EachStep step (fun _ action ↦ ∀ k ∈ enteredKeys action, P k) empty actions :=
    Runs.eachState_iff_eachStep hstart fun ui action h ↦ forall_has_step_iff action h
  exact hsteps.trans Runs.eachStep_input_iff

/-- In every state of the UI requests of a path concern exactly its subtree, if and only if no
action enters a key that is misplaced under it. -/
theorem eachState_exact_iff (requested : PeerPath) (actions : List UiAction) :
    Runs.EachState step (fun ui ↦ MarksExactly ui.files requested ∧
        MergesExactly ui.files requested ∧ ListsSubtree ui.files requested) empty actions ↔
      ∀ action ∈ actions, ∀ k ∈ enteredKeys action, ¬ Misplaced requested k := by
  rw [← eachState_forall_has_iff]
  have hiff (ui : AppContext) : (MarksExactly ui.files requested ∧
      MergesExactly ui.files requested ∧ ListsSubtree ui.files requested) ↔
        ∀ k, ui.files.Has k → ¬ Misplaced requested k := by
    rw [marksExactly_iff, mergesExactly_iff, listsSubtree_iff, and_self, and_self]
    refine forall_congr' fun k ↦ ?_
    unfold Has
    rw [Option.isSome_iff_exists, forall_exists_index]
  simp only [hiff]

end AppContext

end HarddriveParty
