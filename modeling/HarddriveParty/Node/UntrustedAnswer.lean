import HarddriveParty.Node.Download
import HarddriveParty.Wishlist.Indexes

/-!
# What an untrusted answer can record

A peer may answer a download request with anything. Whatever it lists, the wishlist gains
files within the requested path only, and one request for this path to this peer; what is
recorded under other ids stays as it was.
-/

namespace HarddriveParty

open UnixPath OrderedTree RequestedFile

/-- The path consists of normal relative components and extends those of the request. -/
def Extends (requestedPath path : String) : Prop :=
  ∃ ms ns : List Name,
    components (Utf8.encode requestedPath) = (ms.map fun n ↦ Component.normal n.val) ∧
      components (Utf8.encode path) = (ns.map fun n ↦ Component.normal n.val) ∧ ms <+: ns

namespace SharedState

/-- What the two checks of a listed entry let through. -/
theorem extends_of_checks {requestedPath : Bytes} {path name : String} {entryPath : Bytes}
    (hpath : safeRemoteRelativePath path = .ok requestedPath)
    (hname : safeRemoteRelativePath name = .ok entryPath)
    (hwithin : remotePathIsWithinRequest requestedPath entryPath = true) : Extends path name := by
  obtain ⟨ms, hms, rfl⟩ := safeRemoteRelativePath_eq_ok_iff.mp hpath
  obtain ⟨ns, hns, rfl⟩ := safeRemoteRelativePath_eq_ok_iff.mp hname
  exact ⟨ms, ns, hms, hns, remotePathIsWithinRequest_joinNames.mp hwithin⟩

/-- No request and no file is recorded under the id yet. -/
structure NewId (w : WishList) (id : UInt32) : Prop where
  request : w.requestsByRequestId[DownloadRequest.idKey id]? = none
  files : w.requestedFiles id = []

/-- What the wishlist `w` has gained over `w₀` for the request. -/
structure Gained (w₀ w : WishList) (path : String) (peerPublicKey : PublicKey) (id : UInt32) :
    Prop where
  others : ∀ k, k ≠ DownloadRequest.idKey id →
    w.requestsByRequestId[k]? = w₀.requestsByRequestId[k]?
  request : w.requestsByRequestId[DownloadRequest.idKey id]? = none ∨
    ∃ r : DownloadRequest, r.timestamp.nanos = 0 ∧ r.requestId = id ∧ r.path = path ∧
      r.peerPublicKey = peerPublicKey ∧
        w.requestsByRequestId[DownloadRequest.idKey id]? = some r.toDbKeyValue.1.2
  files : ∀ k : Bytes, w.requestedFilesByRequestId[k]? = w₀.requestedFilesByRequestId[k]? ∨
    ∃ name size, k = requestKey id name ∧ Extends path name ∧
      w.requestedFilesByRequestId[k]? = some (requestValue size false)

section Loop

variable {w₀ w : WishList} {requestedPath : Bytes} {path : String} {peerPublicKey : PublicKey}
  {id : UInt32}

private theorem Gained.addRequest (h : Gained w₀ w path peerPublicKey id) (nowSecs size : UInt64)
    (isDir : Bool) :
    Gained w₀ (w.addRequest (.create nowSecs path size id peerPublicKey isDir)) path peerPublicKey
      id where
  others := by
    intro k hk
    have hkey : k ≠ (DownloadRequest.create nowSecs path size id peerPublicKey
        isDir).toDbKeyValue.1.1 := hk
    simp only [WishList.addRequest, getElem?_insert, if_neg hkey]
    exact h.others k hk
  request := by
    right
    refine ⟨.create nowSecs path size id peerPublicKey isDir, rfl, rfl, rfl, rfl, ?_⟩
    simp only [WishList.addRequest, getElem?_insert]
    exact if_pos rfl
  files := h.files

private theorem Gained.addRequestedFile (h : Gained w₀ w path peerPublicKey id) {name : String}
    (hname : Extends path name) (size : UInt64) :
    Gained w₀ (w.addRequestedFile ⟨name, size, id, false⟩).1 path peerPublicKey id := by
  cases hr : w.getRequest id with
  | error e =>
    have hsame : (w.addRequestedFile ⟨name, size, id, false⟩).1 = w := by
      rw [WishList.addRequestedFile]
      simp only [hr]
    rwa [hsame]
  | ok r =>
    rw [WishList.addRequestedFile_eq (f := ⟨name, size, id, false⟩) hr]
    refine ⟨h.others, h.request, fun k ↦ ?_⟩
    simp only [getElem?_insert]
    by_cases hk : k = requestKey id name
    · rw [if_pos hk]
      exact Or.inr ⟨name, size, hk, hname, rfl⟩
    · rw [if_neg hk]
      exact h.files k

private theorem Gained.handleEntry (h : Gained w₀ w path peerPublicKey id)
    (hpath : safeRemoteRelativePath path = .ok requestedPath) (nowSecs : UInt64) (entry : Entry) :
    Gained w₀ (SharedState.handleEntry requestedPath path peerPublicKey id nowSecs w entry) path
      peerPublicKey id := by
  unfold SharedState.handleEntry
  split
  · exact h
  · next entryPath hname =>
    split
    · next hwithin =>
      have hextends := extends_of_checks hpath hname hwithin
      by_cases hroot : entry.name = path
      · have hadded := h.addRequest nowSecs entry.size entry.isDir
        simp only [hroot, if_true]
        split
        · exact hadded
        · exact hadded.addRequestedFile (hroot ▸ hextends) entry.size
      · simp only [if_neg hroot]
        split
        · exact h
        · exact h.addRequestedFile hextends entry.size
    · exact h

private theorem Gained.handleEntries (h : Gained w₀ w path peerPublicKey id)
    (hpath : safeRemoteRelativePath path = .ok requestedPath) (now : Nat → UInt64) (n : Nat)
    (entries : List Entry) :
    Gained w₀ (SharedState.handleEntries requestedPath path peerPublicKey id now n w entries) path
      peerPublicKey id := by
  induction entries generalizing n w with
  | nil => exact h
  | cons entry entries ih => exact ih (h.handleEntry hpath (now n) entry) (n + 1)

/-- Whatever responses come, the wishlist gains what belongs to the request. -/
theorem Gained.handleResponses (h : Gained w₀ w path peerPublicKey id)
    (hpath : safeRemoteRelativePath path = .ok requestedPath) (now : Nat → UInt64) (n : Nat)
    (responses : List (Except String LsResponse)) :
    Gained w₀ (SharedState.handleResponses requestedPath path peerPublicKey id now n w responses)
      path peerPublicKey id := by
  induction responses generalizing n w with
  | nil => exact h
  | cons response responses ih =>
    cases response with
    | error e => exact h
    | ok response =>
      exact ih (h.handleEntries hpath now n response.entries) (n + response.entries.length)

end Loop

section Listings

variable {w₀ w : WishList} {path : String} {peerPublicKey : PublicKey} {id : UInt32}

/-- Before the answer nothing is gained. -/
theorem NewId.gained (h : NewId w₀ id) : Gained w₀ w₀ path peerPublicKey id :=
  ⟨fun _ _ ↦ rfl, Or.inl h.request, fun _ ↦ Or.inl rfl⟩

/-- The files that are listed under the id lie within the request. -/
theorem Gained.listed_extends (h : Gained w₀ w path peerPublicKey id) (hnew : NewId w₀ id)
    {f : UiRequestedFile} (hf : f ∈ (w.requestedFiles id).flatten) : Extends path f.path := by
  obtain ⟨hid, b, g, hget, hdec, hg⟩ := WishList.mem_requestedFiles_iff.mp hf
  rcases h.files (requestKey id f.path) with hold | ⟨name, size, hkey, hextends, -⟩
  · rw [hold] at hget
    have hbefore : f ∈ (w₀.requestedFiles id).flatten :=
      WishList.mem_requestedFiles_iff.mpr ⟨hid, b, g, hget, hdec, hg⟩
    rw [hnew.files] at hbefore
    cases hbefore
  · rw [requestKey_inj] at hkey
    rwa [hkey.2]

/-- What is found under the id is the request for the path to the peer. -/
theorem Gained.request_of_getRequest (h : Gained w₀ w path peerPublicKey id)
    {r : DownloadRequest} (hr : w.getRequest id = .ok r) :
    r.path = path ∧ r.peerPublicKey = peerPublicKey := by
  rcases h.request with hnone | ⟨r', hnanos, rfl, rfl, rfl, hsome⟩
  · rw [WishList.getRequest, hnone] at hr
    cases hr
  · have hr' := WishList.getRequest_of_record hnanos hsome
    rw [hr] at hr'
    cases hr'
    exact ⟨rfl, rfl⟩

/-- Other ids have the requests and files they had. -/
theorem Gained.other_unchanged (h : Gained w₀ w path peerPublicKey id) {other : UInt32}
    (hne : other ≠ id) :
    w.getRequest other = w₀.getRequest other ∧
      w.requestedFiles other = w₀.requestedFiles other := by
  constructor
  · have hkey : DownloadRequest.idKey other ≠ DownloadRequest.idKey id :=
      fun hkey ↦ hne (beU32_inj.mp hkey)
    rw [WishList.getRequest, WishList.getRequest, h.others _ hkey]
  · apply WishList.requestedFiles_congr
    intro k hk
    rcases h.files k with hsame | ⟨name, size, rfl, -⟩
    · exact hsame
    · exact absurd (beU32_prefix_requestKey.mp hk) hne

end Listings

/-- All that the listing of requests shows under one id is the same request. -/
theorem requested_unique {w : WishList} {keyToName : PublicKey → String}
    {a b : UiDownloadRequest} (ha : a ∈ (w.requested keyToName).flatten)
    (hb : b ∈ (w.requested keyToName).flatten) (hid : a.requestId = b.requestId) : a = b := by
  obtain ⟨r, progress, hr, hprogress, hra⟩ := WishList.mem_requested ha
  obtain ⟨r', progress', hr', hprogress', hrb⟩ := WishList.mem_requested hb
  rw [hid, hr'] at hr
  rw [hid, hprogress'] at hprogress
  cases hr
  cases hprogress
  rw [hra, hrb]

/-- A download gains what belongs to the request to the connected peer, or nothing. -/
theorem download_gained {w : WishList} {peerPath : PeerPath}
    (lsResponses : Except UiServerError (List (Except String LsResponse)))
    (connectedPeer : Option PublicKey) {id : UInt32} (hnew : NewId w id) (now : Nat → UInt64) :
    (∃ k, connectedPeer = some k ∧
      Gained w (download w peerPath lsResponses connectedPeer id now).1 peerPath.path k id) ∨
    (download w peerPath lsResponses connectedPeer id now).1 = w := by
  unfold download
  split
  · exact Or.inr rfl
  · next requestedPath hpath =>
    split
    · exact Or.inr rfl
    · exact Or.inr rfl
    · next responses k =>
      exact Or.inl ⟨k, rfl, hnew.gained.handleResponses hpath now 0 responses⟩

/-- Whatever a peer answers, a download records files within the requested path only, under
at most one request for this path to this peer, and touches no other request. The wishlist has
one record for each id; the listing of the requests may repeat it, once for each second at
which it was added. -/
theorem download_contained (keyToName : PublicKey → String) (w : WishList) (peerPath : PeerPath)
    (lsResponses : Except UiServerError (List (Except String LsResponse)))
    (connectedPeer : Option PublicKey) {id : UInt32} (hnew : NewId w id) (now : Nat → UInt64) :
    ∃ w' result, download w peerPath lsResponses connectedPeer id now = (w', result) ∧
      (∀ f ∈ (w'.requestedFiles id).flatten, Extends peerPath.path f.path) ∧
      (∀ r, w'.getRequest id = .ok r →
        r.path = peerPath.path ∧ connectedPeer = some r.peerPublicKey) ∧
      (∀ a ∈ (w'.requested keyToName).flatten, ∀ b ∈ (w'.requested keyToName).flatten,
        a.requestId = id → b.requestId = id → a = b ∧ a.path = peerPath.path) ∧
      ∀ other, other ≠ id → w'.getRequest other = w.getRequest other ∧
        w'.requestedFiles other = w.requestedFiles other := by
  refine ⟨(download w peerPath lsResponses connectedPeer id now).1,
    (download w peerPath lsResponses connectedPeer id now).2, rfl, ?_⟩
  rcases download_gained lsResponses connectedPeer hnew now with ⟨k, rfl, h⟩ | hsame
  · refine ⟨fun f hf ↦ h.listed_extends hnew hf, fun r hr ↦ ?_, fun a ha b hb hia hib ↦ ?_,
      fun other hne ↦ h.other_unchanged hne⟩
    · obtain ⟨hpath, hkey⟩ := h.request_of_getRequest hr
      exact ⟨hpath, by rw [hkey]⟩
    · refine ⟨requested_unique ha hb (hia.trans hib.symm), ?_⟩
      obtain ⟨r, progress, hr, -, hra⟩ := WishList.mem_requested ha
      rw [hia] at hr
      rw [hra]
      exact (h.request_of_getRequest hr).1
  · rw [hsame]
    have hnone (r : DownloadRequest) : w.getRequest id ≠ .ok r := by
      rw [WishList.getRequest, hnew.request]
      intro herror
      cases herror
    refine ⟨fun f hf ↦ ?_, fun r hr ↦ absurd hr (hnone r), fun a ha b hb hia hib ↦ ?_,
      fun other _ ↦ ⟨rfl, rfl⟩⟩
    · rw [hnew.files] at hf
      cases hf
    · obtain ⟨r, progress, hr, -, -⟩ := WishList.mem_requested ha
      rw [hia] at hr
      exact absurd hr (hnone r)

/-- An answer that tries to leave the request, with a duplicate and an error in it. -/
def hostileAnswer : List (Except String LsResponse) :=
  [.ok (.success [⟨"music/../../x", 1, false⟩, ⟨"music", 3, true⟩, ⟨"musical", 1, false⟩,
    ⟨"music/a", 3, false⟩]), .ok (.err .dbError), .ok (.success [⟨"music", 9, true⟩]),
    .error "Message too large"]

/-- A hostile answer to a request for `music`. -/
theorem download_contained_hostile :
    ∃ w' result, download WishList.empty ⟨"peer", "music"⟩ (.ok hostileAnswer)
        (some ⟨List.replicate 32 2, by decide⟩) 7 (fun n ↦ UInt64.ofNat n) = (w', result) ∧
      ∀ f ∈ (w'.requestedFiles 7).flatten, Extends "music" f.path := by
  have hnew : NewId WishList.empty 7 := by
    constructor
    · simp [WishList.empty]
    · rfl
  obtain ⟨w', result, hrun, hfiles, -⟩ := download_contained (fun _ ↦ "peer") WishList.empty
    ⟨"peer", "music"⟩ (.ok hostileAnswer) (some ⟨List.replicate 32 2, by decide⟩) hnew
      fun n ↦ UInt64.ofNat n
  exact ⟨w', result, hrun, hfiles⟩

end SharedState

end HarddriveParty
