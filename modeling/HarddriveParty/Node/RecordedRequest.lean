import HarddriveParty.Node.UntrustedAnswer
import HarddriveParty.Streams.LsResponses

/-!
# Whether a download is recorded

`SharedState::download` (`src/lib.rs:233`) returns its request id on every way out of the loop
over the responses, but records the request only for a listed entry with the name that was
asked for. The id stands for a request exactly when such an entry came before the first error
on the stream.
-/

namespace HarddriveParty

open UnixPath OrderedTree

namespace WishList

/-- Adding a file changes no request. -/
theorem getRequest_addRequestedFile (w : WishList) (f : RequestedFile) (id : UInt32) :
    (w.addRequestedFile f).1.getRequest id = w.getRequest id := by
  cases hr : w.getRequest f.requestId with
  | error e => rw [addRequestedFile_error hr]
  | ok r =>
    rw [addRequestedFile_eq hr]
    rfl

/-- A request for the path is found under the id. -/
def HasRequest (w : WishList) (id : UInt32) (path : String) : Prop :=
  ∃ r, w.getRequest id = .ok r ∧ r.path = path

end WishList

/-- An entry with exactly this name comes before the first error on the response stream. -/
def ListsName (path : String) : List (Except String LsResponse) → Prop
  | [] => False
  | .error _ :: _ => False
  | .ok response :: rest => (∃ e ∈ response.entries, e.name = path) ∨ ListsName path rest

namespace SharedState

section Loop

variable {requestedPath : Bytes} {path : String}

/-- The entry that was asked for passes both checks. -/
theorem within_self (hpath : safeRemoteRelativePath path = .ok requestedPath) :
    remotePathIsWithinRequest requestedPath requestedPath = true := by
  obtain ⟨ns, rfl⟩ := exists_joinNames_of_safeRemoteRelativePath hpath
  exact remotePathIsWithinRequest_joinNames.mpr (List.prefix_refl ns)

variable (hpath : safeRemoteRelativePath path = .ok requestedPath)
include hpath

/-- Handling an entry records the request when the entry has the name that was asked for. -/
theorem hasRequest_handleEntry (peerPublicKey : PublicKey) (id : UInt32) (nowSecs : UInt64)
    (w : WishList) (entry : Entry) :
    (handleEntry requestedPath path peerPublicKey id nowSecs w entry).HasRequest id path ↔
      entry.name = path ∨ w.HasRequest id path := by
  by_cases hname : entry.name = path
  · rw [iff_true_right (Or.inl hname)]
    have hadded : (w.addRequest (.create nowSecs entry.name entry.size id peerPublicKey
        entry.isDir)).HasRequest id path := by
      refine ⟨.create nowSecs entry.name entry.size id peerPublicKey entry.isDir, ?_, hname⟩
      rw [WishList.getRequest_addRequest rfl]
      exact if_pos rfl
    unfold handleEntry
    rw [hname, hpath]
    simp only [within_self hpath, if_true]
    rw [hname] at hadded
    split
    · exact hadded
    · obtain ⟨r, hr, hrpath⟩ := hadded
      exact ⟨r, by rw [WishList.getRequest_addRequestedFile, hr], hrpath⟩
  · rw [or_iff_right hname]
    have hsame :
        (handleEntry requestedPath path peerPublicKey id nowSecs w entry).getRequest id =
          w.getRequest id := by
      unfold handleEntry
      split
      · rfl
      · split
        · split
          · rfl
          · exact WishList.getRequest_addRequestedFile ..
        · rfl
    rw [WishList.HasRequest, WishList.HasRequest, hsame]

/-- The entries of a response record the request when one of them has the name. -/
theorem hasRequest_handleEntries (peerPublicKey : PublicKey) (id : UInt32) (now : Nat → UInt64)
    (n : Nat) (w : WishList) (entries : List Entry) :
    (handleEntries requestedPath path peerPublicKey id now n w entries).HasRequest id path ↔
      (∃ e ∈ entries, e.name = path) ∨ w.HasRequest id path := by
  induction entries generalizing n w with
  | nil => simp [handleEntries]
  | cons entry rest ih =>
    rw [handleEntries, ih, hasRequest_handleEntry hpath, List.exists_mem_cons_iff, or_left_comm,
      or_assoc]

/-- The responses record the request when one of them lists the name. -/
theorem hasRequest_handleResponses (peerPublicKey : PublicKey) (id : UInt32) (now : Nat → UInt64)
    (n : Nat) (w : WishList) (responses : List (Except String LsResponse)) :
    (handleResponses requestedPath path peerPublicKey id now n w responses).HasRequest id path ↔
      ListsName path responses ∨ w.HasRequest id path := by
  induction responses generalizing n w with
  | nil => simp [handleResponses, ListsName]
  | cons item rest ih =>
    cases item with
    | error e => simp [handleResponses, ListsName]
    | ok response =>
      rw [handleResponses, ih, hasRequest_handleEntries hpath, ListsName, or_left_comm, or_assoc]

end Loop

/-- When a download returns an id, a request for the path is found under this id exactly when
an entry with this name came before the first error on the stream, or such a request was there
already. -/
theorem download_records_iff {w w' : WishList} {peerPath : PeerPath}
    {responses : List (Except String LsResponse)} {connectedPeer : Option PublicKey}
    {id id' : UInt32} {now : Nat → UInt64}
    (hrun : download w peerPath (.ok responses) connectedPeer id now = (w', .ok id')) :
    w'.HasRequest id' peerPath.path ↔
      ListsName peerPath.path responses ∨ w.HasRequest id' peerPath.path := by
  unfold download at hrun
  split at hrun
  · cases hrun
  · next requestedPath hpath =>
    cases connectedPeer with
    | none => cases hrun
    | some peerPublicKey =>
      cases hrun
      exact hasRequest_handleResponses hpath peerPublicKey id now 0 w responses

/-- A listed directory is recorded. -/
theorem download_records_music :
    ∃ w', download WishList.empty ⟨"peer", "music"⟩ (.ok [.ok (.success [⟨"music", 3, true⟩])])
        (some ⟨List.replicate 32 2, by decide⟩) 7 (fun _ ↦ 0) = (w', .ok 7) ∧
      w'.HasRequest 7 "music" := by
  have hlists : ListsName "music" [.ok (.success [⟨"music", 3, true⟩])] :=
    Or.inl ⟨⟨"music", 3, true⟩, by simp [LsResponse.entries], rfl⟩
  have hrun : ∃ w', download WishList.empty ⟨"peer", "music"⟩
      (.ok [.ok (.success [⟨"music", 3, true⟩])]) (some ⟨List.replicate 32 2, by decide⟩) 7
        (fun _ ↦ 0) = (w', .ok 7) := ⟨_, rfl⟩
  obtain ⟨w', hrun⟩ := hrun
  exact ⟨w', hrun, (download_records_iff hrun).mpr (Or.inl hlists)⟩

/-- The peer answers that it does not have the path, and the download returns an id all the
same. -/
theorem download_without_request :
    ∃ w', download WishList.empty ⟨"peer", "music"⟩
        (.ok [.ok (.err (.internalServer RpcError.pathNotFound.text))])
        (some ⟨List.replicate 32 2, by decide⟩) 7 (fun _ ↦ 0) = (w', .ok 7) ∧
      ¬ w'.HasRequest 7 "music" := by
  refine ⟨_, rfl, ?_⟩
  rintro ⟨r, hr, -⟩
  cases hr

end SharedState

end HarddriveParty
