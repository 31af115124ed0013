import HarddriveParty.Shared.UiMessages
import HarddriveParty.Shared.WireMessages
import HarddriveParty.Transfer.Target
import HarddriveParty.Wishlist.Records

/-!
# Downloading a file

Model of `download` in `src/peer.rs`: set up the target, request what is missing from the
peer, and append what arrives block by block. The blocks, the outcome of each write, the
time that passes and the measured speed are inputs.
-/

namespace HarddriveParty

open UnixPath UnixFs

namespace Peer

/-- Minimum data delta before sending a progress update to the UI (`src/peer.rs:37`). -/
def minUiUpdateBytes : UInt64 := 256 * 1024

/-- Minimum milliseconds between progress updates when transferring quickly. -/
def minUiUpdateInterval : Nat := 300

/-- Maximum milliseconds between progress updates on slow links. -/
def maxUiUpdateInterval : Nat := 2000

/-- One pass of the download loop: the block that was received, how many of its bytes reach
the file, whether the write reports success, the milliseconds since the last update, and the
measured speed. -/
structure Pass where
  block : Bytes
  stored : Nat
  accepted : Bool
  elapsed : Nat
  speed : UInt32

/-- How the answer of the peer arrives: the blocks until the stream ends or fails, which makes
no difference, and the speed measured then. -/
structure RecvStream where
  passes : List Pass
  finalSpeed : UInt32

/-- The bytes that arrive. -/
def RecvStream.received (stream : RecvStream) : Bytes := stream.passes.flatMap Pass.block

/-- The variables of the download loop. -/
structure Progress where
  fs : Fs
  bytesRead : UInt64
  totalBytesRead : UInt64
  sinceLastUiUpdate : UInt64
  finalSpeed : UInt32
  events : List UiEvent

/-- The download loop (`src/peer.rs:218`). A failed write leaves it at once; the end of the
stream and an error on it count the bytes since the last update. -/
def downloadLoop (event : UInt64 → UInt64 → UInt32 → UiEvent) (file : List Name)
    (finalSpeed : UInt32) (p : Progress) : List Pass → Progress
  | [] => { p with bytesRead := p.bytesRead + p.sinceLastUiUpdate, finalSpeed := finalSpeed }
  | pass :: rest =>
    let sinceLastUiUpdate := p.sinceLastUiUpdate + UInt64.ofNat pass.block.length
    let fs := p.fs.append file (pass.block.take pass.stored)
    if pass.accepted = false then
      { p with fs := fs, sinceLastUiUpdate := sinceLastUiUpdate }
    else
      let shouldEmit := (decide (minUiUpdateBytes ≤ sinceLastUiUpdate) &&
        decide (minUiUpdateInterval ≤ pass.elapsed)) || decide (maxUiUpdateInterval ≤ pass.elapsed)
      if shouldEmit then
        let bytesRead := p.bytesRead + sinceLastUiUpdate
        let totalBytesRead := p.totalBytesRead + sinceLastUiUpdate
        downloadLoop event file finalSpeed
          { p with
            fs := fs
            bytesRead := bytesRead
            totalBytesRead := totalBytesRead
            sinceLastUiUpdate := 0
            events := p.events ++ [event bytesRead totalBytesRead pass.speed] } rest
      else
        downloadLoop event file finalSpeed
          { p with fs := fs, sinceLastUiUpdate := sinceLastUiUpdate } rest

/-- The comparison `start_offset >= Some(size)`. -/
def alreadyDownloaded (startOffset : Option UInt64) (size : UInt64) : Bool :=
  match startOffset with
  | none => false
  | some offset => decide (size ≤ offset)

/-- The counter starts at the length of the local file, or at the size when that is less. -/
theorem startOffset_toNat {existing : Nat} (h : existing < 2 ^ 64) (size : UInt64) :
    ((startOffset (UInt64.ofNat existing) size).getD 0).toNat = min existing size.toNat := by
  have hto : (UInt64.ofNat existing).toNat = existing := by simpa using h
  unfold startOffset
  split
  · next hless =>
    rw [UInt64.lt_iff_toNat_lt, hto] at hless
    show size.toNat = _
    omega
  · next hle =>
    rw [UInt64.lt_iff_toNat_lt, hto] at hle
    split
    · next hzero =>
      have h0 := congrArg UInt64.toNat hzero
      rw [hto] at h0
      show (0 : UInt64).toNat = _
      rw [h0]
      simp
    · show (UInt64.ofNat existing).toNat = _
      omega

/-- A local file counts as downloaded when it has bytes and at least the requested size. -/
theorem alreadyDownloaded_iff {existing : Nat} (h : existing < 2 ^ 64) (size : UInt64) :
    alreadyDownloaded (startOffset (UInt64.ofNat existing) size) size = true ↔
      existing ≠ 0 ∧ size.toNat ≤ existing := by
  have hto : (UInt64.ofNat existing).toNat = existing := by simpa using h
  have hzero : UInt64.ofNat existing = 0 ↔ existing = 0 := by
    rw [← UInt64.toNat_inj, hto]
    rfl
  unfold startOffset
  split
  · next hless =>
    rw [UInt64.lt_iff_toNat_lt, hto] at hless
    simp only [alreadyDownloaded, UInt64.le_refl, decide_true, true_iff]
    omega
  · next hle =>
    rw [UInt64.lt_iff_toNat_lt, hto] at hle
    split
    · next h0 => simp [alreadyDownloaded, hzero.mp h0]
    · next h0 =>
      rw [alreadyDownloaded, decide_eq_true_eq, UInt64.le_iff_toNat_le, hto]
      exact ⟨fun hs ↦ ⟨mt hzero.mpr h0, hs⟩, And.right⟩

/-- The message about a stream that stopped early. -/
def incompleteMessage (bytesRead size : UInt64) : String :=
  "Download incomplete - " ++ toString bytesRead ++ " of " ++ toString size ++
    " bytes downloaded"

/-- Download a file (or file portion) from the remote peer (`src/peer.rs:182`). `answer` is
what comes back for a read request, an error when the request cannot be sent. -/
def download (fs : Fs) (requestedFile : RequestedFile)
    (answer : ReadQuery → Except TransferError RecvStream) (downloadDir : Bytes)
    (peerName : String) (progressRequest : UInt64) (associatedRequest : DownloadRequest) :
    Fs × List UiEvent × Except TransferError Unit :=
  let event (bytesRead totalBytesRead : UInt64) (speed : UInt32) : UiEvent :=
    .download ⟨requestedFile.requestId, associatedRequest.path, peerName,
      .downloading requestedFile.path bytesRead totalBytesRead speed⟩
  match setupDownload fs downloadDir requestedFile.path requestedFile.size with
  | (fs, .error e) => (fs, [], .error e)
  | (fs, .ok (file, startOffset)) =>
    let start : Progress := ⟨fs, startOffset.getD 0, progressRequest, 0, 0, []⟩
    let loop : Except TransferError Progress :=
      if alreadyDownloaded startOffset requestedFile.size then .ok start
      else
        -- make_read_request
        match answer ⟨requestedFile.path, startOffset, none⟩ with
        | .error e => .error e
        | .ok stream => .ok (downloadLoop event file stream.finalSpeed start stream.passes)
    match loop with
    | .error e => (fs, [], .error e)
    | .ok p =>
      -- Send a final update to give the UI an accurate report on bytes downloaded
      let events := p.events ++ [event p.bytesRead p.totalBytesRead p.finalSpeed]
      if p.bytesRead < requestedFile.size then
        (p.fs, events, .error (.message (incompleteMessage p.bytesRead requestedFile.size)))
      else (p.fs, events, .ok ())

section Loop

variable {event : UInt64 → UInt64 → UInt32 → UiEvent} {file : List Name} {finalSpeed : UInt32}

/-- Every block reaches the file in full and the writes report success. -/
def StoredInFull (passes : List Pass) : Prop :=
  ∀ pass ∈ passes, pass.block.length ≤ pass.stored ∧ pass.accepted = true

/-- The loop changes at most the content of the file. -/
theorem grows_downloadLoop {fs : Fs} {p : Progress} (h : fs.Grows p.fs) (passes : List Pass) :
    fs.Grows (downloadLoop event file finalSpeed p passes).fs := by
  induction passes generalizing p with
  | nil => exact h
  | cons pass rest ih =>
    have happend := h.trans (Fs.grows_append p.fs file (pass.block.take pass.stored))
    rw [downloadLoop]
    split
    · exact happend
    · dsimp only
      split
      · apply ih
        exact happend
      · apply ih
        exact happend

/-- When the writes succeed in full the loop appends and counts every byte that arrives. -/
theorem downloadLoop_stored {passes : List Pass} (hstored : StoredInFull passes)
    (p : Progress) {c : Bytes} (hfile : p.fs.node file = some (.file c)) :
    (downloadLoop event file finalSpeed p passes).bytesRead =
        p.bytesRead + p.sinceLastUiUpdate + UInt64.ofNat (passes.flatMap Pass.block).length ∧
      (downloadLoop event file finalSpeed p passes).fs.node file =
        some (.file (c ++ passes.flatMap Pass.block)) ∧
      p.fs.Grows (downloadLoop event file finalSpeed p passes).fs := by
  induction passes generalizing p c with
  | nil =>
    refine ⟨?_, ?_, Fs.Grows.refl p.fs⟩
    · simp [downloadLoop]
    · rw [List.flatMap_nil, List.append_nil]
      exact hfile
  | cons pass rest ih =>
    obtain ⟨hfull, haccepted⟩ := hstored pass (by simp)
    have hrest : StoredInFull rest := fun pass' h ↦ hstored pass' (by simp [h])
    have happend := Fs.node_append_file hfile (pass.block.take pass.stored)
    have hgrows := Fs.grows_append p.fs file (pass.block.take pass.stored)
    rw [List.take_of_length_le hfull] at happend hgrows
    -- both branches go on with the block appended and counted
    have next : ∀ q : Progress, q.fs = p.fs.append file pass.block →
        q.bytesRead + q.sinceLastUiUpdate =
          p.bytesRead + p.sinceLastUiUpdate + UInt64.ofNat pass.block.length →
        (downloadLoop event file finalSpeed q rest).bytesRead =
            p.bytesRead + p.sinceLastUiUpdate +
              UInt64.ofNat (pass.block ++ rest.flatMap Pass.block).length ∧
          (downloadLoop event file finalSpeed q rest).fs.node file =
            some (.file (c ++ (pass.block ++ rest.flatMap Pass.block))) ∧
          p.fs.Grows (downloadLoop event file finalSpeed q rest).fs := by
      intro q hfs hcount
      rw [← hfs] at happend hgrows
      obtain ⟨hread, hnode, hmore⟩ := ih hrest q happend
      refine ⟨?_, ?_, hgrows.trans hmore⟩
      · rw [hread, hcount, List.length_append, UInt64.ofNat_add, UInt64.add_assoc]
      · rw [hnode, List.append_assoc]
    rw [downloadLoop, List.take_of_length_le hfull, haccepted, List.flatMap_cons]
    simp only [Bool.true_eq_false, if_false]
    split
    · apply next
      · rfl
      · simp only [UInt64.add_zero, UInt64.add_assoc]
    · apply next
      · rfl
      · simp only [UInt64.add_assoc]

end Loop

/-- A download adds directories and the target at most. -/
theorem grows_download (fs : Fs) (requestedFile : RequestedFile)
    (answer : ReadQuery → Except TransferError RecvStream) (downloadDir : Bytes)
    (peerName : String) (progress : UInt64) (r : DownloadRequest) :
    fs.Grows (download fs requestedFile answer downloadDir peerName progress r).1 := by
  have hsetup := grows_setupDownload fs downloadDir requestedFile.path requestedFile.size
  unfold download
  dsimp only
  split
  · next hrun => rwa [hrun] at hsetup
  · next fs₁ file offset hrun =>
    rw [hrun] at hsetup
    split
    · exact hsetup
    · next p hp =>
      have hloop : fs₁.Grows p.fs := by
        split at hp
        · cases hp
          exact Fs.Grows.refl fs₁
        · split at hp
          · cases hp
          · cases hp
            apply grows_downloadLoop
            exact Fs.Grows.refl fs₁
      split
      · exact hsetup.trans hloop
      · exact hsetup.trans hloop

section Cases

variable {fs fs₁ : Fs} {requestedFile : RequestedFile}
  {answer : ReadQuery → Except TransferError RecvStream} {downloadDir : Bytes} {file : List Name}
  {offset : Option UInt64}

/-- Without a target nothing is downloaded. -/
theorem download_no_target {e : TransferError}
    (hsetup : setupDownload fs downloadDir requestedFile.path requestedFile.size =
      (fs₁, .error e)) (peerName : String) (progress : UInt64) (r : DownloadRequest) :
    download fs requestedFile answer downloadDir peerName progress r = (fs₁, [], .error e) := by
  rw [download, hsetup]

variable (hsetup : setupDownload fs downloadDir requestedFile.path requestedFile.size =
  (fs₁, .ok (file, offset)))
include hsetup

/-- A file that is large enough counts as downloaded. -/
theorem download_skip (hskip : alreadyDownloaded offset requestedFile.size = true)
    (answer : ReadQuery → Except TransferError RecvStream) (peerName : String)
    (progress : UInt64) (r : DownloadRequest) :
    (download fs requestedFile answer downloadDir peerName progress r).1 = fs₁ ∧
      (download fs requestedFile answer downloadDir peerName progress r).2.2 = .ok () := by
  cases offset with
  | none => cases hskip
  | some offset =>
    have hnot : ¬ offset < requestedFile.size := by
      rw [UInt64.not_lt]
      exact of_decide_eq_true hskip
    rw [download, hsetup]
    simp [hskip, hnot]

variable (hrequest : alreadyDownloaded offset requestedFile.size = false)
include hrequest

/-- A request that cannot be sent is an error. -/
theorem download_unsent {e : TransferError}
    (hanswer : answer ⟨requestedFile.path, offset, none⟩ = .error e) (peerName : String)
    (progress : UInt64) (r : DownloadRequest) :
    download fs requestedFile answer downloadDir peerName progress r = (fs₁, [], .error e) := by
  rw [download, hsetup]
  simp only [hrequest, Bool.false_eq_true, if_false, hanswer]

/-- What arrives is appended, and the download is complete once the counted bytes reach the
size. -/
theorem download_received {stream : RecvStream} {c : Bytes}
    (hanswer : answer ⟨requestedFile.path, offset, none⟩ = .ok stream)
    (hstored : StoredInFull stream.passes) (hfile : fs₁.node file = some (.file c))
    (peerName : String) (progress : UInt64) (r : DownloadRequest) :
    fs₁.Grows (download fs requestedFile answer downloadDir peerName progress r).1 ∧
      (download fs requestedFile answer downloadDir peerName progress r).1.node file =
        some (.file (c ++ stream.received)) ∧
      ((download fs requestedFile answer downloadDir peerName progress r).2.2 = .ok () ↔
        ¬ offset.getD 0 + UInt64.ofNat stream.received.length < requestedFile.size) := by
  have hloop (event : UInt64 → UInt64 → UInt32 → UiEvent) (p : Progress)
      (hp : p = ⟨fs₁, offset.getD 0, progress, 0, 0, []⟩) :
      (downloadLoop event file stream.finalSpeed p stream.passes).bytesRead =
          offset.getD 0 + UInt64.ofNat stream.received.length ∧
        (downloadLoop event file stream.finalSpeed p stream.passes).fs.node file =
          some (.file (c ++ stream.received)) ∧
        fs₁.Grows (downloadLoop event file stream.finalSpeed p stream.passes).fs := by
    have hfile' : p.fs.node file = some (.file c) := by rw [hp, hfile]
    obtain ⟨hcount, hnode, hgrows⟩ := downloadLoop_stored hstored p hfile'
    rw [hp] at hcount hgrows ⊢
    refine ⟨hcount.trans ?_, hp ▸ hnode, hgrows⟩
    show offset.getD 0 + 0 + _ = _
    rw [UInt64.add_zero]
    rfl
  rw [download, hsetup]
  simp only [hrequest, Bool.false_eq_true, if_false, hanswer, (hloop _ _ rfl).1]
  split
  · next hless =>
    exact ⟨(hloop _ _ rfl).2.2, (hloop _ _ rfl).2.1,
      iff_of_false (fun h ↦ by cases h) (not_not.mpr hless)⟩
  · next hless => exact ⟨(hloop _ _ rfl).2.2, (hloop _ _ rfl).2.1, iff_of_true rfl hless⟩

end Cases

end Peer

end HarddriveParty
