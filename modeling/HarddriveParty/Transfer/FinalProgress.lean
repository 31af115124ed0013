import HarddriveParty.Transfer.Integrity

/-!
# The final progress event

The download loop (`src/peer.rs:218`) moves the bytes since the last update into two running
totals when an update is due, and at the end of the stream into one of them only. What arrives
after the last update is therefore missing from the total of the request.
-/

namespace HarddriveParty

open UnixPath UnixFs

namespace Peer

/-- An update is due: enough bytes and some time since the last one, or a long time. -/
def updateDue (since : UInt64) (elapsed : Nat) : Bool :=
  (decide (minUiUpdateBytes ≤ since) && decide (minUiUpdateInterval ≤ elapsed)) ||
    decide (maxUiUpdateInterval ≤ elapsed)

/-- How many bytes arrive after the last block at which an update is due. -/
def unreported : UInt64 → List Pass → UInt64
  | since, [] => since
  | since, pass :: rest =>
    let since := since + UInt64.ofNat pass.block.length
    unreported (if updateDue since pass.elapsed then 0 else since) rest

/-- What a download receives: nothing when the file counts as downloaded, and otherwise the
answer to the read request from the start offset on. -/
def Receives (answer : ReadQuery → Except TransferError RecvStream) (requestedFile : RequestedFile)
    (startOffset : Option UInt64) (stream : RecvStream) : Prop :=
  if alreadyDownloaded startOffset requestedFile.size then stream = ⟨[], 0⟩
  else answer ⟨requestedFile.path, startOffset, none⟩ = .ok stream

/-- The progress event of a download. -/
def progressEvent (requestedFile : RequestedFile) (peerName : String)
    (associatedRequest : DownloadRequest) (bytesRead totalBytesRead : UInt64) (speed : UInt32) :
    UiEvent :=
  .download ⟨requestedFile.requestId, associatedRequest.path, peerName,
    .downloading requestedFile.path bytesRead totalBytesRead speed⟩

/-- The last event of a download reports these two counters. -/
def EndsWith (run : Fs × List UiEvent × Except TransferError Unit)
    (requestedFile : RequestedFile) (peerName : String) (associatedRequest : DownloadRequest)
    (bytesRead totalBytesRead : UInt64) : Prop :=
  ∃ speed, run.2.1.getLast? =
    some (progressEvent requestedFile peerName associatedRequest bytesRead totalBytesRead speed)

section Loop

variable {event : UInt64 → UInt64 → UInt32 → UiEvent} {file : List Name} {finalSpeed : UInt32}

/-- Over blocks that are written, both totals miss exactly the bytes since the last update. -/
theorem downloadLoop_counters {passes : List Pass} (h : ∀ pass ∈ passes, pass.accepted = true)
    (p : Progress) (tail : List Pass) :
    ∃ q : Progress, downloadLoop event file finalSpeed p (passes ++ tail) =
        downloadLoop event file finalSpeed q tail ∧
      q.sinceLastUiUpdate = unreported p.sinceLastUiUpdate passes ∧
      q.bytesRead + q.sinceLastUiUpdate = p.bytesRead + p.sinceLastUiUpdate +
        UInt64.ofNat (passes.flatMap Pass.block).length ∧
      q.totalBytesRead + q.sinceLastUiUpdate = p.totalBytesRead + p.sinceLastUiUpdate +
        UInt64.ofNat (passes.flatMap Pass.block).length := by
  induction passes generalizing p with
  | nil => exact ⟨p, rfl, rfl, by simp, by simp⟩
  | cons pass rest ih =>
    have haccepted := h pass (by simp)
    have hrest : ∀ pass' ∈ rest, pass'.accepted = true := fun pass' hp ↦ h pass' (by simp [hp])
    rw [List.cons_append, downloadLoop, haccepted, unreported, List.flatMap_cons,
      List.length_append, UInt64.ofNat_add]
    simp only [Bool.true_eq_false, if_false]
    by_cases hdue : updateDue (p.sinceLastUiUpdate + UInt64.ofNat pass.block.length) pass.elapsed
    · have hemit := hdue
      unfold updateDue at hemit
      rw [if_pos hemit, if_pos hdue]
      obtain ⟨q, hrun, hsince, hread, htotal⟩ := ih hrest _
      refine ⟨q, hrun, hsince, ?_, ?_⟩
      · rw [hread]
        simp only [UInt64.add_zero, UInt64.add_assoc]
      · rw [htotal]
        simp only [UInt64.add_zero, UInt64.add_assoc]
    · have hemit := hdue
      unfold updateDue at hemit
      rw [if_neg hemit, if_neg hdue]
      obtain ⟨q, hrun, hsince, hread, htotal⟩ := ih hrest _
      refine ⟨q, hrun, hsince, ?_, ?_⟩
      · rw [hread]
        simp only [UInt64.add_assoc]
      · rw [htotal]
        simp only [UInt64.add_assoc]

end Loop

section Download

variable {fs fs₁ : Fs} {requestedFile : RequestedFile}
  {answer : ReadQuery → Except TransferError RecvStream} {downloadDir : Bytes} {file : List Name}
  {offset : Option UInt64} {stream : RecvStream}

/-- A download that was set up runs the loop over what it receives, sends a last event, and is
complete when the bytes it counted reach the size. -/
theorem download_receives
    (hsetup : setupDownload fs downloadDir requestedFile.path requestedFile.size =
      (fs₁, .ok (file, offset)))
    (hreceives : Receives answer requestedFile offset stream) (peerName : String)
    (progress : UInt64) (r : DownloadRequest) {p : Progress}
    (hloop : downloadLoop (progressEvent requestedFile peerName r) file stream.finalSpeed
      ⟨fs₁, offset.getD 0, progress, 0, 0, []⟩ stream.passes = p) :
    (download fs requestedFile answer downloadDir peerName progress r).1 = p.fs ∧
      (download fs requestedFile answer downloadDir peerName progress r).2.1 =
        p.events ++
          [progressEvent requestedFile peerName r p.bytesRead p.totalBytesRead p.finalSpeed] ∧
      ((download fs requestedFile answer downloadDir peerName progress r).2.2 = .ok () ↔
        ¬ p.bytesRead < requestedFile.size) := by
  have hdownload : download fs requestedFile answer downloadDir peerName progress r =
      if p.bytesRead < requestedFile.size then
        (p.fs, p.events ++
            [progressEvent requestedFile peerName r p.bytesRead p.totalBytesRead p.finalSpeed],
          .error (.message (incompleteMessage p.bytesRead requestedFile.size)))
      else
        (p.fs, p.events ++
          [progressEvent requestedFile peerName r p.bytesRead p.totalBytesRead p.finalSpeed],
          .ok ()) := by
    unfold Receives at hreceives
    rw [download, hsetup]
    cases hskip : alreadyDownloaded offset requestedFile.size with
    | true =>
      rw [hskip, if_pos rfl] at hreceives
      subst hreceives
      have hstart : p = ⟨fs₁, offset.getD 0, progress, 0, 0, []⟩ := by
        rw [← hloop]
        simp [downloadLoop]
      subst hstart
      simp only [hskip, if_true]
      rfl
    | false =>
      rw [hskip, if_neg Bool.false_ne_true] at hreceives
      simp only [hreceives, hskip, Bool.false_eq_true, if_false]
      rw [← hloop]
      rfl
  rw [hdownload]
  split
  · next hless => exact ⟨rfl, rfl, iff_of_false (fun h ↦ by cases h) (not_not.mpr hless)⟩
  · next hless => exact ⟨rfl, rfl, iff_of_true rfl hless⟩

/-- A download whose writes succeed reports all bytes as read, and all but the unreported ones
as read for the request. -/
theorem download_endsWith
    (hsetup : setupDownload fs downloadDir requestedFile.path requestedFile.size =
      (fs₁, .ok (file, offset)))
    (hreceives : Receives answer requestedFile offset stream)
    (hwritten : ∀ pass ∈ stream.passes, pass.accepted = true) (peerName : String)
    (progress : UInt64) (r : DownloadRequest) {bytesRead total : UInt64} :
    EndsWith (download fs requestedFile answer downloadDir peerName progress r) requestedFile
        peerName r bytesRead total ↔
      bytesRead = offset.getD 0 + UInt64.ofNat stream.received.length ∧
        total + unreported 0 stream.passes =
          progress + UInt64.ofNat stream.received.length := by
  obtain ⟨q, hrun, hsince, hread, htotal⟩ :=
    @downloadLoop_counters (progressEvent requestedFile peerName r) file stream.finalSpeed
      stream.passes hwritten ⟨fs₁, offset.getD 0, progress, 0, 0, []⟩ []
  rw [List.append_nil, downloadLoop] at hrun
  obtain ⟨-, hevents, -⟩ := download_receives hsetup hreceives peerName progress r hrun
  simp only [UInt64.add_zero] at hread htotal hsince
  rw [EndsWith, hevents, List.getLast?_append]
  simp only [List.getLast?_singleton, Option.some_or, Option.some.injEq, progressEvent,
    UiEvent.download.injEq, DownloadEvent.mk.injEq, DownloadInfo.downloading.injEq, true_and]
  constructor
  · rintro ⟨speed, rfl, rfl, -⟩
    exact ⟨hread, hsince ▸ htotal⟩
  · rintro ⟨rfl, ht⟩
    rw [hsince] at htotal
    exact ⟨_, hread, (UInt64.add_left_inj _).mp (htotal.trans ht.symm), rfl⟩

/-- The writes of two downloads of the same blocks succeed, so the last event of the first is
accurate exactly when no byte arrives after the last update that was due, and those of both
report the same exactly when as many bytes do. -/
theorem final_progress_iff {answer' : ReadQuery → Except TransferError RecvStream}
    {stream' : RecvStream}
    (hsetup : setupDownload fs downloadDir requestedFile.path requestedFile.size =
      (fs₁, .ok (file, offset)))
    (hreceives : Receives answer requestedFile offset stream)
    (hwritten : ∀ pass ∈ stream.passes, pass.accepted = true)
    (hreceives' : Receives answer' requestedFile offset stream')
    (hwritten' : ∀ pass ∈ stream'.passes, pass.accepted = true)
    (hsame : stream'.passes.map Pass.block = stream.passes.map Pass.block)
    (peerName : String) (progress : UInt64) (r : DownloadRequest) :
    (EndsWith (download fs requestedFile answer downloadDir peerName progress r) requestedFile
        peerName r (offset.getD 0 + UInt64.ofNat stream.received.length)
          (progress + UInt64.ofNat stream.received.length) ↔
      unreported 0 stream.passes = 0) ∧
    ((∃ bytesRead total,
        EndsWith (download fs requestedFile answer downloadDir peerName progress r) requestedFile
            peerName r bytesRead total ∧
          EndsWith (download fs requestedFile answer' downloadDir peerName progress r)
            requestedFile peerName r bytesRead total) ↔
      unreported 0 stream.passes = unreported 0 stream'.passes) := by
  have hreceived : stream'.received = stream.received := by
    rw [RecvStream.received, RecvStream.received, List.flatMap_def, List.flatMap_def, hsame]
  simp only [download_endsWith hsetup hreceives hwritten,
    download_endsWith hsetup hreceives' hwritten', hreceived]
  constructor
  · rw [true_and, UInt64.add_eq_left]
  · constructor
    · rintro ⟨bytesRead, total, ⟨-, h⟩, -, h'⟩
      exact (UInt64.add_right_inj _).mp (h.trans h'.symm)
    · intro h
      refine ⟨_, progress + UInt64.ofNat stream.received.length - unreported 0 stream.passes,
        ⟨rfl, ?_⟩, rfl, ?_⟩
      · rw [UInt64.sub_add_cancel]
      · rw [← h, UInt64.sub_add_cancel]

end Download

section Example

open Attempt

/-- The one byte of the file of `exampleJob`, so many milliseconds after the last update. -/
def byteAfter (elapsed : Nat) : RecvStream := ⟨[⟨[7], 1, true, elapsed, 0⟩], 0⟩

/-- `exampleJob` into an empty directory, answered with a stream. -/
def downloadExample (stream : RecvStream) : Fs × List UiEvent × Except TransferError Unit :=
  download exampleFs exampleJob.requestedFile (fun _ ↦ .ok stream) exampleJob.downloadDir "peer" 0
    exampleJob.associatedRequest

private theorem receives_byteAfter (elapsed : Nat) :
    Receives (fun _ ↦ .ok (byteAfter elapsed)) exampleJob.requestedFile none (byteAfter elapsed) :=
  rfl

/-- The target of `exampleJob` can be set up. -/
theorem setupDownload_example : ∃ fs₁ file,
    setupDownload exampleFs exampleJob.downloadDir exampleJob.requestedFile.path
      exampleJob.requestedFile.size = (fs₁, .ok (file, none)) := ⟨_, _, rfl⟩

/-- After two seconds an update is due, so both totals count the byte. -/
theorem final_progress_slow :
    EndsWith (downloadExample (byteAfter 2000)) exampleJob.requestedFile "peer"
      exampleJob.associatedRequest 1 1 := by
  obtain ⟨fs₁, file, hsetup⟩ := setupDownload_example
  exact (final_progress_iff hsetup (receives_byteAfter 2000) (by decide) (receives_byteAfter 2500)
    (by decide) rfl "peer" 0 exampleJob.associatedRequest).1.mpr (by decide)

/-- The same byte at once is missing from the total of the request. -/
theorem final_progress_fast :
    ¬ EndsWith (downloadExample (byteAfter 0)) exampleJob.requestedFile "peer"
        exampleJob.associatedRequest 1 1 ∧
      EndsWith (downloadExample (byteAfter 0)) exampleJob.requestedFile "peer"
        exampleJob.associatedRequest 1 0 := by
  refine ⟨?_, 0, by decide⟩
  rintro ⟨speed, h⟩
  cases h

end Example

end Peer

end HarddriveParty
