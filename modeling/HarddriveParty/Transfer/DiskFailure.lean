import HarddriveParty.Transfer.FinalProgress

/-!
# A disk that refuses writes

A `tokio::fs::File` takes a block into its buffer and writes it in the background; the error of
that write is returned by the next write on the file, and dropping the file discards it. The
download loop (`src/peer.rs:218`) never flushes, so nobody sees the error of the last block.
-/

namespace HarddriveParty

open UnixPath UnixFs

namespace Peer

/-- A block that arrives, how many of its bytes the file system takes when it is written in the
background, the milliseconds since the last update, and the measured speed. -/
structure Arrival where
  block : Bytes
  taken : Nat
  elapsed : Nat
  speed : UInt32

/-- The file system takes the whole block. -/
def Arrival.Taken (a : Arrival) : Prop := a.block.length ≤ a.taken

instance (a : Arrival) : Decidable a.Taken := inferInstanceAs (Decidable (_ ≤ _))

/-- The passes of the loop over a buffered file. `failed` says that the last background write
failed: then the next write returns its error, writes nothing, and is the last one. -/
def bufferedPasses (failed : Bool) : List Arrival → List Pass
  | [] => []
  | a :: rest =>
    if failed then [⟨a.block, 0, false, a.elapsed, a.speed⟩]
    else ⟨a.block, a.taken, true, a.elapsed, a.speed⟩ :: bufferedPasses (decide ¬a.Taken) rest

/-- The blocks up to the first one that is refused, and those behind it. -/
def splitRefused : List Arrival → Option (List Arrival × List Arrival)
  | [] => none
  | a :: rest =>
    if a.Taken then (splitRefused rest).map fun s ↦ (a :: s.1, s.2)
    else some ([a], rest)

/-- The pass of a block whose write goes into the buffer. -/
def Arrival.buffered (a : Arrival) : Pass := ⟨a.block, a.taken, true, a.elapsed, a.speed⟩

/-- The bytes of some blocks. -/
def arrived (blocks : List Arrival) : UInt64 :=
  UInt64.ofNat (blocks.flatMap Arrival.block).length

/-- The bytes that a download counts. All bytes count when nothing or only the last block is
refused; when a block arrives behind a refused one, those that the last update before its error
covered. -/
def countedBytes (startOffset : UInt64) (blocks : List Arrival) : UInt64 :=
  match splitRefused blocks with
  | none | some (_, []) => startOffset + arrived blocks
  | some (done, _ :: _) =>
    startOffset + (arrived done - unreported 0 (done.map Arrival.buffered))

/-- Every byte that was received has been accepted by the file system if the download reports
success, and the file has at least the requested size. -/
def SuccessMeansStored (run : Fs × List UiEvent × Except TransferError Unit) (file : List Name)
    (size : UInt64) (passes : List Pass) : Prop :=
  run.2.2 = .ok () → (∀ pass ∈ passes, pass.block.length ≤ pass.stored) ∧
    size.toNat ≤ (run.1.content file).length

section Passes

variable {blocks : List Arrival}

/-- Without a refused block every write goes into the buffer. -/
theorem bufferedPasses_of_none (h : splitRefused blocks = none) :
    (∀ a ∈ blocks, a.Taken) ∧ bufferedPasses false blocks = blocks.map Arrival.buffered := by
  induction blocks with
  | nil => exact ⟨by simp, rfl⟩
  | cons a rest ih =>
    rw [splitRefused] at h
    split at h
    · next htaken =>
      obtain ⟨hall, hpasses⟩ := ih (by simpa using h)
      refine ⟨by simpa using ⟨htaken, hall⟩, ?_⟩
      rw [bufferedPasses, if_neg Bool.false_ne_true, decide_eq_false (not_not.mpr htaken), hpasses]
      rfl
    · cases h

/-- Behind a refused block at most one more block is received, and its write fails. -/
theorem bufferedPasses_of_some {done rest : List Arrival}
    (h : splitRefused blocks = some (done, rest)) :
    blocks = done ++ rest ∧ (∃ a ∈ done, ¬ a.Taken) ∧
      bufferedPasses false blocks = done.map Arrival.buffered ++ bufferedPasses true rest := by
  induction blocks generalizing done with
  | nil => cases h
  | cons a blocks ih =>
    rw [splitRefused] at h
    split at h
    · next htaken =>
      obtain ⟨⟨done', rest'⟩, hs, he⟩ := Option.map_eq_some_iff.mp h
      cases he
      obtain ⟨rfl, ⟨b, hb, hrefused⟩, hpasses⟩ := ih hs
      refine ⟨rfl, ⟨b, List.mem_cons_of_mem a hb, hrefused⟩, ?_⟩
      rw [bufferedPasses, if_neg Bool.false_ne_true, decide_eq_false (not_not.mpr htaken), hpasses]
      rfl
    · next hrefused =>
      cases h
      refine ⟨rfl, ⟨a, by simp, hrefused⟩, ?_⟩
      rw [bufferedPasses, if_neg Bool.false_ne_true, decide_eq_true hrefused]
      rfl

theorem flatMap_buffered (blocks : List Arrival) :
    (blocks.map Arrival.buffered).flatMap Pass.block = blocks.flatMap Arrival.block := by
  rw [List.flatMap_map]
  rfl

theorem accepted_buffered (blocks : List Arrival) :
    ∀ pass ∈ blocks.map Arrival.buffered, pass.accepted = true := by
  intro pass hpass
  obtain ⟨a, -, rfl⟩ := List.mem_map.mp hpass
  rfl

end Passes

section Loop

variable {event : UInt64 → UInt64 → UInt32 → UiEvent} {file : List Name} {finalSpeed : UInt32}

/-- The loop counts the bytes that count. -/
theorem bytesRead_downloadLoop (fs : Fs) (startOffset progress : UInt64) (blocks : List Arrival) :
    (downloadLoop event file finalSpeed ⟨fs, startOffset, progress, 0, 0, []⟩
        (bufferedPasses false blocks)).bytesRead = countedBytes startOffset blocks := by
  have hcounters (done : List Arrival) (tail : List Pass) :
      ∃ q : Progress, downloadLoop event file finalSpeed ⟨fs, startOffset, progress, 0, 0, []⟩
          (done.map Arrival.buffered ++ tail) = downloadLoop event file finalSpeed q tail ∧
        q.sinceLastUiUpdate = unreported 0 (done.map Arrival.buffered) ∧
          q.bytesRead + q.sinceLastUiUpdate = startOffset + arrived done := by
    obtain ⟨q, hrun, hsince, hread, -⟩ :=
      @downloadLoop_counters event file finalSpeed _ (accepted_buffered done)
        ⟨fs, startOffset, progress, 0, 0, []⟩ tail
    rw [flatMap_buffered] at hread
    refine ⟨q, hrun, hsince, hread.trans ?_⟩
    simp only [UInt64.add_zero, arrived]
  cases hs : splitRefused blocks with
  | none =>
    obtain ⟨q, hrun, -, hread⟩ := hcounters blocks []
    rw [countedBytes, hs, (bufferedPasses_of_none hs).2,
      ← List.append_nil (blocks.map Arrival.buffered), hrun]
    exact hread
  | some split =>
    obtain ⟨done, rest⟩ := split
    obtain ⟨hblocks, -, hpasses⟩ := bufferedPasses_of_some hs
    rw [countedBytes, hs, hpasses]
    cases rest with
    | nil =>
      -- the error of the last block is never asked for
      obtain ⟨q, hrun, -, hread⟩ := hcounters done []
      rw [bufferedPasses, hrun, hblocks, List.append_nil]
      exact hread
    | cons a rest =>
      obtain ⟨q, hrun, hsince, hread⟩ :=
        hcounters done [⟨a.block, 0, false, a.elapsed, a.speed⟩]
      rw [bufferedPasses, if_pos rfl, hrun]
      show q.bytesRead = startOffset + (arrived done - unreported 0 (done.map Arrival.buffered))
      rw [← hsince, ← UInt64.add_left_inj q.sinceLastUiUpdate, hread, UInt64.add_assoc,
        UInt64.sub_add_cancel]

end Loop

section Download

variable {fs fs₁ : Fs} {requestedFile : RequestedFile}
  {answer : ReadQuery → Except TransferError RecvStream} {downloadDir : Bytes} {file : List Name}
  {offset : Option UInt64} {blocks : List Arrival} {speed : UInt32}

/-- A download never starts behind the end of the local file. -/
private theorem startOffset_le (length : Nat) (size : UInt64) :
    ((startOffset (UInt64.ofNat length) size).getD 0).toNat ≤ length := by
  have hmod : (UInt64.ofNat length).toNat ≤ length := by
    rw [UInt64.toNat_ofNat']
    exact Nat.mod_le _ _
  unfold startOffset
  split
  · next hless => exact Nat.le_trans (Nat.le_of_lt (UInt64.lt_iff_toNat_lt.mp hless)) hmod
  · split
    · exact Nat.zero_le _
    · exact hmod

/-- When the file system takes every block, a download that reports success has a file of the
requested size. -/
private theorem success_of_taken
    (hsetup : setupDownload fs downloadDir requestedFile.path requestedFile.size =
      (fs₁, .ok (file, offset)))
    (hreceives : Receives answer requestedFile offset ⟨bufferedPasses false blocks, speed⟩)
    (htaken : splitRefused blocks = none) (peerName : String) (progress : UInt64)
    (r : DownloadRequest) :
    SuccessMeansStored (download fs requestedFile answer downloadDir peerName progress r) file
      requestedFile.size (bufferedPasses false blocks) := by
  obtain ⟨hall, hpasses⟩ := bufferedPasses_of_none htaken
  have hfull : StoredInFull (bufferedPasses false blocks) := by
    rw [hpasses]
    intro pass hpass
    obtain ⟨a, ha, rfl⟩ := List.mem_map.mp hpass
    exact ⟨hall a ha, rfl⟩
  obtain ⟨c, hfile, rfl⟩ := setupDownload_ok hsetup
  obtain ⟨hfs, -, hok⟩ := download_receives hsetup hreceives peerName progress r rfl
  obtain ⟨hread, hnode, -⟩ :=
    @downloadLoop_stored (progressEvent requestedFile peerName r) file speed _ hfull
      ⟨fs₁, (startOffset (UInt64.ofNat c.length) requestedFile.size).getD 0, progress, 0, 0, []⟩
      c hfile
  intro hsuccess
  refine ⟨fun pass hpass ↦ (hfull pass hpass).1, ?_⟩
  have hreached := hok.mp hsuccess
  rw [hread, UInt64.not_lt, UInt64.le_iff_toNat_le] at hreached
  simp only [UInt64.add_zero, UInt64.toNat_add, UInt64.toNat_ofNat'] at hreached
  have hstart := startOffset_le c.length requestedFile.size
  have hcontent : (download fs requestedFile answer downloadDir peerName progress r).1.content
      file = c ++ (bufferedPasses false blocks).flatMap Pass.block := by
    rw [hfs, Fs.content, hnode]
  rw [hcontent, List.length_append]
  omega

/-- However the file system takes the blocks that arrive: success means that all of them are
stored exactly when none is refused or the bytes that count do not reach the size. -/
theorem write_failure_iff
    (hsetup : setupDownload fs downloadDir requestedFile.path requestedFile.size =
      (fs₁, .ok (file, offset)))
    (hreceives : Receives answer requestedFile offset ⟨bufferedPasses false blocks, speed⟩)
    (peerName : String) (progress : UInt64) (r : DownloadRequest) :
    SuccessMeansStored (download fs requestedFile answer downloadDir peerName progress r) file
        requestedFile.size (bufferedPasses false blocks) ↔
      (∀ a ∈ blocks, a.Taken) ∨ countedBytes (offset.getD 0) blocks < requestedFile.size := by
  obtain ⟨-, -, hok⟩ := download_receives hsetup hreceives peerName progress r rfl
  rw [bytesRead_downloadLoop] at hok
  constructor
  · intro h
    by_cases hless : countedBytes (offset.getD 0) blocks < requestedFile.size
    · exact Or.inr hless
    · left
      have hstored := (h (hok.mpr hless)).1
      cases hs : splitRefused blocks with
      | none => exact (bufferedPasses_of_none hs).1
      | some split =>
        -- the refused block is among those that were received
        obtain ⟨-, ⟨a, ha, hrefused⟩, hpasses⟩ := bufferedPasses_of_some hs
        refine absurd (hstored a.buffered ?_) hrefused
        rw [hpasses]
        exact List.mem_append_left _ (List.mem_map_of_mem ha)
  · rintro (htaken | hless)
    · cases hs : splitRefused blocks with
      | none => exact success_of_taken hsetup hreceives hs peerName progress r
      | some split =>
        obtain ⟨rfl, ⟨a, ha, hrefused⟩, -⟩ := bufferedPasses_of_some hs
        exact absurd (htaken a (List.mem_append_left _ ha)) hrefused
    · intro hsuccess
      exact absurd hless (hok.mp hsuccess)

end Download

section Example

open Attempt

/-- A requested file of six bytes. -/
def sixBytes : RequestedFile := ⟨"a", 6, 7, false⟩

/-- Its blocks, on a disk that is full after three bytes. -/
def secondRefused : List Arrival := [⟨[1, 2], 2, 2000, 0⟩, ⟨[3, 4], 1, 0, 0⟩, ⟨[5, 6], 0, 0, 0⟩]

/-- The second of three blocks is refused: what is counted stays below the size, and the download
does not report success. -/
theorem write_failure_second_refused : ∃ fs₁ file,
    setupDownload exampleFs exampleJob.downloadDir sixBytes.path sixBytes.size =
        (fs₁, .ok (file, none)) ∧
      SuccessMeansStored (download exampleFs sixBytes
          (fun _ ↦ .ok ⟨bufferedPasses false secondRefused, 0⟩) exampleJob.downloadDir "peer" 0
          exampleJob.associatedRequest) file sixBytes.size
        (bufferedPasses false secondRefused) := by
  have hreceives : Receives (fun _ ↦ .ok ⟨bufferedPasses false secondRefused, 0⟩) sixBytes none
      ⟨bufferedPasses false secondRefused, 0⟩ := rfl
  obtain ⟨fs₁, file, hsetup⟩ : ∃ fs₁ file, setupDownload exampleFs exampleJob.downloadDir
      sixBytes.path sixBytes.size = (fs₁, .ok (file, none)) := ⟨_, _, rfl⟩
  refine ⟨fs₁, file, hsetup, ?_⟩
  exact (write_failure_iff hsetup hreceives "peer" 0 exampleJob.associatedRequest).mpr
    (Or.inr (by decide))

/-- The one byte of the file of `exampleJob`, of which the disk takes so many bytes. -/
def byteOnDisk (taken : Nat) : List Arrival := [⟨[7], taken, 0, 0⟩]

/-- On a full disk the download succeeds and leaves an empty file. -/
theorem full_disk_counts_as_downloaded :
    (downloadExample ⟨bufferedPasses false (byteOnDisk 0), 0⟩).2.2 = .ok () ∧
      localFile (downloadExample ⟨bufferedPasses false (byteOnDisk 0), 0⟩).1
        exampleJob.downloadDir exampleJob.requestedFile.path = some [] ∧
      ¬ ∀ pass ∈ bufferedPasses false (byteOnDisk 0), pass.block.length ≤ pass.stored := by
  refine ⟨by rfl, by decide, ?_⟩
  decide

end Example

end Peer

end HarddriveParty
