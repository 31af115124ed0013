import HarddriveParty.Transfer.FinalProgress

/-!
# The verdict of a download

The download (`src/peer.rs:182`) compares one counter with the requested size. The counter
starts at the offset of the local file and is brought up to date at progress updates and where
the loop is left. Over blocks that are written it counts every byte once, so the verdict is
about the bytes that were there and those that arrived, at whatever times they did.
-/

namespace HarddriveParty

open UnixPath UnixFs

namespace Peer

/-- All writes to a local file succeed: every block reaches the file in full, and the file,
whose length is a `u64`, has room for them. -/
structure WritesSucceed (existing : Nat) (passes : List Pass) : Prop where
  stored : StoredInFull passes
  fits : existing + (passes.map fun pass ↦ pass.block.length).sum < 2 ^ 64

section Verdict

variable {fs fs₁ : Fs} {requestedFile : RequestedFile}
  {answer : ReadQuery → Except TransferError RecvStream} {downloadDir : Bytes} {file : List Name}
  {offset : Option UInt64} {stream : RecvStream}

/-- Whatever the size, the local file, the blocks and the times at which they arrive: when the
writes succeed, the download succeeds exactly if the bytes of the local file up to the size and
all bytes of the blocks reach the size. Nothing is requested for a local file that has bytes
and at least the size, and otherwise the rest of the file is. -/
theorem download_ok_iff
    (hsetup : setupDownload fs downloadDir requestedFile.path requestedFile.size =
      (fs₁, .ok (file, offset)))
    (hreceives : Receives answer requestedFile offset stream)
    (hwrites : WritesSucceed (fs₁.content file).length stream.passes) (peerName : String)
    (progress : UInt64) (r : DownloadRequest) :
    ((download fs requestedFile answer downloadDir peerName progress r).2.2 = .ok () ↔
      requestedFile.size.toNat ≤ min (fs₁.content file).length requestedFile.size.toNat +
        (stream.passes.map fun pass ↦ pass.block.length).sum) ∧
    (if (fs₁.content file).length ≠ 0 ∧ requestedFile.size.toNat ≤ (fs₁.content file).length then
      stream.passes = [] ∧ ∀ answer', download fs requestedFile answer' downloadDir peerName
        progress r = download fs requestedFile answer downloadDir peerName progress r
    else answer ⟨requestedFile.path, offset, none⟩ = .ok stream) := by
  obtain ⟨c, hfile, hoffset⟩ := setupDownload_ok hsetup
  have hcontent : fs₁.content file = c := by rw [Fs.content, hfile]
  rw [hcontent] at hwrites ⊢
  have hlen : c.length < 2 ^ 64 := Nat.lt_of_le_of_lt (Nat.le_add_right _ _) hwrites.fits
  have hskip := alreadyDownloaded_iff hlen requestedFile.size
  rw [← hoffset] at hskip
  constructor
  · obtain ⟨-, -, hok⟩ := download_receives hsetup hreceives peerName progress r rfl
    obtain ⟨hread, -, -⟩ :=
      @downloadLoop_stored (progressEvent requestedFile peerName r) file stream.finalSpeed _
        hwrites.stored ⟨fs₁, offset.getD 0, progress, 0, 0, []⟩ c hfile
    have hstart := startOffset_toNat hlen requestedFile.size
    rw [← hoffset] at hstart
    have hfits := hwrites.fits
    rw [← List.length_flatMap] at hfits ⊢
    rw [hok, hread, UInt64.not_lt, UInt64.le_iff_toNat_le]
    simp only [UInt64.add_zero, UInt64.toNat_add, UInt64.toNat_ofNat', hstart]
    rw [Nat.mod_eq_of_lt (a := List.length _) (by omega), Nat.mod_eq_of_lt (by omega)]
  · unfold Receives at hreceives
    split
    · next hlarge =>
      rw [if_pos (hskip.mpr hlarge)] at hreceives
      refine ⟨by rw [hreceives], fun answer' ↦ ?_⟩
      rw [download, download, hsetup]
      simp only [hskip.mpr hlarge, if_true]
    · next hsmall =>
      rwa [if_neg (mt hskip.mp hsmall)] at hreceives

end Verdict

section Example

open Attempt

/-- Two blocks of a byte each, one of them behind the last update. -/
def twoBlocks : RecvStream := ⟨[⟨[7], 1, true, 2000, 0⟩, ⟨[8], 1, true, 0, 0⟩], 0⟩

/-- The two blocks are more than the one byte of the file. -/
theorem download_ok_two_blocks : (downloadExample twoBlocks).2.2 = .ok () := by
  obtain ⟨fs₁, file, hsetup, hempty⟩ : ∃ fs₁ file,
      setupDownload exampleFs exampleJob.downloadDir exampleJob.requestedFile.path
        exampleJob.requestedFile.size = (fs₁, .ok (file, none)) ∧ fs₁.content file = [] :=
    ⟨_, _, rfl, rfl⟩
  have hwrites : WritesSucceed (fs₁.content file).length twoBlocks.passes := by
    rw [hempty]
    exact ⟨by simp [StoredInFull, twoBlocks], by decide⟩
  have hreceives : Receives (fun _ ↦ .ok twoBlocks) exampleJob.requestedFile none twoBlocks := rfl
  refine (download_ok_iff hsetup hreceives hwrites "peer" 0
    exampleJob.associatedRequest).1.mpr ?_
  rw [hempty]
  decide

end Example

end Peer

end HarddriveParty
