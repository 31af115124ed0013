import HarddriveParty.Shares.Resolve
import HarddriveParty.Transfer.Upload

/-!
# Reading a portion of a file

The whole answer to a read request: the path is resolved by the share index, the file is read
from the start offset up to the end offset, and streamed block by block. However the reads cut
the file into blocks, an answer that is finished carries exactly the requested portion.
-/

namespace HarddriveParty

open UnixPath UnixFs Runs

/-- The part of some content from a start offset up to an end offset; without an end offset up
to the end of the content. -/
def portionOf (content : Bytes) (start endOffset : Option UInt64) : Bytes :=
  let stop := match endOffset with
    | none => content.length
    | some e => min e.toNat content.length
  (content.take stop).drop (start.getD 0).toNat

/-- A portion with an end offset as so many bytes from the start offset on. -/
theorem portionOf_some (content : Bytes) (start : Option UInt64) (e : UInt64) :
    portionOf content start (some e) =
      (content.drop (start.getD 0).toNat).take (e.toNat - (start.getD 0).toNat) := by
  have hmin : content.take (min e.toNat content.length) = content.take e.toNat := by
    rw [List.take_eq_take_iff, Nat.min_assoc, Nat.min_self]
  simp only [portionOf, hmin, List.drop_take]

/-- Adjacent portions make up the portion from the first start to the last end. -/
theorem portionOf_append (content : Bytes) {a b c : UInt64} (hab : a ≤ b) (hbc : b ≤ c) :
    portionOf content (some a) (some b) ++ portionOf content (some b) (some c) =
      portionOf content (some a) (some c) := by
  have hab' := UInt64.le_iff_toNat_le.mp hab
  have hbc' := UInt64.le_iff_toNat_le.mp hbc
  have hlength : c.toNat - a.toNat = (b.toNat - a.toNat) + (c.toNat - b.toNat) := by omega
  have hdrop : content.drop b.toNat = (content.drop a.toNat).drop (b.toNat - a.toNat) := by
    rw [List.drop_drop, Nat.add_sub_cancel' hab']
  simp only [portionOf_some, Option.getD_some]
  rw [hlength, List.take_add, hdrop]

namespace Uploader

/-- The largest block that is read and written at once (`src/connections/rpc.rs:38`). -/
def uploadBlockSize : Nat := 64 * 1024

/-- How the reads of a file go: all bytes come, in order, in non-empty blocks that fit the
buffer. How long each takes and whether the stream accepts it is left open, and whether it
accepts the zero byte of an error. -/
structure BlockReads where
  split : Bytes → List Pass
  errorWritten : Bool
  complete : ∀ b, (split b).flatMap Pass.block = b
  sized : ∀ b, ∀ pass ∈ split b, 0 < pass.block.length ∧ pass.block.length ≤ uploadBlockSize

/-- What the node answers to a read request for its shares. -/
def serve (s : Shares) (fs : Fs) (query : ReadQuery) (requesterName : String)
    (reads : BlockReads) (finalSpeed : Nat) : Answer :=
  doRead (getFilePortion fs (s.resolvePath query.path).toOption query.start query.endOffset)
    query.path requesterName query.start reads.split reads.errorWritten finalSpeed

/-- The last event of an answer reports this offset. -/
def ReportsLast (answer : Answer) (offset : Nat) : Prop :=
  ∃ info, answer.events.getLast? = some (.uploaded info) ∧ info.bytesRead.toNat = offset

/-- If the answer is finished, it carries exactly the requested portion and reports the offset
behind it. -/
def CarriesExactly (answer : Answer) (content : Bytes) (start endOffset : Option UInt64) : Prop :=
  answer.outcome = .ok () → answer.bytes = portionOf content start endOffset ∧
    ReportsLast answer ((start.getD 0).toNat + answer.bytes.length)

section Loop

variable {path requesterName : String} {size : UInt64} {finalSpeed : Nat}

/-- A loop that finishes has written every block, and reports the offset behind the last. -/
theorem uploadLoop_finished {bytesRead since : UInt64} {passes : List Pass}
    (hfits : bytesRead.toNat + (passes.flatMap Pass.block).length < 2 ^ 64)
    (hok : (uploadLoop path requesterName size finalSpeed bytesRead since passes).outcome =
      .ok ()) :
    (uploadLoop path requesterName size finalSpeed bytesRead since passes).bytes =
        passes.flatMap Pass.block ∧
      ReportsLast (uploadLoop path requesterName size finalSpeed bytesRead since passes)
        (bytesRead.toNat + (passes.flatMap Pass.block).length) := by
  induction passes generalizing bytesRead since with
  | nil => exact ⟨rfl, _, rfl, by simp⟩
  | cons pass rest ih =>
    rw [List.flatMap_cons, List.length_append] at hfits ⊢
    have hnext : (bytesRead + UInt64.ofNat pass.block.length).toNat =
        bytesRead.toNat + pass.block.length := by
      rw [UInt64.toNat_add, UInt64.toNat_ofNat', Nat.mod_eq_of_lt (b := 2 ^ 64) (by omega),
        Nat.mod_eq_of_lt (by omega)]
    cases hwritten : pass.written with
    | false =>
      simp only [uploadLoop, hwritten, Bool.false_eq_true, if_false] at hok
      cases hok
    | true =>
      simp only [uploadLoop, hwritten, if_true] at hok ⊢
      obtain ⟨hbytes, info, hlast, hoffset⟩ := ih (by rw [hnext]; omega) hok
      refine ⟨by rw [hbytes], info, ?_, ?_⟩
      · rw [List.getLast?_append, hlast]
        rfl
      · rw [hoffset, hnext, Nat.add_assoc]

/-- A loop whose writes all succeed finishes. -/
theorem uploadLoop_ok {passes : List Pass} (h : ∀ pass ∈ passes, pass.written = true)
    (bytesRead since : UInt64) :
    (uploadLoop path requesterName size finalSpeed bytesRead since passes).outcome = .ok () := by
  induction passes generalizing bytesRead since with
  | nil => rfl
  | cons pass rest ih =>
    simp only [uploadLoop, h pass (by simp), if_true]
    exact ih (fun p hp ↦ h p (by simp [hp])) _ _

end Loop

section Portion

variable {fs : Fs} {resolvedPath content : Bytes} {size : UInt64} {start endOffset : Option UInt64}

/-- Without a seek error the requested portion of the file is opened. -/
theorem getFilePortion_ok (hread : fs.read resolvedPath = .ok content)
    (horder : ∀ e, endOffset = some e → start.getD 0 ≤ e) (hseek : (start.getD 0).toNat < 2 ^ 63) :
    getFilePortion fs (some (resolvedPath, size)) start endOffset =
      .ok (portionOf content start endOffset, size) := by
  rw [getFilePortion, if_neg]
  · simp only [hread, if_neg (Nat.not_le_of_lt hseek)]
    cases endOffset with
    | none => simp [portionOf]
    | some e =>
      have hsub : (e - start.getD 0).toNat = e.toNat - (start.getD 0).toNat :=
        UInt64.toNat_sub_of_le _ _ (horder e rfl)
      rw [portionOf_some, ← hsub]
  · cases endOffset with
    | none => simp
    | some e => simpa using horder e rfl

/-- A portion that ends before it starts is refused. -/
theorem getFilePortion_badOffset {e : UInt64} (h : e < start.getD 0) (fs : Fs)
    (resolved : Option (Bytes × UInt64)) :
    getFilePortion fs resolved start (some e) = .error .badOffset := by
  unfold getFilePortion
  rw [if_pos]
  simpa using h

/-- The portion starts in the file or is empty, so its end is no larger than a file can be. -/
theorem start_add_length_portionOf (hlen : content.length < 2 ^ 64) :
    (start.getD 0).toNat + (portionOf content start endOffset).length < 2 ^ 64 := by
  have hstart := (start.getD 0).toNat_lt
  have hle : (portionOf content start endOffset).length ≤
      content.length - (start.getD 0).toNat := by
    simp only [portionOf, List.length_drop, List.length_take]
    omega
  omega

end Portion

section Serve

variable {s : Shares} {fs : Fs} {path : String} {resolvedPath content : Bytes} {size : UInt64}
variable {start endOffset : Option UInt64}

/-- An indexed file is answered block by block. -/
theorem serve_eq (hresolve : s.resolvePath path = .ok (resolvedPath, size))
    (hread : fs.read resolvedPath = .ok content)
    (horder : ∀ e, endOffset = some e → start.getD 0 ≤ e) (hseek : (start.getD 0).toNat < 2 ^ 63)
    (requesterName : String) (reads : BlockReads) (finalSpeed : Nat) :
    serve s fs ⟨path, start, endOffset⟩ requesterName reads finalSpeed =
      uploadLoop path requesterName size finalSpeed (start.getD 0) 0
        (reads.split (portionOf content start endOffset)) := by
  rw [serve, hresolve]
  show doRead (getFilePortion fs (some (resolvedPath, size)) start endOffset) _ _ _ _ _ _ = _
  rw [getFilePortion_ok hread horder hseek]
  rfl

/-- An answer that is finished carries exactly the requested portion. -/
theorem carriesExactly_serve (hresolve : s.resolvePath path = .ok (resolvedPath, size))
    (hread : fs.read resolvedPath = .ok content) (hlen : content.length < 2 ^ 64)
    (horder : ∀ e, endOffset = some e → start.getD 0 ≤ e) (hseek : (start.getD 0).toNat < 2 ^ 63)
    (requesterName : String) (reads : BlockReads) (finalSpeed : Nat) :
    CarriesExactly (serve s fs ⟨path, start, endOffset⟩ requesterName reads finalSpeed) content
      start endOffset := by
  intro hok
  rw [serve_eq hresolve hread horder hseek] at hok ⊢
  have hfits := @start_add_length_portionOf content start endOffset hlen
  have hcomplete := reads.complete (portionOf content start endOffset)
  rw [← hcomplete] at hfits
  obtain ⟨hbytes, hlast⟩ := uploadLoop_finished hfits hok
  rw [← hbytes] at hlast
  exact ⟨hbytes.trans hcomplete, hlast⟩

/-- The bytes of a finished answer from one offset up to another one. -/
theorem serve_bytes {a b : UInt64} (hresolve : s.resolvePath path = .ok (resolvedPath, size))
    (hread : fs.read resolvedPath = .ok content) (hlen : content.length < 2 ^ 64) (hab : a ≤ b)
    (hseek : a.toNat < 2 ^ 63) {requesterName : String} {reads : BlockReads} {finalSpeed : Nat}
    (hok : (serve s fs ⟨path, some a, some b⟩ requesterName reads finalSpeed).outcome = .ok ()) :
    (serve s fs ⟨path, some a, some b⟩ requesterName reads finalSpeed).bytes =
      portionOf content (some a) (some b) := by
  have horder : ∀ e, some b = some e → (some a).getD 0 ≤ e := by
    intro e he
    cases he
    exact hab
  exact (carriesExactly_serve hresolve hread hlen horder hseek _ _ _ hok).1

end Serve

/-- For every indexed file, every range and every way the reads and writes go: an answer that
is finished carries exactly the requested portion and reports the offset behind it, and it is
finished when the writes succeed; a range that ends before it starts is refused without any
byte of a file, with the error byte and `BadOffset`, or with nothing and the error of the write
where the stream does not accept that byte; and two adjacent ranges give the same bytes as the
range they make up. -/
theorem ranged_read_exact {s : Shares} {fs : Fs} {path : String} {resolvedPath content : Bytes}
    {size : UInt64} (hresolve : s.resolvePath path = .ok (resolvedPath, size))
    (hread : fs.read resolvedPath = .ok content) (hlen : content.length < 2 ^ 64)
    (requesterName : String) (finalSpeed : Nat) :
    (∀ start endOffset (reads : BlockReads), (∀ e, endOffset = some e → start.getD 0 ≤ e) →
      (start.getD 0).toNat < 2 ^ 63 →
        ((∀ pass ∈ reads.split (portionOf content start endOffset), pass.written = true) →
          (serve s fs ⟨path, start, endOffset⟩ requesterName reads finalSpeed).outcome = .ok ()) ∧
        CarriesExactly (serve s fs ⟨path, start, endOffset⟩ requesterName reads finalSpeed)
          content start endOffset) ∧
    (∀ start e (reads : BlockReads), e < start.getD 0 →
      getFilePortion fs (s.resolvePath path).toOption start (some e) = .error .badOffset ∧
        serve s fs ⟨path, start, some e⟩ requesterName reads finalSpeed =
          if reads.errorWritten then ⟨[0], [], .error .badOffset⟩
          else ⟨[], [], .error .writeError⟩) ∧
    ∀ (a b c : UInt64) (readsAB readsBC readsAC : BlockReads), a ≤ b → b ≤ c → b.toNat < 2 ^ 63 →
      (serve s fs ⟨path, some a, some b⟩ requesterName readsAB finalSpeed).outcome = .ok () →
      (serve s fs ⟨path, some b, some c⟩ requesterName readsBC finalSpeed).outcome = .ok () →
      (serve s fs ⟨path, some a, some c⟩ requesterName readsAC finalSpeed).outcome = .ok () →
        (serve s fs ⟨path, some a, some b⟩ requesterName readsAB finalSpeed).bytes ++
            (serve s fs ⟨path, some b, some c⟩ requesterName readsBC finalSpeed).bytes =
          (serve s fs ⟨path, some a, some c⟩ requesterName readsAC finalSpeed).bytes := by
  refine ⟨?_, ?_, ?_⟩
  · intro start endOffset reads horder hseek
    refine ⟨fun hwritten ↦ ?_, carriesExactly_serve hresolve hread hlen horder hseek _ _ _⟩
    rw [serve_eq hresolve hread horder hseek]
    exact uploadLoop_ok hwritten _ _
  · intro start e reads hbefore
    have hrefused := getFilePortion_badOffset hbefore fs (s.resolvePath path).toOption
    refine ⟨hrefused, ?_⟩
    rw [serve, hrefused]
    rfl
  · intro a b c readsAB readsBC readsAC hab hbc hseek hokAB hokBC hokAC
    have hseek' : a.toNat < 2 ^ 63 := Nat.lt_of_le_of_lt (UInt64.le_iff_toNat_le.mp hab) hseek
    rw [serve_bytes hresolve hread hlen hab hseek' hokAB,
      serve_bytes hresolve hread hlen hbc hseek hokBC,
      serve_bytes hresolve hread hlen (UInt64.le_trans hab hbc) hseek' hokAC]
    exact portionOf_append content hab hbc

/-- Reads that return one byte at a time. -/
def BlockReads.bytewise : BlockReads where
  split b := b.map fun x ↦ ⟨[x], 0, 0, true⟩
  errorWritten := true
  complete b := by
    rw [List.flatMap_map]
    exact List.flatMap_singleton' b
  sized b pass hpass := by
    obtain ⟨x, -, rfl⟩ := List.mem_map.mp hpass
    simp [uploadBlockSize]

/-- The second share of `twoMusicShares` on disk. -/
def secondMusicFs : Fs :=
  ((Fs.rootOnly.put [⟨Utf8.encode "second", by decide⟩] .dir).put
    [⟨Utf8.encode "second", by decide⟩, ⟨Utf8.encode "Music", by decide⟩] .dir).put
      [⟨Utf8.encode "second", by decide⟩, ⟨Utf8.encode "Music", by decide⟩, twoTxt]
        (.file [1, 2, 3])

/-- A range that starts in the file and ends behind it gets the rest of the file. -/
theorem ranged_read_exact_two_txt :
    (serve (finalState Origins.run (Shares.empty, fun _ ↦ none) twoMusicShares).1 secondMusicFs
      ⟨"second - Music/two.txt", some 1, some 9⟩ "peer" .bytewise 0).bytes = [2, 3] := by
  have hresolve : (finalState Origins.run (Shares.empty, fun _ ↦ none)
      twoMusicShares).1.resolvePath "second - Music/two.txt" =
        .ok (Utf8.encode "/second/Music/two.txt", 3) := by decide
  have hread : secondMusicFs.read (Utf8.encode "/second/Music/two.txt") = .ok [1, 2, 3] := by rfl
  obtain ⟨hok, hbytes⟩ := (ranged_read_exact hresolve hread (by decide) "peer" 0).1
    (some 1) (some 9) .bytewise (by rintro e ⟨⟩; decide) (by decide)
  rw [(hbytes (hok (by decide))).1]
  rfl

end Uploader

end HarddriveParty
