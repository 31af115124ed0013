import HarddriveParty.Wishlist.Records

/-!
# Wishlist records in the database

The three record formats of `src/wishlist.rs` that are written and read. Reading a written
record gives the record back, and a record that can be read, with a length and a flag byte
that the encoder writes, is the encoding of what is read from it: the encoder and the decoder
agree on every offset. The proofs cut a record into its fields from the end on.
-/

namespace HarddriveParty

open Record

namespace Record

/-- The byte at an index is one that a flag is written as. -/
def IsFlag (b : Bytes) (i : Nat) : Prop := b[i]? = some 0 ∨ b[i]? = some 1

instance (b : Bytes) (i : Nat) : Decidable (IsFlag b i) := inferInstanceAs (Decidable (_ ∨ _))

/-- A number of four bytes is read from its encoding only. -/
theorem eq_beU32 {b : Bytes} {x : UInt32} (h : u32 b = .ok x) : b = Bytes.beU32 x :=
  Bytes.eq_beU32_of_readBeU32 ((Outcome.okOr_eq_ok_iff _ _ _).mp h)

/-- A number of eight bytes is read from its encoding only. -/
theorem eq_beU64 {b : Bytes} {x : UInt64} (h : u64 b = .ok x) : b = Bytes.beU64 x :=
  Bytes.eq_beU64_of_readBeU64 ((Outcome.okOr_eq_ok_iff _ _ _).mp h)

/-- A public key is read from its bytes only. -/
theorem eq_publicKey {b : Bytes} {k : PublicKey} (h : publicKey b = .ok k) : b = k.val := by
  rw [publicKey, Outcome.okOr_eq_ok_iff, toPublicKey] at h
  split at h
  · cases h
    rfl
  · cases h

/-- A string is read from its bytes only. -/
theorem eq_text {b : Bytes} {s : String} (h : text b = .ok s) : b = Utf8.encode s :=
  (Utf8.encode_of_decode ((Outcome.okOr_eq_ok_iff _ _ _).mp h)).symm

/-- A cut that succeeds is a slice. -/
theorem slice_of_cut {b x : Bytes} {lo hi : Nat} (h : cut b lo hi = .ok x) :
    Bytes.slice b lo hi = some x := (Outcome.orPanic_eq_ok_iff _ _ _).mp h

/-- A cut from the end that succeeds is a slice. -/
theorem sliceFrom_of_cutFrom {b x : Bytes} {lo : Nat} (h : cutFrom b lo = .ok x) :
    Bytes.sliceFrom b lo = some x := (Outcome.orPanic_eq_ok_iff _ _ _).mp h

/-- A flag that is read from a byte the encoder writes is the flag that it writes there. -/
theorem slice_of_flagAt {b : Bytes} {d : Bool} {i : Nat} (h : flagAt b i = .ok d)
    (hflag : IsFlag b i) : Bytes.slice b i (i + 1) = some (flag d) := by
  have hbyte : b[i]? = some (if d then 1 else 0) := by
    rcases hflag with h0 | h1
    · rw [flagAt, h0] at h
      cases h
      exact h0
    · rw [flagAt, h1] at h
      cases h
      exact h1
  obtain ⟨hi, hget⟩ := List.getElem?_eq_some_iff.mp hbyte
  rw [Bytes.slice, if_pos ⟨by omega, by omega⟩, Nat.add_sub_cancel_left,
    List.drop_eq_getElem_cons hi, hget, List.take_succ_cons, List.take_zero, flag]

/-- A record that ends with a field is that field from its offset on. -/
theorem sliceFrom_of_slice_length {b x : Bytes} {lo hi : Nat} (h : Bytes.slice b lo hi = some x)
    (hlen : b.length = hi) : Bytes.sliceFrom b lo = some x := by
  rw [Bytes.sliceFrom, hlen]
  exact h

/-- Fields that reach from the first to the last byte are the record. -/
theorem eq_of_sliceFrom_zero {b x : Bytes} (h : Bytes.sliceFrom b 0 = some x) : b = x := by
  rw [Bytes.sliceFrom_zero] at h
  exact Option.some.inj h

end Record

/-- A request that is read with a flag byte of the encoder is written as it was read. -/
theorem DownloadRequest.eq_toDbKeyValue {key value : Bytes} {r : DownloadRequest}
    (h : DownloadRequest.fromDbKeyValue key value = .ok r) (hflag : IsFlag value 48) :
    (key, value) = r.toDbKeyValue.1 := by
  simp only [DownloadRequest.fromDbKeyValue, Outcome.bind_eq_ok_iff,
    Outcome.ensure_eq_ok_iff] at h
  obtain ⟨-, hkey, -, -, idBytes, hidBytes, id, hid, timeBytes, htimeBytes, time, htime,
    totalBytes, htotalBytes, total, htotal, peerBytes, hpeerBytes, peer, hpeer, isDir, hisDir,
    pathBytes, hpathBytes, path, hpath, hr⟩ := h
  cases hr
  obtain rfl := eq_beU32 hid
  obtain rfl := eq_beU64 htime
  obtain rfl := eq_beU64 htotal
  obtain rfl := eq_publicKey hpeer
  obtain rfl := eq_text hpath
  have hkeyBytes := eq_of_sliceFrom_zero (sliceFrom_of_slice_length (slice_of_cut hidBytes) hkey)
  have hfromFlag := Bytes.sliceFrom_of_slice (slice_of_flagAt hisDir hflag)
    (sliceFrom_of_cutFrom hpathBytes)
  have hfromPeer := Bytes.sliceFrom_of_slice (slice_of_cut hpeerBytes) hfromFlag
  have hfromTotal := Bytes.sliceFrom_of_slice (slice_of_cut htotalBytes) hfromPeer
  have hvalue := Bytes.sliceFrom_of_slice (slice_of_cut htimeBytes) hfromTotal
  exact Prod.ext hkeyBytes (eq_of_sliceFrom_zero hvalue)

/-- A file that is read from the tree by peer, with a value of the encoder's length, is
written as it was read, with the peer and the timestamp of the key. -/
theorem RequestedFile.eq_toDbKeyValue_peer {key value : Bytes} {f : RequestedFile}
    (h : RequestedFile.fromDbKeyValue key value = .ok f) (hlen : value.length = 12) :
    ∃ (k : PublicKey) (t : UInt64), Bytes.slice key 0 32 = some k.val ∧
      Bytes.slice key 32 40 = some (Bytes.beU64 t) ∧
      (key, value) = (f.toDbKeyValue k (Duration.fromSecs t)).1 := by
  simp only [RequestedFile.fromDbKeyValue, Outcome.bind_eq_ok_iff,
    Outcome.ensure_eq_ok_iff] at h
  obtain ⟨-, hkey, pathBytes, hpathBytes, path, hpath, -, -, idBytes, hidBytes, id, hid,
    sizeBytes, hsizeBytes, size, hsize, hf⟩ := h
  cases hf
  obtain rfl := eq_beU32 hid
  obtain rfl := eq_beU64 hsize
  obtain rfl := eq_text hpath
  have hvalue := Bytes.sliceFrom_of_slice (slice_of_cut hidBytes)
    (sliceFrom_of_slice_length (slice_of_cut hsizeBytes) hlen)
  -- the decoder skips the peer and the timestamp
  have hpeerBytes : Bytes.slice key 0 32 = some (key.take 32) := by
    rw [Bytes.slice, if_pos ⟨by omega, by omega⟩, List.drop_zero]
  have htimeBytes : Bytes.slice key 32 40 = some ((key.drop 32).take 8) := by
    rw [Bytes.slice, if_pos ⟨by omega, by omega⟩]
  have hpeerLength : (key.take 32).length = 32 := by
    rw [List.length_take]
    omega
  have htimeLength : ((key.drop 32).take 8).length = 8 := by
    rw [List.length_take, List.length_drop]
    omega
  obtain ⟨time, htime⟩ : ∃ t, (key.drop 32).take 8 = Bytes.beU64 t :=
    ⟨_, Bytes.eq_beU64_of_readBeU64 (if_pos htimeLength)⟩
  have hfromTime := Bytes.sliceFrom_of_slice htimeBytes (sliceFrom_of_cutFrom hpathBytes)
  have hkeyBytes := Bytes.sliceFrom_of_slice hpeerBytes hfromTime
  rw [htime] at htimeBytes hkeyBytes
  refine ⟨⟨key.take 32, hpeerLength⟩, time, hpeerBytes, htimeBytes, Prod.ext ?_ ?_⟩
  · exact eq_of_sliceFrom_zero hkeyBytes
  · exact eq_of_sliceFrom_zero hvalue

/-- A file that is read from the tree by request id, with a length and a flag byte of the
encoder, is written as it was read. -/
theorem RequestedFile.eq_toDbKeyValue_requestId {key value : Bytes} {f : RequestedFile}
    (h : RequestedFile.fromDbByRequestIdKeyValue key value = .ok f) (hlen : value.length = 9)
    (hflag : IsFlag value 8) (k : PublicKey) (t : Duration) :
    (key, value) = (f.toDbKeyValue k t).2 := by
  have hkeyBytes := RequestedFile.eq_requestKey h
  simp only [RequestedFile.fromDbByRequestIdKeyValue, Outcome.bind_eq_ok_iff,
    Outcome.ensure_eq_ok_iff] at h
  obtain ⟨-, -, _, -, _, -, _, -, _, -, -, -, sizeBytes, hsizeBytes, size, hsize, downloaded,
    hdownloaded, hf⟩ := h
  cases hf
  obtain rfl := eq_beU64 hsize
  have hfromFlag := sliceFrom_of_slice_length (slice_of_flagAt hdownloaded hflag) hlen
  have hvalue := Bytes.sliceFrom_of_slice (slice_of_cut hsizeBytes) hfromFlag
  exact Prod.ext hkeyBytes (eq_of_sliceFrom_zero hvalue)

/-- Every request of whole seconds and every requested file is read back from each record
that is written of it, and a record that is read, with a length and a flag byte that the
encoder writes, is the record that is written of what was read. -/
theorem records_survive_storage :
    (∀ r : DownloadRequest, r.timestamp.nanos = 0 →
      DownloadRequest.fromDbKeyValue r.toDbKeyValue.1.1 r.toDbKeyValue.1.2 = .ok r) ∧
    (∀ (f : RequestedFile) (k : PublicKey) (t : Duration),
      RequestedFile.fromDbByRequestIdKeyValue (f.toDbKeyValue k t).2.1 (f.toDbKeyValue k t).2.2 =
        .ok f ∧
      RequestedFile.fromDbKeyValue (f.toDbKeyValue k t).1.1 (f.toDbKeyValue k t).1.2 =
        .ok { f with downloaded := false }) ∧
    (∀ (key value : Bytes) (r : DownloadRequest),
      DownloadRequest.fromDbKeyValue key value = .ok r → IsFlag value 48 →
        (key, value) = r.toDbKeyValue.1) ∧
    (∀ (key value : Bytes) (f : RequestedFile),
      RequestedFile.fromDbKeyValue key value = .ok f → value.length = 12 →
        ∃ (k : PublicKey) (t : UInt64), Bytes.slice key 0 32 = some k.val ∧
          Bytes.slice key 32 40 = some (Bytes.beU64 t) ∧
          (key, value) = (f.toDbKeyValue k (Duration.fromSecs t)).1) ∧
    (∀ (key value : Bytes) (f : RequestedFile),
      RequestedFile.fromDbByRequestIdKeyValue key value = .ok f → value.length = 9 →
        IsFlag value 8 → ∀ (k : PublicKey) (t : Duration),
          (key, value) = (f.toDbKeyValue k t).2) := by
  refine ⟨fun r hnanos ↦ ?_, fun f k t ↦ ⟨?_, ?_⟩, ?_, ?_, ?_⟩
  · rw [DownloadRequest.fromDbKeyValue_toDbKeyValue]
    have htime : Duration.fromSecs r.timestamp.secs = r.timestamp := by
      rw [Duration.fromSecs, ← hnanos]
    rw [htime]
  · exact RequestedFile.fromDbByRequestId_requestKey _ _ _ _
  · exact RequestedFile.fromDbKeyValue_peerKey _ _ _ _ _
  · exact fun key value r ↦ DownloadRequest.eq_toDbKeyValue
  · exact fun key value f ↦ RequestedFile.eq_toDbKeyValue_peer
  · exact fun key value f ↦ RequestedFile.eq_toDbKeyValue_requestId

/-- The request of the test at `src/wishlist.rs:573`. -/
def bookRequest : DownloadRequest :=
  .create 1700000000 "books/book.pdf" 501546 5144
    ⟨Utf8.encode "23lkjfsdfljkfsdlskdjsfdklfsddjsd", by decide⟩ false

/-- The request of the test survives. -/
theorem records_survive_storage_book :
    DownloadRequest.fromDbKeyValue bookRequest.toDbKeyValue.1.1 bookRequest.toDbKeyValue.1.2 =
      .ok bookRequest := records_survive_storage.1 bookRequest rfl

end HarddriveParty
