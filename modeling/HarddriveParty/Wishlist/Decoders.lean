import HarddriveParty.Wishlist.Records

/-!
# Decoding bad records

The four database decoders of `src/wishlist.rs` against the layouts that their doc comments
describe. Three of them check the length of a buffer before they cut it. The decoder of
completed requests checks the key and the value, and then cuts the path out of the key at an
offset of the value.
-/

namespace HarddriveParty

open Record

/-- What is asked of a decoder on one record: it does not panic, and it reads a record that
is laid out as documented. -/
structure Decodes {R : Type} (decode : Bytes → Bytes → Outcome DbError R)
    (layout : R → KeyValue → Prop) (key value : Bytes) : Prop where
  noPanic : ¬ Outcome.Panicked (decode key value)
  reads : ∀ r, layout r (key, value) → decode key value = .ok r

namespace DownloadRequest

/-- key: `<request_id>` value: `<timestamp><total_size><peer_public_key><is_dir><requested_path>`
(`src/wishlist.rs:74`). -/
def Layout (r : DownloadRequest) (kv : KeyValue) : Prop :=
  r.timestamp.nanos = 0 ∧ kv.1 = Bytes.beU32 r.requestId ∧ ∃ isDir : UInt8,
    r.isDir = (isDir == 1) ∧
    kv.2 = Bytes.beU64 r.timestamp.secs ++ (Bytes.beU64 r.totalSize ++
      (r.peerPublicKey.val ++ ([isDir] ++ Utf8.encode r.path)))

/-- key: `<request_id>` value: `<timestamp><peer_public_key><total_size><path>`
(`src/wishlist.rs:138`). -/
def CompletedLayout (r : DownloadRequest) (kv : KeyValue) : Prop :=
  r.timestamp.nanos = 0 ∧ r.isDir = false ∧ kv.1 = Bytes.beU32 r.requestId ∧
    kv.2 = Bytes.beU64 r.timestamp.secs ++ (r.peerPublicKey.val ++
      (Bytes.beU64 r.totalSize ++ Utf8.encode r.path))

end DownloadRequest

namespace RequestedFile

/-- key: `<peer_public_key><timestamp><path>` value: `<request_id><size>`
(`src/wishlist.rs:204`). -/
def PeerLayout (f : RequestedFile) (kv : KeyValue) : Prop :=
  f.downloaded = false ∧ kv.2 = Bytes.beU32 f.requestId ++ Bytes.beU64 f.size ∧
    ∃ (k : PublicKey) (timestamp : UInt64),
      kv.1 = k.val ++ (Bytes.beU64 timestamp ++ Utf8.encode f.path)

/-- key2: `<requestid><path>` value2: `<size><downloaded>` (`src/wishlist.rs:238`). -/
def RequestIdLayout (f : RequestedFile) (kv : KeyValue) : Prop :=
  kv.1 = Bytes.beU32 f.requestId ++ Utf8.encode f.path ∧ ∃ downloaded : UInt8,
    f.downloaded = (downloaded == 1) ∧ kv.2 = Bytes.beU64 f.size ++ [downloaded]

end RequestedFile

/-- Every decoder does what is asked of it on the record. -/
structure DecodersSound (key value : Bytes) : Prop where
  request : Decodes DownloadRequest.fromDbKeyValue DownloadRequest.Layout key value
  completed : Decodes DownloadRequest.fromCompletedRequestsDbKeyValue
    DownloadRequest.CompletedLayout key value
  byPeer : Decodes RequestedFile.fromDbKeyValue RequestedFile.PeerLayout key value
  byRequestId : Decodes RequestedFile.fromDbByRequestIdKeyValue RequestedFile.RequestIdLayout
    key value

namespace Record

/-- A field within the record is cut out with its width. -/
theorem cut_eq_ok (b : Bytes) (lo hi : Nat) (h : lo ≤ hi) (hb : hi ≤ b.length) :
    ∃ x, cut b lo hi = .ok x ∧ x.length = hi - lo := by
  refine ⟨(b.drop lo).take (hi - lo), ?_, ?_⟩
  · rw [cut, Bytes.slice, if_pos ⟨h, hb⟩]
    rfl
  · rw [List.length_take, List.length_drop]
    omega

/-- A number is read from four bytes. -/
theorem u32_eq_ok {b : Bytes} (h : b.length = 4) : ∃ x, u32 b = .ok x :=
  ⟨_, (Outcome.okOr_eq_ok_iff _ _ _).mpr (if_pos h)⟩

/-- A number is read from eight bytes. -/
theorem u64_eq_ok {b : Bytes} (h : b.length = 8) : ∃ x, u64 b = .ok x :=
  ⟨_, (Outcome.okOr_eq_ok_iff _ _ _).mpr (if_pos h)⟩

/-- A public key is read from 32 bytes. -/
theorem publicKey_eq_ok {b : Bytes} (h : b.length = 32) : ∃ k, publicKey b = .ok k :=
  ⟨_, (Outcome.okOr_eq_ok_iff _ _ _).mpr (dif_pos h)⟩

/-- A cut that starts behind the end panics. -/
theorem cutFrom_panics {b : Bytes} {lo : Nat} (h : b.length < lo) :
    cutFrom b lo = .error (.panic "range out of bounds") := by
  rw [cutFrom, Bytes.sliceFrom, Bytes.slice, if_neg (by omega)]
  rfl

end Record

namespace DownloadRequest

/-- Decoding a record of the tree by request id never panics. -/
theorem not_panicked_fromDbKeyValue (key value : Bytes) :
    ¬ Outcome.Panicked (fromDbKeyValue key value) := by
  simp only [fromDbKeyValue, Outcome.panicked_bind_iff, not_or, not_exists, not_and,
    Outcome.ensure_eq_ok_iff, Outcome.not_panicked_ensure, not_false_eq_true, true_and]
  intro _ hkey _ hvalue
  refine ⟨not_panicked_cut (by omega) (by omega), fun id _ ↦
    ⟨Outcome.not_panicked_okOr _ _, fun _ _ ↦ ?_⟩⟩
  refine ⟨not_panicked_cut (by omega) (by omega), fun time _ ↦
    ⟨Outcome.not_panicked_okOr _ _, fun _ _ ↦ ?_⟩⟩
  refine ⟨not_panicked_cut (by omega) (by omega), fun total _ ↦
    ⟨Outcome.not_panicked_okOr _ _, fun _ _ ↦ ?_⟩⟩
  refine ⟨not_panicked_cut (by omega) (by omega), fun peer _ ↦
    ⟨Outcome.not_panicked_okOr _ _, fun _ _ ↦ ?_⟩⟩
  refine ⟨not_panicked_flagAt (by omega), fun isDir _ ↦ ?_⟩
  refine ⟨not_panicked_cutFrom (by omega), fun path _ ↦
    ⟨Outcome.not_panicked_okOr _ _, fun _ _ ↦ ?_⟩⟩
  exact Outcome.not_panicked_ok _

/-- The decoder of completed requests panics on exactly the records that pass its checks. -/
theorem panicked_fromCompletedRequestsDbKeyValue_iff {key value : Bytes} :
    Outcome.Panicked (fromCompletedRequestsDbKeyValue key value) ↔
      key.length = 4 ∧ 48 ≤ value.length := by
  constructor
  · intro h
    by_contra hshort
    rw [not_and_or] at hshort
    simp only [fromCompletedRequestsDbKeyValue, Outcome.panicked_bind_iff,
      Outcome.ensure_eq_ok_iff, Outcome.not_panicked_ensure, false_or] at h
    obtain ⟨_, hkey, hrest⟩ := h
    rcases hrest with hcut | ⟨_, _, hid | ⟨_, _, _, hvalue, -⟩⟩
    · exact not_panicked_cut (by omega) (by omega) hcut
    · exact Outcome.not_panicked_okOr _ _ hid
    · rcases hshort with hk | hv
      · exact hk hkey
      · exact hv hvalue
  · rintro ⟨hkey, hvalue⟩
    obtain ⟨idBytes, hidBytes, hidLength⟩ := cut_eq_ok key 0 4 (by omega) (by omega)
    obtain ⟨timeBytes, htimeBytes, htimeLength⟩ := cut_eq_ok value 0 8 (by omega) (by omega)
    obtain ⟨peerBytes, hpeerBytes, hpeerLength⟩ :=
      cut_eq_ok value 8 (32 + 8) (by omega) (by omega)
    obtain ⟨totalBytes, htotalBytes, htotalLength⟩ :=
      cut_eq_ok value (32 + 8) (32 + 8 + 8) (by omega) (by omega)
    obtain ⟨id, hid⟩ := u32_eq_ok hidLength
    obtain ⟨time, htime⟩ := u64_eq_ok htimeLength
    obtain ⟨peer, hpeer⟩ := publicKey_eq_ok hpeerLength
    obtain ⟨total, htotal⟩ := u64_eq_ok htotalLength
    have hpath : cutFrom key (32 + 8 + 8) = .error (.panic "range out of bounds") :=
      cutFrom_panics (by omega)
    refine ⟨"range out of bounds", ?_⟩
    simp only [fromCompletedRequestsDbKeyValue, Outcome.ensure_of hkey,
      Outcome.ensure_of (show 8 + 32 + 8 ≤ value.length from hvalue), Outcome.ok_bind, hidBytes,
      hid, htimeBytes, htime, hpeerBytes, hpeer, htotalBytes, htotal, hpath]
    rfl

/-- A record that is laid out as documented is read. -/
theorem fromDbKeyValue_of_layout {r : DownloadRequest} {key value : Bytes}
    (h : r.Layout (key, value)) : fromDbKeyValue key value = .ok r := by
  obtain ⟨path, totalSize, requestId, ⟨secs, nanos⟩, peer, isDir⟩ := r
  obtain ⟨hnanos, hkey, byte, hisDir, hvalue⟩ := h
  simp only at hnanos hkey hisDir hvalue
  rw [hkey, hvalue, hnanos, hisDir]
  exact fromDbKeyValue_fields _ _ _ _ _ _

/-- A documented record of a completed request passes the checks. -/
theorem CompletedLayout.panicked {r : DownloadRequest} {key value : Bytes}
    (h : r.CompletedLayout (key, value)) :
    Outcome.Panicked (fromCompletedRequestsDbKeyValue key value) := by
  obtain ⟨-, -, hkey, hvalue⟩ := h
  simp only at hkey hvalue
  have hpeer : r.peerPublicKey.val.length = 32 := r.peerPublicKey.property
  rw [panicked_fromCompletedRequestsDbKeyValue_iff, hkey, hvalue]
  refine ⟨Bytes.length_beU32 _, ?_⟩
  rw [List.length_append, List.length_append, List.length_append, hpeer, Bytes.length_beU64,
    Bytes.length_beU64]
  omega

end DownloadRequest

namespace RequestedFile

/-- A record by peer that is laid out as documented is read. -/
theorem fromDbKeyValue_of_layout {f : RequestedFile} {key value : Bytes}
    (h : f.PeerLayout (key, value)) : fromDbKeyValue key value = .ok f := by
  obtain ⟨path, size, requestId, downloaded⟩ := f
  obtain ⟨hdownloaded, hvalue, k, timestamp, hkey⟩ := h
  simp only at hdownloaded hvalue hkey
  rw [hkey, hvalue, hdownloaded]
  exact fromDbKeyValue_peerKey k (Duration.fromSecs timestamp) _ _ _

/-- A record by request id that is laid out as documented is read. -/
theorem fromDbByRequestIdKeyValue_of_layout {f : RequestedFile} {key value : Bytes}
    (h : f.RequestIdLayout (key, value)) : fromDbByRequestIdKeyValue key value = .ok f := by
  obtain ⟨path, size, requestId, downloaded⟩ := f
  obtain ⟨hkey, byte, hdownloaded, hvalue⟩ := h
  simp only at hkey hdownloaded hvalue
  rw [hkey, hvalue, hdownloaded]
  exact fromDbByRequestId_fields _ _ _ _

end RequestedFile

/-- On a pair of byte strings every decoder returns, and reads the documented layouts, unless
the pair passes the checks of the decoder of completed requests, which then panics. -/
theorem decodersSound_iff (key value : Bytes) :
    DecodersSound key value ↔ ¬ (key.length = 4 ∧ 48 ≤ value.length) := by
  constructor
  · intro h hlen
    exact h.completed.noPanic
      (DownloadRequest.panicked_fromCompletedRequestsDbKeyValue_iff.mpr hlen)
  · intro hlen
    have hpanic : ¬ Outcome.Panicked
        (DownloadRequest.fromCompletedRequestsDbKeyValue key value) := by
      rwa [DownloadRequest.panicked_fromCompletedRequestsDbKeyValue_iff]
    constructor
    · exact ⟨DownloadRequest.not_panicked_fromDbKeyValue _ _,
        fun r ↦ DownloadRequest.fromDbKeyValue_of_layout⟩
    · exact ⟨hpanic, fun r hr ↦ absurd (DownloadRequest.CompletedLayout.panicked hr) hpanic⟩
    · exact ⟨RequestedFile.not_panicked_fromDbKeyValue _ _,
        fun f ↦ RequestedFile.fromDbKeyValue_of_layout⟩
    · exact ⟨RequestedFile.not_panicked_fromDbByRequestIdKeyValue _ _,
        fun f ↦ RequestedFile.fromDbByRequestIdKeyValue_of_layout⟩

/-- A completed request, laid out as documented. -/
def completedRecord : KeyValue :=
  (Bytes.beU32 1, Bytes.beU64 1700000000 ++ (List.replicate 32 7 ++
    (Bytes.beU64 5 ++ Utf8.encode "a")))

/-- Decoding a record of a completed request that is laid out as documented panics. -/
theorem completedRecord_panics :
    (∃ r : DownloadRequest, r.CompletedLayout completedRecord) ∧
      DownloadRequest.fromCompletedRequestsDbKeyValue completedRecord.1 completedRecord.2 =
        .error (.panic "range out of bounds") ∧
      ¬ DecodersSound completedRecord.1 completedRecord.2 := by
  have hpanic : DownloadRequest.fromCompletedRequestsDbKeyValue completedRecord.1
      completedRecord.2 = .error (.panic "range out of bounds") := by decide
  refine ⟨⟨⟨"a", 5, 1, Duration.fromSecs 1700000000, ⟨List.replicate 32 7, by decide⟩, false⟩,
    rfl, rfl, rfl, rfl⟩, hpanic, fun h ↦ ?_⟩
  exact h.completed.noPanic ⟨_, hpanic⟩

end HarddriveParty
