import HarddriveParty.Base.Outcome
import HarddriveParty.Base.Utf8

/-!
# Records of the wishlist

Model of the record types of `src/wishlist.rs` and of their byte layouts in the database.
The decoders cut slices out of keys and values; a slice out of range is a panic.
-/

namespace HarddriveParty

/-- `std::time::Duration`. -/
structure Duration where
  secs : UInt64
  nanos : UInt32
  deriving DecidableEq, Repr

/-- `Duration::from_secs`. -/
def Duration.fromSecs (secs : UInt64) : Duration := ⟨secs, 0⟩

/-- A public key, `[u8; 32]`. -/
abbrev PublicKey := {b : Bytes // b.length = 32}

/-- As many zeros as a public key has bytes. -/
theorem length_zeros : (List.replicate 32 0 : Bytes).length = 32 := rfl

/-- The conversion of a slice to `[u8; 32]`. -/
def toPublicKey (b : Bytes) : Option PublicKey := if h : b.length = 32 then some ⟨b, h⟩ else none

/-- The errors of the wishlist (`src/wishlist.rs:562`), without those of the database. -/
inductive DbError where
  | noRequest
  | serialization
  | badLength (message : String)
  | utf8
  | corruptDb (message : String)
  | markCompleted
  deriving DecidableEq, Repr

/-- A database record. -/
abbrev KeyValue := Bytes × Bytes

/-- A requested file or directory, with a unique request id (`src/wishlist.rs:30`). -/
structure DownloadRequest where
  path : String
  totalSize : UInt64
  requestId : UInt32
  timestamp : Duration
  peerPublicKey : PublicKey
  isDir : Bool
  deriving DecidableEq

/-- A requested file (`src/wishlist.rs:189`). -/
structure RequestedFile where
  path : String
  size : UInt64
  requestId : UInt32
  downloaded : Bool
  deriving DecidableEq, Repr

/-- A requested file as the UI sees it. -/
structure UiRequestedFile where
  path : String
  size : UInt64
  requestId : UInt32
  downloaded : Bool
  deriving DecidableEq, Repr

/-- A download request as the UI sees it (`shared/src/ui_messages.rs:45`). -/
structure UiDownloadRequest where
  path : String
  progress : UInt64
  totalSize : UInt64
  requestId : UInt32
  timestamp : Duration
  peerName : String
  isDir : Bool
  deriving DecidableEq, Repr

namespace Record

/-- Cut a range out of a record. -/
def cut (b : Bytes) (lo hi : Nat) : Outcome DbError Bytes :=
  Outcome.orPanic "range out of bounds" (Bytes.slice b lo hi)

/-- Cut the end of a record off. -/
def cutFrom (b : Bytes) (lo : Nat) : Outcome DbError Bytes :=
  Outcome.orPanic "range out of bounds" (Bytes.sliceFrom b lo)

/-- Read a number of four bytes. -/
def u32 (b : Bytes) : Outcome DbError UInt32 := Outcome.okOr .serialization (Bytes.readBeU32 b)

/-- Read a number of eight bytes. -/
def u64 (b : Bytes) : Outcome DbError UInt64 := Outcome.okOr .serialization (Bytes.readBeU64 b)

/-- Read a public key. -/
def publicKey (b : Bytes) : Outcome DbError PublicKey :=
  Outcome.okOr .serialization (toPublicKey b)

/-- Read a string. -/
def text (b : Bytes) : Outcome DbError String := Outcome.okOr .utf8 (Utf8.decode b)

/-- A flag is one byte. -/
def flag (b : Bool) : Bytes := [if b then 1 else 0]

/-- Read a flag at an index. -/
def flagAt (b : Bytes) (i : Nat) : Outcome DbError Bool :=
  (Outcome.orPanic "index out of bounds" b[i]?).map (· == 1)

end Record

open Record

namespace DownloadRequest

/-- `DownloadRequest::new` (`src/wishlist.rs:46`) at the given second; nanoseconds are
ignored. -/
def create (nowSecs : UInt64) (path : String) (totalSize : UInt64) (requestId : UInt32)
    (peerPublicKey : PublicKey) (isDir : Bool) : DownloadRequest :=
  ⟨path, totalSize, requestId, Duration.fromSecs nowSecs, peerPublicKey, isDir⟩

/-- Given a serialized db entry, make a DownloadRequest (`src/wishlist.rs:75`). -/
def fromDbKeyValue (key value : Bytes) : Outcome DbError DownloadRequest := do
  Outcome.ensure (key.length = 4) (.badLength "Unexpected key length (should be 4 bytes)")
  Outcome.ensure (8 + 8 + 32 + 1 ≤ value.length)
    (.badLength "Unexpected value length (should be at least 49 bytes)")
  let requestId ← u32 (← cut key 0 4)
  let timestampSecs ← u64 (← cut value 0 8)
  let totalSize ← u64 (← cut value 8 16)
  let peerPublicKey ← publicKey (← cut value 16 48)
  let isDir ← flagAt value 48
  let path ← text (← cutFrom value 49)
  return ⟨path, totalSize, requestId, Duration.fromSecs timestampSecs, peerPublicKey, isDir⟩

/-- The key of the request in the tree by request id. -/
def idKey (requestId : UInt32) : Bytes := Bytes.beU32 requestId

/-- Convert to a db entry for both 'by request_id' and 'by timestamp'
(`src/wishlist.rs:118`). -/
def toDbKeyValue (r : DownloadRequest) : KeyValue × KeyValue :=
  let timestampSecsBuf := Bytes.beU64 r.timestamp.secs
  let value1 := timestampSecsBuf ++ (Bytes.beU64 r.totalSize ++ (r.peerPublicKey.val ++
    (flag r.isDir ++ Utf8.encode r.path)))
  ((idKey r.requestId, value1), (timestampSecsBuf, Bytes.beU32 r.requestId))

/-- Given a completed requests db record, create a download request
(`src/wishlist.rs:139`). The path is cut out of the key. -/
def fromCompletedRequestsDbKeyValue (key value : Bytes) : Outcome DbError DownloadRequest := do
  Outcome.ensure (key.length = 4) (.badLength "Unexpected key length (should be 4 bytes)")
  let requestId ← u32 (← cut key 0 4)
  Outcome.ensure (8 + 32 + 8 ≤ value.length)
    (.badLength "Unexpected value length (should be at least 48 bytes)")
  let timestampSecs ← u64 (← cut value 0 8)
  let peerPublicKey ← publicKey (← cut value 8 (32 + 8))
  let totalSize ← u64 (← cut value (32 + 8) (32 + 8 + 8))
  let path ← text (← cutFrom key (32 + 8 + 8))
  return ⟨path, totalSize, requestId, Duration.fromSecs timestampSecs, peerPublicKey, false⟩

/-- `into_ui_download_request` (`src/wishlist.rs:178`). Names are derived from public keys. -/
def intoUiDownloadRequest (keyToName : PublicKey → String) (r : DownloadRequest)
    (progress : UInt64) : UiDownloadRequest :=
  ⟨r.path, progress, r.totalSize, r.requestId, r.timestamp, keyToName r.peerPublicKey, r.isDir⟩

end DownloadRequest

namespace RequestedFile

/-- Given a serialized wishlist db entry, make a RequestedFile (`src/wishlist.rs:203`). -/
def fromDbKeyValue (key value : Bytes) : Outcome DbError RequestedFile := do
  Outcome.ensure (32 + 8 ≤ key.length)
    (.badLength "Unexpected key length (should at least 40 bytes)")
  let path ← text (← cutFrom key (32 + 8))
  Outcome.ensure (4 + 8 ≤ value.length)
    (.badLength "Unexpected value length (should at least 12 bytes)")
  let requestId ← u32 (← cut value 0 4)
  let size ← u64 (← cut value 4 (4 + 8))
  return ⟨path, size, requestId, false⟩

/-- Read a record of the tree by request id (`src/wishlist.rs:239`). -/
def fromDbByRequestIdKeyValue (key value : Bytes) : Outcome DbError RequestedFile := do
  Outcome.ensure (4 ≤ key.length)
    (.badLength "Unexpected key length (should at least 4 bytes)")
  let requestId ← u32 (← cut key 0 4)
  let path ← text (← cutFrom key 4)
  Outcome.ensure (9 ≤ value.length)
    (.badLength "Unexpected value length (should at least 9 bytes)")
  let size ← u64 (← cut value 0 8)
  let downloaded ← flagAt value 8
  return ⟨path, size, requestId, downloaded⟩

/-- The key of a file in the tree by peer. -/
def peerKey (peerPublicKey : PublicKey) (timestamp : Duration) (path : String) : Bytes :=
  peerPublicKey.val ++ (Bytes.beU64 timestamp.secs ++ Utf8.encode path)

/-- The value of a file in the tree by peer. -/
def peerValue (requestId : UInt32) (size : UInt64) : Bytes :=
  Bytes.beU32 requestId ++ Bytes.beU64 size

/-- The key of a file in the tree by request id. -/
def requestKey (requestId : UInt32) (path : String) : Bytes :=
  Bytes.beU32 requestId ++ Utf8.encode path

/-- The value of a file in the tree by request id. -/
def requestValue (size : UInt64) (downloaded : Bool) : Bytes :=
  Bytes.beU64 size ++ flag downloaded

/-- Convert to a db entry for both 'by peer' and 'by request id' (`src/wishlist.rs:276`). -/
def toDbKeyValue (f : RequestedFile) (peerPublicKey : PublicKey) (timestamp : Duration) :
    KeyValue × KeyValue :=
  ((peerKey peerPublicKey timestamp f.path, peerValue f.requestId f.size),
    (requestKey f.requestId f.path, requestValue f.size f.downloaded))

/-- `into_ui_requested_file` (`src/wishlist.rs:313`). -/
def intoUiRequestedFile (f : RequestedFile) : UiRequestedFile :=
  ⟨f.path, f.size, f.requestId, f.downloaded⟩

end RequestedFile

section RoundTrip

namespace Record

/-- A field is cut out by its offsets. -/
theorem cut_append (a b c : Bytes) {lo hi : Nat} (hlo : a.length = lo)
    (hhi : lo + b.length = hi) : cut (a ++ (b ++ c)) lo hi = .ok b := by
  rw [cut, Bytes.slice_append hlo hhi]
  rfl

/-- The first field is cut out by its width. -/
theorem cut_left (b c : Bytes) {hi : Nat} (hhi : b.length = hi) :
    cut (b ++ c) 0 hi = .ok b := by
  apply cut_append [] b c
  · rfl
  · omega

/-- The last field is cut out by its offsets. -/
theorem cut_right (a b : Bytes) {lo hi : Nat} (hlo : a.length = lo)
    (hhi : lo + b.length = hi) : cut (a ++ b) lo hi = .ok b := by
  have h := cut_append a b [] hlo hhi
  rwa [List.append_nil] at h

/-- What follows the fields is cut out by its offset. -/
theorem cutFrom_append {a b : Bytes} {lo : Nat} (hlo : a.length = lo) :
    cutFrom (a ++ b) lo = .ok b := by
  rw [cutFrom, Bytes.sliceFrom_append hlo]
  rfl

/-- A written string is read back. -/
@[simp] theorem text_encode (s : String) : text (Utf8.encode s) = .ok s := by
  rw [text, Utf8.decode_encode]
  rfl

/-- A written number of four bytes is read back. -/
@[simp] theorem u32_beU32 (x : UInt32) : u32 (Bytes.beU32 x) = .ok x := by
  rw [u32, Bytes.readBeU32_beU32]
  rfl

/-- A written number of eight bytes is read back. -/
@[simp] theorem u64_beU64 (x : UInt64) : u64 (Bytes.beU64 x) = .ok x := by
  rw [u64, Bytes.readBeU64_beU64]
  rfl

/-- A written public key is read back. -/
@[simp] theorem publicKey_val (k : PublicKey) : publicKey k.val = .ok k := by
  rw [publicKey, toPublicKey, dif_pos k.property]
  rfl

end Record

/-- A file in the tree by peer is read back as outstanding. -/
theorem RequestedFile.fromDbKeyValue_peerKey (k : PublicKey) (t : Duration) (path : String)
    (requestId : UInt32) (size : UInt64) :
    RequestedFile.fromDbKeyValue (RequestedFile.peerKey k t path)
      (RequestedFile.peerValue requestId size) = .ok ⟨path, size, requestId, false⟩ := by
  have hassoc : RequestedFile.peerKey k t path =
      (k.val ++ Bytes.beU64 t.secs) ++ Utf8.encode path := by
    rw [RequestedFile.peerKey, List.append_assoc]
  have hpre : (k.val ++ Bytes.beU64 t.secs).length = 32 + 8 := by
    rw [List.length_append, k.property, Bytes.length_beU64]
  have hkey : 32 + 8 ≤ (RequestedFile.peerKey k t path).length := by
    rw [hassoc, List.length_append, hpre]
    omega
  have hvalue : 4 + 8 ≤ (RequestedFile.peerValue requestId size).length := by
    rw [RequestedFile.peerValue, List.length_append, Bytes.length_beU32, Bytes.length_beU64]
  have hpath : cutFrom (RequestedFile.peerKey k t path) (32 + 8) = .ok (Utf8.encode path) := by
    rw [hassoc]
    exact cutFrom_append hpre
  have hid : cut (RequestedFile.peerValue requestId size) 0 4 = .ok (Bytes.beU32 requestId) :=
    cut_left _ _ (Bytes.length_beU32 _)
  have hsize : cut (RequestedFile.peerValue requestId size) 4 (4 + 8) = .ok (Bytes.beU64 size) :=
    cut_right _ _ (Bytes.length_beU32 _) (by rw [Bytes.length_beU64])
  simp only [Outcome.ok_bind, RequestedFile.fromDbKeyValue, Outcome.ensure_of hkey,
    Outcome.ensure_of hvalue, hpath, hid, hsize, text_encode, u32_beU32, u64_beU64]
  rfl

/-- The byte of a flag is read at its offset. -/
private theorem flagAt_append (a c : Bytes) (byte : UInt8) {i : Nat} (hi : a.length = i) :
    flagAt (a ++ ([byte] ++ c)) i = .ok (byte == 1) := by
  subst hi
  have hget : (a ++ ([byte] ++ c))[a.length]? = some byte := by simp
  rw [flagAt, hget]
  rfl

/-- A written flag has the byte that is read as it. -/
private theorem flag_eq (d : Bool) : ∃ byte : UInt8, flag d = [byte] ∧ (byte == 1) = d := by
  cases d with
  | true => exact ⟨1, rfl, rfl⟩
  | false => exact ⟨0, rfl, rfl⟩

/-- The fields of a file in the tree by request id are read from their places. -/
theorem RequestedFile.fromDbByRequestId_fields (requestId : UInt32) (path : String)
    (size : UInt64) (downloaded : UInt8) :
    RequestedFile.fromDbByRequestIdKeyValue (RequestedFile.requestKey requestId path)
      (Bytes.beU64 size ++ [downloaded]) = .ok ⟨path, size, requestId, downloaded == 1⟩ := by
  have hkey : 4 ≤ (RequestedFile.requestKey requestId path).length := by
    rw [RequestedFile.requestKey, List.length_append, Bytes.length_beU32]
    omega
  have hvalue : 9 ≤ (Bytes.beU64 size ++ [downloaded]).length := by
    rw [List.length_append, Bytes.length_beU64, List.length_singleton]
  have hid : cut (RequestedFile.requestKey requestId path) 0 4 = .ok (Bytes.beU32 requestId) :=
    cut_left _ _ (Bytes.length_beU32 _)
  have hpath : cutFrom (RequestedFile.requestKey requestId path) 4 = .ok (Utf8.encode path) :=
    cutFrom_append (Bytes.length_beU32 _)
  have hsize : cut (Bytes.beU64 size ++ [downloaded]) 0 8 = .ok (Bytes.beU64 size) :=
    cut_left _ _ (Bytes.length_beU64 _)
  have hflag : flagAt (Bytes.beU64 size ++ [downloaded]) 8 = .ok (downloaded == 1) := by
    have h := flagAt_append (Bytes.beU64 size) [] downloaded (Bytes.length_beU64 _)
    rwa [List.append_nil] at h
  simp only [Outcome.ok_bind, RequestedFile.fromDbByRequestIdKeyValue, Outcome.ensure_of hkey,
    Outcome.ensure_of hvalue, hid, hpath, hsize, hflag, text_encode, u32_beU32, u64_beU64]
  rfl

/-- A file in the tree by request id is read back. -/
theorem RequestedFile.fromDbByRequestId_requestKey (requestId : UInt32) (path : String)
    (size : UInt64) (downloaded : Bool) :
    RequestedFile.fromDbByRequestIdKeyValue (RequestedFile.requestKey requestId path)
      (RequestedFile.requestValue size downloaded) = .ok ⟨path, size, requestId, downloaded⟩ := by
  obtain ⟨byte, hflag, hbyte⟩ := flag_eq downloaded
  rw [RequestedFile.requestValue, hflag, RequestedFile.fromDbByRequestId_fields, hbyte]

/-- The key of a file that is read from the tree by request id is the key of that file. -/
theorem RequestedFile.eq_requestKey {key value : Bytes} {f : RequestedFile}
    (h : RequestedFile.fromDbByRequestIdKeyValue key value = .ok f) :
    key = RequestedFile.requestKey f.requestId f.path := by
  simp only [RequestedFile.fromDbByRequestIdKeyValue, Outcome.bind_eq_ok_iff] at h
  obtain ⟨_, _, idBytes, hid, id, hu32, pathBytes, hpath, path, htext, _, _, _, _, _, _, _, _,
    hf⟩ := h
  cases hf
  rw [cut, Outcome.orPanic_eq_ok_iff] at hid
  rw [cutFrom, Outcome.orPanic_eq_ok_iff] at hpath
  rw [u32, Outcome.okOr_eq_ok_iff] at hu32
  rw [text, Outcome.okOr_eq_ok_iff] at htext
  rw [← Bytes.slice_zero_append hid hpath, Bytes.eq_beU32_of_readBeU32 hu32,
    ← Utf8.encode_of_decode htext, RequestedFile.requestKey]

/-- A request that is read from the tree by request id has the id of its key. -/
theorem DownloadRequest.requestId_of_fromDbKeyValue {id : UInt32} {value : Bytes}
    {r : DownloadRequest}
    (h : DownloadRequest.fromDbKeyValue (DownloadRequest.idKey id) value = .ok r) :
    r.requestId = id := by
  have hid : cut (DownloadRequest.idKey id) 0 4 = .ok (Bytes.beU32 id) := by
    have hcut := cut_left (Bytes.beU32 id) [] (Bytes.length_beU32 id)
    rwa [List.append_nil] at hcut
  simp only [DownloadRequest.fromDbKeyValue, hid, Outcome.ok_bind, u32_beU32,
    Outcome.bind_eq_ok_iff] at h
  obtain ⟨_, _, _, _, _, _, _, _, _, _, _, _, _, _, _, _, _, _, _, _, _, _, hr⟩ := h
  cases hr
  rfl

/-- The fields of a request in the tree by request id are read from their places. -/
theorem DownloadRequest.fromDbKeyValue_fields (requestId : UInt32) (timestamp totalSize : UInt64)
    (peer : PublicKey) (isDir : UInt8) (path : String) :
    DownloadRequest.fromDbKeyValue (DownloadRequest.idKey requestId)
      (Bytes.beU64 timestamp ++ (Bytes.beU64 totalSize ++ (peer.val ++
        ([isDir] ++ Utf8.encode path)))) =
      .ok ⟨path, totalSize, requestId, Duration.fromSecs timestamp, peer, isDir == 1⟩ := by
  have htime : (Bytes.beU64 timestamp).length = 8 := Bytes.length_beU64 _
  have htotal : (Bytes.beU64 totalSize).length = 8 := Bytes.length_beU64 _
  have hpeer : peer.val.length = 32 := peer.property
  have hkey : (DownloadRequest.idKey requestId).length = 4 := Bytes.length_beU32 _
  -- the later fields are cut out after regrouping what stands before them
  generalize hvalue : Bytes.beU64 timestamp ++ (Bytes.beU64 totalSize ++ (peer.val ++
    ([isDir] ++ Utf8.encode path))) = value
  have hlen : 8 + 8 + 32 + 1 ≤ value.length := by
    rw [← hvalue]
    simp only [List.length_append, List.length_singleton]
    omega
  have hid : cut (DownloadRequest.idKey requestId) 0 4 = .ok (Bytes.beU32 requestId) := by
    have h := cut_left (Bytes.beU32 requestId) [] (Bytes.length_beU32 requestId)
    rwa [List.append_nil] at h
  have hcutTime : cut value 0 8 = .ok (Bytes.beU64 timestamp) := by
    rw [← hvalue]
    exact cut_left _ _ htime
  have hcutTotal : cut value 8 16 = .ok (Bytes.beU64 totalSize) := by
    rw [← hvalue]
    exact cut_append _ _ _ htime (by omega)
  have hbefore : (Bytes.beU64 timestamp ++ Bytes.beU64 totalSize).length = 16 := by
    rw [List.length_append]
    omega
  have hcutPeer : cut value 16 48 = .ok peer.val := by
    rw [← hvalue, ← List.append_assoc]
    apply cut_append
    · exact hbefore
    · omega
  have hcutFlag : flagAt value 48 = .ok (isDir == 1) := by
    rw [← hvalue, ← List.append_assoc, ← List.append_assoc]
    apply flagAt_append
    rw [List.length_append]
    omega
  have hcutPath : cutFrom value 49 = .ok (Utf8.encode path) := by
    rw [← hvalue, ← List.append_assoc, ← List.append_assoc, ← List.append_assoc]
    apply cutFrom_append
    rw [List.length_append, List.length_append, List.length_singleton]
    omega
  simp only [Outcome.ok_bind, DownloadRequest.fromDbKeyValue, Outcome.ensure_of hkey,
    Outcome.ensure_of hlen, hid, hcutTime, hcutTotal, hcutPeer, hcutFlag, hcutPath,
    text_encode, u32_beU32, u64_beU64, publicKey_val]
  rfl

/-- A request is read back up to the nanoseconds of its timestamp. -/
theorem DownloadRequest.fromDbKeyValue_toDbKeyValue (r : DownloadRequest) :
    DownloadRequest.fromDbKeyValue r.toDbKeyValue.1.1 r.toDbKeyValue.1.2 =
      .ok { r with timestamp := Duration.fromSecs r.timestamp.secs } := by
  obtain ⟨byte, hflag, hbyte⟩ := flag_eq r.isDir
  simp only [DownloadRequest.toDbKeyValue, hflag]
  rw [DownloadRequest.fromDbKeyValue_fields, hbyte]

end RoundTrip

section NoPanic

namespace Record

/-- A field within the record can be cut out. -/
theorem not_panicked_cut {b : Bytes} {lo hi : Nat} (h : lo ≤ hi) (hb : hi ≤ b.length) :
    ¬ Outcome.Panicked (cut b lo hi) := by
  rw [cut, Outcome.panicked_orPanic]
  intro hn
  have hs := Bytes.slice_isSome h hb
  rw [hn] at hs
  cases hs

/-- The end of a record that is long enough can be cut off. -/
theorem not_panicked_cutFrom {b : Bytes} {lo : Nat} (hb : lo ≤ b.length) :
    ¬ Outcome.Panicked (cutFrom b lo) :=
  not_panicked_cut hb (Nat.le_refl _)

/-- A flag within the record can be read. -/
theorem not_panicked_flagAt {b : Bytes} {i : Nat} (hb : i < b.length) :
    ¬ Outcome.Panicked (flagAt b i) := by
  rw [flagAt, List.getElem?_eq_getElem hb]
  exact Outcome.not_panicked_ok _

end Record

/-- Decoding a record of the tree by peer never panics: its length is checked first. -/
theorem RequestedFile.not_panicked_fromDbKeyValue (key value : Bytes) :
    ¬ Outcome.Panicked (RequestedFile.fromDbKeyValue key value) := by
  simp only [RequestedFile.fromDbKeyValue, Outcome.panicked_bind_iff, not_or, not_exists, not_and,
    Outcome.ensure_eq_ok_iff, Outcome.not_panicked_ensure, not_false_eq_true, true_and]
  intro _ hkey
  refine ⟨not_panicked_cutFrom hkey, fun path _ ↦ ⟨Outcome.not_panicked_okOr _ _, fun _ _ ↦ ?_⟩⟩
  intro _ hvalue
  refine ⟨not_panicked_cut (by omega) (by omega), fun id _ ↦
    ⟨Outcome.not_panicked_okOr _ _, fun _ _ ↦ ?_⟩⟩
  refine ⟨not_panicked_cut (by omega) (by omega), fun size _ ↦
    ⟨Outcome.not_panicked_okOr _ _, fun _ _ ↦ ?_⟩⟩
  exact Outcome.not_panicked_ok _

/-- Decoding a record of the tree by request id never panics. -/
theorem RequestedFile.not_panicked_fromDbByRequestIdKeyValue (key value : Bytes) :
    ¬ Outcome.Panicked (RequestedFile.fromDbByRequestIdKeyValue key value) := by
  simp only [RequestedFile.fromDbByRequestIdKeyValue, Outcome.panicked_bind_iff, not_or,
    not_exists, not_and, Outcome.ensure_eq_ok_iff, Outcome.not_panicked_ensure,
    not_false_eq_true, true_and]
  intro _ hkey
  refine ⟨not_panicked_cut (by omega) hkey, fun id _ ↦
    ⟨Outcome.not_panicked_okOr _ _, fun _ _ ↦ ?_⟩⟩
  refine ⟨not_panicked_cutFrom hkey, fun path _ ↦ ⟨Outcome.not_panicked_okOr _ _, fun _ _ ↦ ?_⟩⟩
  intro _ hvalue
  refine ⟨not_panicked_cut (by omega) (by omega), fun size _ ↦
    ⟨Outcome.not_panicked_okOr _ _, fun _ _ ↦ ?_⟩⟩
  refine ⟨not_panicked_flagAt (by omega), fun _ _ ↦ ?_⟩
  exact Outcome.not_panicked_ok _

end NoPanic

end HarddriveParty
