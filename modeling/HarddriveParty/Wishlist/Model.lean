import HarddriveParty.Shares.Query
import HarddriveParty.Wishlist.Records

/-!
# The wishlist

Model of `src/wishlist.rs`: five trees that record download requests, their progress and
the requested files. A file is kept under two keys: by peer, as long as it is outstanding,
and by request, with a flag that says whether it was downloaded. Tree operations do not
fail here.
-/

namespace HarddriveParty

open OrderedTree

/-- Keeps a record of requested and downloaded files (`src/wishlist.rs:325`). -/
structure WishList where
  requestsByRequestId : Tree
  requestsByTimestamp : Tree
  bytesDownloadedByRequestId : Tree
  requestedFilesByPeer : Tree
  requestedFilesByRequestId : Tree

namespace WishList

/-- How many entries to send when updating the UI (`src/wishlist.rs:23`). -/
def maxEntriesPerMessage : Nat := 64

/-- The wishlist of an empty database. -/
def empty : WishList := ⟨∅, ∅, ∅, ∅, ∅⟩

/-- Given a request id, return a request (`src/wishlist.rs:528`). -/
def getRequest (w : WishList) (requestId : UInt32) : Outcome DbError DownloadRequest :=
  match w.requestsByRequestId[DownloadRequest.idKey requestId]? with
  | none => .error (.error .noRequest)
  | some requestDetails =>
    DownloadRequest.fromDbKeyValue (DownloadRequest.idKey requestId) requestDetails

/-- Given a request id, return the number of bytes downloaded so far
(`src/wishlist.rs:511`). -/
def getDownloadProgressForRequest (w : WishList) (requestId : UInt32) : Outcome DbError UInt64 :=
  match w.bytesDownloadedByRequestId[DownloadRequest.idKey requestId]? with
  | some existingBytesBuf =>
    Outcome.okOr (.corruptDb "Bad existing bytes entry") (Bytes.readBeU64 existingBytesBuf)
  | none => .ok 0

/-- Get all requested items to send to UI, in chunks (`src/wishlist.rs:359`). Records that
cannot be decoded are left out. -/
def requested (keyToName : PublicKey → String) (w : WishList) : List (List UiDownloadRequest) :=
  chunker maxEntriesPerMessage
    (w.requestsByTimestamp.toList.filterMap fun kv ↦ do
      let requestDetails ← w.requestsByRequestId[kv.2]?
      let downloadRequest ← (DownloadRequest.fromDbKeyValue kv.2 requestDetails).toOption
      let requestId ← Bytes.readBeU32 kv.2
      let progress ← (w.getDownloadProgressForRequest requestId).toOption
      return downloadRequest.intoUiDownloadRequest keyToName progress)

/-- Get files associated with a given request id, in chunks (`src/wishlist.rs:391`).
Records that cannot be decoded are left out. -/
def requestedFiles (w : WishList) (requestId : UInt32) : List (List UiRequestedFile) :=
  chunker maxEntriesPerMessage
    ((scanPrefix w.requestedFilesByRequestId (Bytes.beU32 requestId)).filterMap fun kv ↦
      (RequestedFile.fromDbByRequestIdKeyValue kv.1 kv.2).toOption.map
        RequestedFile.intoUiRequestedFile)

/-- The outstanding files that a subscription for a peer yields first
(`src/wishlist.rs:425`). Records that cannot be decoded are left out. -/
def existingRequests (w : WishList) (peerPublicKey : PublicKey) : List RequestedFile :=
  (scanPrefix w.requestedFilesByPeer peerPublicKey.val).filterMap fun kv ↦
    (RequestedFile.fromDbKeyValue kv.1 kv.2).toOption

/-- Add a download request (`src/wishlist.rs:461`). -/
def addRequest (w : WishList) (downloadRequest : DownloadRequest) : WishList :=
  let kvs := downloadRequest.toDbKeyValue
  { w with
    requestsByRequestId := w.requestsByRequestId.insert kvs.1.1 kvs.1.2
    requestsByTimestamp := w.requestsByTimestamp.insert kvs.2.1 kvs.2.2 }

/-- Add a download request for a particular file (`src/wishlist.rs:470`). -/
def addRequestedFile (w : WishList) (requestedFile : RequestedFile) :
    WishList × Outcome DbError Unit :=
  match w.getRequest requestedFile.requestId with
  | .error e => (w, .error e)
  | .ok downloadRequest =>
    let kvs := requestedFile.toDbKeyValue downloadRequest.peerPublicKey downloadRequest.timestamp
    ({ w with
       requestedFilesByPeer := w.requestedFilesByPeer.insert kvs.1.1 kvs.1.2
       requestedFilesByRequestId := w.requestedFilesByRequestId.insert kvs.2.1 kvs.2.2 }, .ok ())

/-- Mark a particular requested file as completely downloaded (`src/wishlist.rs:482`). -/
def fileCompleted (w : WishList) (requestedFile : RequestedFile) :
    WishList × Outcome DbError Bool :=
  if requestedFile.downloaded = false then (w, .error (.error .markCompleted))
  else
    match w.getRequest requestedFile.requestId with
    | .error e => (w, .error e)
    | .ok downloadRequest =>
      let kvs :=
        requestedFile.toDbKeyValue downloadRequest.peerPublicKey downloadRequest.timestamp
      let w := { w with requestedFilesByPeer := w.requestedFilesByPeer.erase kvs.1.1 }
      -- Update download progress
      match w.getDownloadProgressForRequest requestedFile.requestId with
      | .error e => (w, .error e)
      | .ok existingBytes =>
        let updatedBytes := existingBytes + requestedFile.size
        ({ w with
           bytesDownloadedByRequestId := w.bytesDownloadedByRequestId.insert
             (DownloadRequest.idKey requestedFile.requestId) (Bytes.beU64 updatedBytes)
           -- Mark file as downloaded
           requestedFilesByRequestId :=
             w.requestedFilesByRequestId.insert kvs.2.1 kvs.2.2 },
          .ok (updatedBytes == downloadRequest.totalSize))

end WishList

end HarddriveParty
