import HarddriveParty.WebUi.Files
import Mathlib.Data.Finset.Basic

/-!
# The state of the web UI

Model of `AppContext` (`web-ui/src/lib.rs`): the signals that replies of the node and its
events change, and for each request to the node what the UI does with a successful reply, chunk
by chunk. A failed reply only adds to the error messages, which are left out; the name of the
node itself, which the UI asks for first, is an input where it is used.
-/

namespace HarddriveParty

open OrderedTree

/-- The order of the requests: inverted timestamp, then request id. -/
def Requests.cmp : UInt64 × UInt32 → UInt64 × UInt32 → Ordering :=
  compareLex (compareOn Prod.fst) (compareOn Prod.snd)

instance : Std.TransCmp Requests.cmp := inferInstanceAs (Std.TransCmp (compareLex _ _))

/-- Requested or downloaded items (`web-ui/src/requests.rs:13`). -/
abbrev Requests := Std.ExtTreeMap (UInt64 × UInt32) PeerPath Requests.cmp

namespace Requests

/-- Newest first: the timestamp is inverted (`web-ui/src/requests.rs:20`). -/
def insertRequest (requests : Requests) (request : UiDownloadRequest) : Requests :=
  requests.insert (UInt64.ofNat (2 ^ 64 - 1) - request.timestamp.secs, request.requestId)
    ⟨request.peerName, request.path⟩

/-- `Requests::get_by_id` (`web-ui/src/requests.rs:32`). -/
def getById (requests : Requests) (id : UInt32) : Option PeerPath :=
  (requests.toList.find? fun kv ↦ kv.1.2 = id).map Prod.snd

end Requests

/-- The order of the uploads: peer name, then path. -/
def Uploads.cmp : String × String → String × String → Ordering :=
  compareLex (fun a b ↦ Utf8.compareBytes a.1 b.1) (fun a b ↦ Utf8.compareBytes a.2 b.2)

instance : Std.TransCmp Uploads.cmp :=
  inferInstanceAs (Std.TransCmp (compareLex
    (compareOn fun a : String × String ↦ Utf8.encode a.1)
    (compareOn fun a : String × String ↦ Utf8.encode a.2)))

/-- The running uploads (`web-ui/src/uploads.rs:7`). -/
abbrev Uploads := Std.ExtTreeMap (String × String) File Uploads.cmp

/-- The status of a running upload. -/
def UploadInfo.downloadStatus (upload : UploadInfo) : DownloadStatus :=
  .uploading upload.bytesRead upload.totalSize (UInt64.ofNat upload.speed)

/-- `impl From<UploadInfo> for File` (`web-ui/src/file.rs:60`). -/
def UploadInfo.intoFile (upload : UploadInfo) : File :=
  { name := upload.path
    peerName := upload.peerName
    size := some upload.totalSize
    isDir := some false
    isExpanded := false
    downloadStatus := upload.downloadStatus
    request := none }

/-- `Uploads::upsert` (`web-ui/src/uploads.rs:14`). -/
def Uploads.upsert (uploads : Uploads) (upload : UploadInfo) : Uploads :=
  update uploads (upload.peerName, upload.path) fun
    | some file => some { file with
        size := some upload.totalSize
        downloadStatus := upload.downloadStatus }
    | none => some upload.intoFile

namespace FilesMap

/-- The key that bounds the files under a path from above: the path and a tilde. -/
def upperBound (peerPath : PeerPath) : PeerPath := ⟨peerPath.peerName, peerPath.path ++ "~"⟩

/-- The keys that the UI takes for those of a requested path and the files below it. -/
def UnderRequest (requested : PeerPath) : PeerPath → Prop :=
  InRange PeerPath.cmp requested (upperBound requested)

instance (requested : PeerPath) : DecidablePred (UnderRequest requested) :=
  inferInstanceAs (DecidablePred (InRange PeerPath.cmp requested _))

/-- Update or insert one entry of a listing (`web-ui/src/lib.rs:457`). -/
def insertEntry (m : FilesMap) (peerName : String) (entry : Entry) : FilesMap :=
  m.entry ⟨peerName, entry.name⟩
    (fun file ↦ { file with size := some entry.size, isDir := some entry.isDir })
    (some (File.fromEntry entry peerName)) (by intro _; rfl) (by rintro _ ⟨rfl⟩; rfl)

/-- Insert one entry of the own shares unless it is there (`web-ui/src/lib.rs:291`). -/
def insertShare (m : FilesMap) (ownName : String) (entry : Entry) : FilesMap :=
  m.entry ⟨ownName, entry.name⟩ id (some (File.fromEntry entry ownName)) (by intro _; rfl)
    (by rintro _ ⟨rfl⟩; rfl)

/-- The request that `download` records under the id of the reply (`web-ui/src/lib.rs:339`). -/
def newRequest (m : FilesMap) (peerPath : PeerPath) (id : UInt32) : UiDownloadRequest :=
  let cachedFile := m.get? peerPath
  { path := peerPath.path
    progress := 0
    totalSize := (cachedFile.bind File.size).getD 0
    requestId := id
    timestamp := Duration.fromSecs 0
    peerName := peerPath.peerName
    isDir := (cachedFile.bind File.isDir).getD false }

/-- The requested path itself gets the new request (`web-ui/src/lib.rs:357`). -/
def enterRequested (m : FilesMap) (peerPath : PeerPath) (id : UInt32) : FilesMap :=
  let request := m.newRequest peerPath id
  m.entry peerPath (fun file ↦ { file with request := some request })
    (some { name := request.path
            peerName := request.peerName
            size := none
            isDir := (m.get? peerPath).bind File.isDir
            isExpanded := false
            downloadStatus := .requested id
            request := some request })
    (by intro _; rfl) (by rintro _ ⟨rfl⟩; rfl)

/-- Mark all files below this one in the dir hierarchy as requested
(`web-ui/src/lib.rs:370`). -/
def markRequested (m : FilesMap) (peerPath : PeerPath) (id : UInt32) : FilesMap :=
  (m.enterRequested peerPath id).updateRange peerPath (upperBound peerPath)
    (fun file ↦ { file with downloadStatus := .requested id }) (by intro _; rfl)

/-- Entering a requested path changes no other key. -/
theorem get?_enterRequested (m : FilesMap) {peerPath k : PeerPath} (id : UInt32)
    (hk : k ≠ peerPath) : (m.enterRequested peerPath id).get? k = m.get? k := by
  rw [enterRequested, get?_entry, if_neg hk]

/-- Marking changes the files in the key range only. -/
theorem get?_markRequested (m : FilesMap) (peerPath : PeerPath) (id : UInt32) (k : PeerPath) :
    (m.markRequested peerPath id).get? k =
      ((m.enterRequested peerPath id).get? k).map fun f ↦
        if UnderRequest peerPath k then { f with downloadStatus := .requested id } else f := by
  rw [markRequested, get?_updateRange]
  rfl

end FilesMap

namespace UiDownloadRequest

/-- The path that was requested. -/
def peerPath (request : UiDownloadRequest) : PeerPath := ⟨request.peerName, request.path⟩

/-- The status of a request by its progress (`web-ui/src/lib.rs:508`). -/
def downloadStatus (request : UiDownloadRequest) : DownloadStatus :=
  if request.progress = request.totalSize then .downloaded request.requestId
  else .requested request.requestId

end UiDownloadRequest

namespace FilesMap

/-- A request of the node is entered under its path (`web-ui/src/lib.rs:513`). -/
def enterRequest (m : FilesMap) (request : UiDownloadRequest) : FilesMap :=
  m.entry request.peerPath
    (fun file ↦ { file with request := some request, isDir := some request.isDir })
    (some { name := request.path
            peerName := request.peerName
            size := some request.totalSize
            isDir := some request.isDir
            isExpanded := false
            downloadStatus := request.downloadStatus
            request := some request })
    (by intro _; rfl) (by rintro _ ⟨rfl⟩; rfl)

/-- Now set all child files to the same download status (`web-ui/src/lib.rs:533`). -/
def mergeRequest (m : FilesMap) (request : UiDownloadRequest) : FilesMap :=
  (m.enterRequest request).updateRange request.peerPath (upperBound request.peerPath)
    (fun file ↦ { file with
      downloadStatus := file.downloadStatus.mergeRequestSnapshot request.downloadStatus })
    (by intro _; rfl)

/-- Entering a request changes no key but that of its path. -/
theorem get?_enterRequest (m : FilesMap) {k : PeerPath} (request : UiDownloadRequest)
    (hk : k ≠ request.peerPath) : (m.enterRequest request).get? k = m.get? k := by
  rw [enterRequest, get?_entry, if_neg hk]

/-- Merging changes the files in the key range only. -/
theorem get?_mergeRequest (m : FilesMap) (request : UiDownloadRequest) (k : PeerPath) :
    (m.mergeRequest request).get? k =
      ((m.enterRequest request).get? k).map fun f ↦
        if UnderRequest request.peerPath k then
          { f with
            downloadStatus := f.downloadStatus.mergeRequestSnapshot request.downloadStatus }
        else f := by
  rw [mergeRequest, get?_updateRange]
  rfl

/-- A requested file is entered under its own path (`web-ui/src/lib.rs:586`). -/
def mergeRequestedFile (request : UiDownloadRequest) (m : FilesMap)
    (requestedFile : UiRequestedFile) : FilesMap :=
  let downloadStatus : DownloadStatus :=
    if requestedFile.downloaded then .downloaded request.requestId
    else .requested request.requestId
  m.entry ⟨request.peerName, requestedFile.path⟩
    (fun file ↦ { file with
      downloadStatus := file.downloadStatus.mergeRequestSnapshot downloadStatus
      size := some requestedFile.size })
    (some { name := requestedFile.path
            peerName := request.peerName
            size := some requestedFile.size
            isDir := some false
            isExpanded := false
            downloadStatus
            request := none })
    (by intro _; rfl) (by rintro _ ⟨rfl⟩; rfl)

/-- The request is one for a directory (`web-ui/src/lib.rs:574`). -/
def isDirRequest (request : UiDownloadRequest) (requestedFiles : List UiRequestedFile) : Bool :=
  (requestedFiles.any fun requestedFile ↦
    requestedFile.path ≠ request.path &&
      (Utf8.encode (request.path ++ "/")).isPrefixOf (Utf8.encode requestedFile.path)) ||
  1 < requestedFiles.length

/-- The files of a request, then whether the request is for a directory if that is not known
yet (`web-ui/src/lib.rs:571`). -/
def mergeRequestedFiles (m : FilesMap) (request : UiDownloadRequest)
    (requestedFiles : List UiRequestedFile) : FilesMap :=
  (requestedFiles.foldl (mergeRequestedFile request) m).entry request.peerPath
    (fun file ↦ { file with
      isDir := some (file.isDir.getD (isDirRequest request requestedFiles)) })
    none (by intro _; rfl) (by simp)

/-- The files listed under a request (`web-ui/src/requests.rs:41`). -/
def requestFiles (m : FilesMap) (peerPath : PeerPath) : List File :=
  (m.get? peerPath).toList ++
    (((m.range peerPath (upperBound peerPath)).filter fun kv ↦
      kv.2.name ≠ peerPath.path).map Prod.snd)

end FilesMap

/-- The signals of the UI that replies and events change (`web-ui/src/lib.rs`). -/
structure AppContext where
  peers : Finset String
  files : FilesMap
  requests : Requests
  uploads : Uploads
  searchResults : List PeerPath
  pendingPeers : Finset String

namespace AppContext

/-- The state of a freshly loaded page. -/
def empty : AppContext := ⟨∅, .empty, ∅, ∅, [], ∅⟩

/-- A chunk of the own shares; `ownName` is the name that the UI knew when it asked for them
(`web-ui/src/lib.rs:275`). -/
def sharesQuery (ui : AppContext) (ownName : Option String) : LsResponse → AppContext
  | .success entries =>
    match ownName with
    | some ownName =>
      { ui with files := entries.foldl (fun m entry ↦ m.insertShare ownName entry) ui.files }
    | none => ui
  | .err _ => ui

/-- The reply to a download command is the id of the request (`web-ui/src/lib.rs:325`). -/
def download (ui : AppContext) (peerPath : PeerPath) (id : UInt32) : AppContext :=
  { ui with
    requests := if (ui.requests.getById id).isNone then
        ui.requests.insertRequest (ui.files.newRequest peerPath id)
      else ui.requests
    files := ui.files.markRequested peerPath id }

/-- The node refused to connect to the announce address (`web-ui/src/lib.rs:391`). -/
def connectRefused (ui : AppContext) (announceAddress : String) : AppContext :=
  { ui with pendingPeers := ui.pendingPeers.erase announceAddress }

/-- The peer is forgotten once it is disconnected (`web-ui/src/lib.rs:410`). -/
def disconnect (ui : AppContext) (peerName : String) : AppContext :=
  { ui with
    peers := ui.peers.erase peerName
    files := ui.files.retain fun k ↦ k.peerName ≠ peerName
    searchResults := ui.searchResults.filter fun k ↦ k.peerName ≠ peerName }

/-- A chunk of a peer's files (`web-ui/src/lib.rs:438`). -/
def receiveFiles (ui : AppContext) (peerName : String) : LsResponse → AppContext
  | .success entries =>
    { ui with
      peers := insert peerName ui.peers
      files := entries.foldl (fun m entry ↦ m.insertEntry peerName entry) ui.files }
  | .err _ => ui

/-- A chunk of requests (`web-ui/src/lib.rs:490`). -/
def receiveRequests (ui : AppContext) (newRequests : List UiDownloadRequest) : AppContext :=
  { ui with
    requests := newRequests.foldl Requests.insertRequest ui.requests
    files := newRequests.foldl FilesMap.mergeRequest ui.files }

/-- A chunk of the files of a request (`web-ui/src/lib.rs:564`). -/
def requestedFiles (ui : AppContext) (request : UiDownloadRequest)
    (requestedFiles : List UiRequestedFile) : AppContext :=
  { ui with files := ui.files.mergeRequestedFiles request requestedFiles }

/-- A chunk of search results (`web-ui/src/lib.rs:681`). -/
def search (ui : AppContext) (peerName : String) : LsResponse → AppContext
  | .success entries =>
    { ui with
      searchResults := ui.searchResults ++ entries.map fun entry ↦ ⟨peerName, entry.name⟩
      files := entries.foldl (fun m entry ↦ m.insertEntry peerName entry) ui.files }
  | .err _ => ui

end AppContext

end HarddriveParty
