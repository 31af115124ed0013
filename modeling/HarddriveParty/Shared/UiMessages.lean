import HarddriveParty.Shared.WireMessages

/-!
# Messages to the user interface

Model of the data in `shared/src/ui_messages.rs` that the node exchanges with the UI.
-/

namespace HarddriveParty

/-- A query to one connected peer or to all of them (`shared/src/ui_messages.rs:9`). -/
structure FilesQuery where
  peerName : Option String
  query : IndexQuery
  deriving DecidableEq, Repr

/-- A path of a peer, as the UI names it (`shared/src/ui_messages.rs:39`). -/
structure PeerPath where
  peerName : String
  path : String
  deriving DecidableEq, Repr

/-- An error in response to a UI command (`shared/src/ui_messages.rs:79`). -/
inductive UiServerError where
  | connectionError (message : String)
  | requestError (message : String)
  | shareError (message : String)
  | serialization (message : String)
  | peerDiscovery (message : String)
  | poison
  | db (message : String)
  | addShare (message : String)
  | announceAddressDecode (error : AnnounceAddressDecodeError)
  deriving DecidableEq, Repr

/-- `Display` of `AnnounceAddressDecodeError` (`shared/src/announce_address.rs:170`). -/
def AnnounceAddressDecodeError.display : AnnounceAddressDecodeError → String
  | badLength => "Bad length"
  | unrecognizedTypeValue => "Type value is invalid"
  | parseInt => "Cannot parse integer"
  | base64 _ => "Bad base64"
  | noPort => "No port given when one was expected"

/-- `Display` of `UiServerError` (`shared/src/ui_messages.rs:79`). -/
def UiServerError.display : UiServerError → String
  | connectionError message => "Cannot connect: " ++ message
  | requestError message => "Request error: " ++ message
  | shareError _ => "Error when updating shared directory"
  | serialization message => "Serialization: " ++ message
  | peerDiscovery message => "Peer discovery: " ++ message
  | poison => "Poisoned lock"
  | db message => "Database: " ++ message
  | addShare message => "Error adding directory to share: " ++ message
  | announceAddressDecode error => "Cannot decode announce address " ++ error.display

/-- Information about a current running upload (`shared/src/ui_messages.rs:69`). -/
structure UploadInfo where
  path : String
  bytesRead : UInt64
  totalSize : UInt64
  speed : Nat
  peerName : String
  deriving DecidableEq, Repr

/-- The progress of a download, or the seconds of its completion
(`shared/src/ui_messages.rs:101`). -/
inductive DownloadInfo where
  | downloading (path : String) (bytesRead totalBytesRead : UInt64) (speed : UInt32)
  | completed (secs : UInt64)
  deriving DecidableEq, Repr

/-- A response to a download request (`shared/src/ui_messages.rs:117`). -/
structure DownloadEvent where
  requestId : UInt32
  path : String
  peerName : String
  downloadInfo : DownloadInfo
  deriving DecidableEq, Repr

/-- Messages from the node to the UI (`shared/src/ui_messages.rs:17`). -/
inductive UiEvent where
  | peerConnected (name : String)
  | peerDisconnected (name error : String)
  | peerConnectionFailed (name error : String)
  | uploaded (info : UploadInfo)
  | download (event : DownloadEvent)
  deriving DecidableEq, Repr

end HarddriveParty
