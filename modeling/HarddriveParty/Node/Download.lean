import HarddriveParty.Shared.UiMessages
import HarddriveParty.Transfer.RemotePath
import HarddriveParty.Wishlist.Model

/-!
# Requesting a download

Model of `SharedState::download` in `src/lib.rs`: ask the peer for its listing of a path and
record in the wishlist the request and every listed file that lies within it. The answer of
the peer, the random request id and the clock are inputs.
-/

namespace HarddriveParty

open UnixPath

namespace SharedState

section Handle

variable (requestedPath : Bytes) (path : String) (peerPublicKey : PublicKey) (id : UInt32)

/-- Handle one listed entry at the given second (`src/lib.rs:266`). Errors of the wishlist
are only logged. -/
def handleEntry (nowSecs : UInt64) (wishlist : WishList) (entry : Entry) : WishList :=
  match safeRemoteRelativePath entry.name with
  | .error _ => wishlist
  | .ok entryPath =>
    if remotePathIsWithinRequest requestedPath entryPath then
      let wishlist :=
        if entry.name = path then
          wishlist.addRequest
            (.create nowSecs entry.name entry.size id peerPublicKey entry.isDir)
        else wishlist
      if entry.isDir then wishlist
      else (wishlist.addRequestedFile ⟨entry.name, entry.size, id, false⟩).1
    else wishlist

/-- Handle the entries of one response; `now n` is the second at which the `n`-th entry of
the answer is handled. -/
def handleEntries (now : Nat → UInt64) : Nat → WishList → List Entry → WishList
  | _, wishlist, [] => wishlist
  | n, wishlist, entry :: rest =>
    handleEntries now (n + 1)
      (handleEntry requestedPath path peerPublicKey id (now n) wishlist entry) rest

/-- Handle the responses up to the first item that is an error. -/
def handleResponses (now : Nat → UInt64) :
    Nat → WishList → List (Except String LsResponse) → WishList
  | _, wishlist, [] => wishlist
  | _, wishlist, .error _ :: _ => wishlist
  | n, wishlist, .ok response :: rest =>
    handleResponses now (n + response.entries.length)
      (handleEntries requestedPath path peerPublicKey id now n wishlist response.entries) rest

end Handle

/-- `SharedState::download` (`src/lib.rs:233`). -/
def download (wishlist : WishList) (peerPath : PeerPath)
    (lsResponses : Except UiServerError (List (Except String LsResponse)))
    (connectedPeer : Option PublicKey) (id : UInt32) (now : Nat → UInt64) :
    WishList × Except UiServerError UInt32 :=
  match safeRemoteRelativePath peerPath.path with
  | .error err =>
    (wishlist, .error (.requestError ("Invalid download path requested: " ++ err)))
  | .ok requestedPath =>
    match lsResponses, connectedPeer with
    | .error e, _ => (wishlist, .error e)
    | .ok _, none => (wishlist, .error (.connectionError "Peer not connected"))
    | .ok responses, some peerPublicKey =>
      (handleResponses requestedPath peerPath.path peerPublicKey id now 0 wishlist responses,
        .ok id)

end SharedState

end HarddriveParty
