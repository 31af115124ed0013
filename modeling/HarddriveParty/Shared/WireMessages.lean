import HarddriveParty.Shared.AnnounceAddress

/-!
# Wire messages

The messages of `shared/src/wire_messages.rs` between two nodes: requests, and the answers
to index queries.
-/

namespace HarddriveParty

/-- A request to read the remote peer's shared file index. -/
structure IndexQuery where
  path : Option String
  searchterm : Option String
  recursive : Bool
  deriving DecidableEq, Repr

/-- A request to download a remote peers file (or a portion of the file). -/
structure ReadQuery where
  path : String
  start : Option UInt64
  endOffset : Option UInt64
  deriving DecidableEq, Repr

/-- Contact details of another peer. -/
structure AnnouncePeer where
  announceAddress : AnnounceAddress
  deriving DecidableEq, Repr

/-- A request to a remote peer. -/
inductive Request where
  | ls (query : IndexQuery)
  | read (query : ReadQuery)
  | announcePeer (announce : AnnouncePeer)
  deriving DecidableEq, Repr

/-- A file or directory entry in a share query response. -/
structure Entry where
  name : String
  size : UInt64
  isDir : Bool
  deriving DecidableEq, Repr

/-- Error from making a share index query. -/
inductive LsResponseError where
  | dbError
  | pathNotFound
  | internalServer (message : String)
  deriving DecidableEq, Repr

/-- A response to an index query. -/
inductive LsResponse where
  | success (entries : List Entry)
  | err (e : LsResponseError)
  deriving DecidableEq, Repr

/-- The entries of a response; an error has none. -/
def LsResponse.entries : LsResponse → List Entry
  | .success entries => entries
  | .err _ => []

end HarddriveParty
