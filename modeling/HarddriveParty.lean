import HarddriveParty.Base.Answers
import HarddriveParty.Base.Base64
import HarddriveParty.Base.Bincode
import HarddriveParty.Base.Broadcast
import HarddriveParty.Base.Bytes
import HarddriveParty.Base.Frames
import HarddriveParty.Base.KeyRange
import HarddriveParty.Base.LruCache
import HarddriveParty.Base.Mirror
import HarddriveParty.Base.Numerals
import HarddriveParty.Base.OrderedTree
import HarddriveParty.Base.Outcome
import HarddriveParty.Base.Parts
import HarddriveParty.Base.Polling
import HarddriveParty.Base.Registry
import HarddriveParty.Base.Resume
import HarddriveParty.Base.Runs
import HarddriveParty.Base.TwoParties
import HarddriveParty.Base.UnixCreate
import HarddriveParty.Base.UnixFs
import HarddriveParty.Base.UnixPath
import HarddriveParty.Base.UnixWalk
import HarddriveParty.Base.Utf8
import HarddriveParty.Base.Watch
import HarddriveParty.Base.Wire
import HarddriveParty.Connections.Addresses
import HarddriveParty.Connections.AnnounceOwn
import HarddriveParty.Connections.Backoff
import HarddriveParty.Connections.Crossing
import HarddriveParty.Connections.Discovery
import HarddriveParty.Connections.Events
import HarddriveParty.Connections.Hdp
import HarddriveParty.Connections.Introductions
import HarddriveParty.Connections.KeepExisting
import HarddriveParty.Connections.ManualDisconnect
import HarddriveParty.Connections.Model
import HarddriveParty.Connections.Network
import HarddriveParty.Connections.Ownership
import HarddriveParty.Connections.PeerMap
import HarddriveParty.Connections.PendingPeers
import HarddriveParty.Connections.RequestSize
import HarddriveParty.Connections.Reservation
import HarddriveParty.Connections.SelfConnect
import HarddriveParty.Discovery.Birthday
import HarddriveParty.Discovery.HolePunch
import HarddriveParty.Discovery.LocalNetwork
import HarddriveParty.Discovery.Mdns
import HarddriveParty.Discovery.SameSocket
import HarddriveParty.Discovery.Stun
import HarddriveParty.Discovery.TextOrder
import HarddriveParty.Discovery.TieBreak
import HarddriveParty.Discovery.TwoWayPath
import HarddriveParty.Discovery.UnrelatedPackets
import HarddriveParty.Node.Answering
import HarddriveParty.Node.AnswersEnd
import HarddriveParty.Node.Channels
import HarddriveParty.Node.Download
import HarddriveParty.Node.DownloadExact
import HarddriveParty.Node.FailingPeer
import HarddriveParty.Node.FullBuffer
import HarddriveParty.Node.IndexCache
import HarddriveParty.Node.Interleaving
import HarddriveParty.Node.OnDisk
import HarddriveParty.Node.OutstandingFiles
import HarddriveParty.Node.PeerTasks
import HarddriveParty.Node.PostFiles
import HarddriveParty.Node.RecordedRequest
import HarddriveParty.Node.RemoteQuery
import HarddriveParty.Node.RequestLoops
import HarddriveParty.Node.RequestOrder
import HarddriveParty.Node.UnreadChannel
import HarddriveParty.Node.UntrustedAnswer
import HarddriveParty.Node.UploadBacklog
import HarddriveParty.Node.UploadOrder
import HarddriveParty.Shared.AddressText
import HarddriveParty.Shared.AnnounceAddress
import HarddriveParty.Shared.Codec
import HarddriveParty.Shared.UiMessages
import HarddriveParty.Shared.WireMessages
import HarddriveParty.Shares.Aliases
import HarddriveParty.Shares.Consistency
import HarddriveParty.Shares.FailedScan
import HarddriveParty.Shares.Model
import HarddriveParty.Shares.Names
import HarddriveParty.Shares.Overlap
import HarddriveParty.Shares.Query
import HarddriveParty.Shares.QueryExact
import HarddriveParty.Shares.Refinement
import HarddriveParty.Shares.Removal
import HarddriveParty.Shares.Resolve
import HarddriveParty.Shares.Runs
import HarddriveParty.Shares.ScanEffect
import HarddriveParty.Shares.Search
import HarddriveParty.Shares.Sizes
import HarddriveParty.Streams.EventMessages
import HarddriveParty.Streams.EventSockets
import HarddriveParty.Streams.LsResponses
import HarddriveParty.Streams.ResponseBody
import HarddriveParty.Transfer.Attempt
import HarddriveParty.Transfer.Confinement
import HarddriveParty.Transfer.DiskFailure
import HarddriveParty.Transfer.Download
import HarddriveParty.Transfer.FinalProgress
import HarddriveParty.Transfer.Integrity
import HarddriveParty.Transfer.RangedRead
import HarddriveParty.Transfer.RemotePath
import HarddriveParty.Transfer.Setup
import HarddriveParty.Transfer.Speedometer
import HarddriveParty.Transfer.Target
import HarddriveParty.Transfer.TwoPeers
import HarddriveParty.Transfer.Upload
import HarddriveParty.Transfer.Verdict
import HarddriveParty.WebUi.Events
import HarddriveParty.WebUi.Files
import HarddriveParty.WebUi.Model
import HarddriveParty.WebUi.Paths
import HarddriveParty.WebUi.PeerCard
import HarddriveParty.WebUi.Runs
import HarddriveParty.WebUi.Subtree
import HarddriveParty.Wishlist.Agreement
import HarddriveParty.Wishlist.Completion
import HarddriveParty.Wishlist.Decoders
import HarddriveParty.Wishlist.Indexes
import HarddriveParty.Wishlist.Listing
import HarddriveParty.Wishlist.Model
import HarddriveParty.Wishlist.Progress
import HarddriveParty.Wishlist.Records
import HarddriveParty.Wishlist.Storage
