import DecentStore.Proof.ManifestCodec
import DecentStore.Storage
import DecentStore.Lib.Lru
import DecentStore.Proof.MetadataText
import DecentStore.Proof.StoreLayout
import DecentStore.Proof.StoreView
import DecentStore.Proof.StoreSimulation
import DecentStore.Proof.StoreLedger
import DecentStore.Proof.StoreEviction
import DecentStore.Proof.StoreRecovery
import DecentStore.Proof.RestartLoss
import DecentStore.Proof.StoreFidelity
import DecentStore.Proof.StoreRecency
import DecentStore.Proof.StoreMap
import DecentStore.Lib.Socket
import DecentStore.Net
import DecentStore.PeerService
import DecentStore.Chunker
import DecentStore.Dht
import DecentStore.PeerClient
import DecentStore.DssClient
import DecentStore.Proof.Chunking
import DecentStore.Proof.HexText
import DecentStore.Proof.Placement
import DecentStore.Proof.Requests
import DecentStore.Proof.Acknowledged
import DecentStore.Lib.Until
import DecentStore.Proof.Download
import DecentStore.Proof.Integrity
import DecentStore.Proof.ConcurrentUploads
import DecentStore.Proof.LostUploads
import DecentStore.Proof.Replication
import DecentStore.Proof.StoreLimit
import DecentStore.Proof.ByteAccounting
import DecentStore.Proof.HarmlessRequests
import DecentStore.Proof.MalformedPuts
import DecentStore.Proof.WireRoundTrip
import DecentStore.Proof.NameSpaces
import DecentStore.Proof.StoreFailures
import DecentStore.Lib.Stopping
import DecentStore.Proof.TornMetadata
import DecentStore.Proof.CrashRecovery
import DecentStore.Proof.SealedLengths
import DecentStore.Proof.TruncatedManifest
import DecentStore.Lib.Lease
import DecentStore.Lib.AssocList
import DecentStore.Tracker
import DecentStore.TrackerClient
import DecentStore.Proof.TrackerLiveness
import DecentStore.Proof.TrackerQueries
import DecentStore.Proof.TrackerListings
import DecentStore.Lib.Surroundings
import DecentStore.EmbeddedPeer
import DecentStore.Proof.OwnerLife
import DecentStore.Lib.Descriptors
import DecentStore.ClientSockets
import DecentStore.Proof.SocketClosing
import DecentStore.Proof.DownloadOutput
import DecentStore.Proof.LocalManifests
import DecentStore.Proof.Nonces
import DecentStore.Lib.Loop
import DecentStore.Proof.LineReader
import DecentStore.PeerEntry
import DecentStore.Proof.HexDecoding
import DecentStore.Lib.Text
import DecentStore.Proof.PeerEntries
import DecentStore.Lib.Simulation
import DecentStore.Proof.DiskPeers
import DecentStore.Proof.DiskUploads
import DecentStore.Lib.Transcript
import DecentStore.Proof.UploadOrder
import DecentStore.Proof.DownloadOrder
import DecentStore.Lib.Since
import DecentStore.Proof.TrackerLocations
import DecentStore.Proof.TrackerRepair
import DecentStore.Progress
import DecentStore.Proof.ProgressReports
import DecentStore.FrontEnds
import DecentStore.Lib.Console
import DecentStore.Proof.FrontEnds
import DecentStore.Proof.CommandLine
import DecentStore.Proof.SearchOrder
import DecentStore.Proof.Availability
import DecentStore.Proof.SentRequests
import DecentStore.Proof.Deduplication
import DecentStore.Proof.ClientsTogether
