import DecentStore.DssClient
import DecentStore.PeerService
import DecentStore.Tracker

/-!
# What a client talks to

A client has a disk of its own and a network. The network answers each request as it likes: it may
keep a state, and it may look at everything the client has done. A cluster is the network of honest
peers, each with a store that never fails and never evicts, serving one request at a time. `Peers`
is the same with the storage manager of every peer and its disk.
-/

namespace DecentStore

open Bytes Interaction

/-- A client's files. Making the directories of a path can report an error, and a path may not be
writable. `writes` counts the writes to the open output file. -/
structure LocalDisk where
  workingDir : Bytes := []
  files : Bytes → Option Bytes := fun _ => none
  dirError : Bytes → Option Bytes := fun _ => none
  writable : Bytes → Bool := fun _ => true
  outPath : Bytes := []
  writes : Nat := 0

namespace LocalDisk

def absolute (disk : LocalDisk) (path : Bytes) : Bytes :=
  if path.head? = some 47 then path else DssClient.joinPath disk.workingDir path

def writeFile (disk : LocalDisk) (path text : Bytes) : LocalDisk :=
  { disk with files := Function.update disk.files path (some text) }

/-- Opening a file to write empties it. -/
def openOut (disk : LocalDisk) (path : Bytes) : LocalDisk :=
  { disk.writeFile path [] with outPath := path, writes := 0 }

def write (disk : LocalDisk) (data : Bytes) : LocalDisk :=
  { disk.writeFile disk.outPath ((disk.files disk.outPath).getD [] ++ data) with
    writes := disk.writes + 1 }

def writeAll (disk : LocalDisk) (data : List Bytes) : LocalDisk := data.foldl write disk

end LocalDisk

/-- How each request of a client is answered. -/
abbrev Network (σ : Type) := PeerEndpoint → Bytes → σ × LocalDisk → Exchange × σ

/-- The network answers the exchanges and the disk the rest: it can tell whether a file is there,
and what is written to a file that could be opened is written whole. -/
def worldHandle {σ : Type} (net : Network σ) : Handler Call.Reply (σ × LocalDisk)
  | .exchange peer request, s => ((net peer request s).1, (net peer request s).2, s.2)
  | .fileExists path, s => (.ok (s.2.files path).isSome, s)
  | .readFile path, s => (s.2.files path, s)
  | .absolute path, s => (s.2.absolute path, s)
  | .createDirectories path, s => (s.2.dirError path, s)
  | .writeFile path text, s =>
      if s.2.writable path then (true, s.1, s.2.writeFile path text) else (false, s)
  | .openOut path, s =>
      if s.2.writable path then (true, s.1, s.2.openOut path) else (false, s)
  | .write data, s => ((), s.1, s.2.write data)

/-! ### Writes that fail -/

/-- How much of each write to the output file reaches it: everything, or so many of its bytes, and
then the stream has failed. -/
abbrev WriteOutcome := Nat → Option Nat

namespace LocalDisk

/-- A write before this one failed. -/
def streamFailed (outcome : WriteOutcome) (disk : LocalDisk) : Prop :=
  ∃ n < disk.writes, outcome n ≠ none

instance (outcome : WriteOutcome) (disk : LocalDisk) : Decidable (disk.streamFailed outcome) :=
  inferInstanceAs (Decidable (∃ n < disk.writes, outcome n ≠ none))

/-- What a write adds to the file. A stream that has failed takes nothing more. -/
def taken (outcome : WriteOutcome) (disk : LocalDisk) (data : Bytes) : Bytes :=
  if disk.streamFailed outcome then []
  else match outcome disk.writes with
    | none => data
    | some n => data.take n

def writeSome (outcome : WriteOutcome) (disk : LocalDisk) (data : Bytes) : LocalDisk :=
  { disk.writeFile disk.outPath ((disk.files disk.outPath).getD [] ++ disk.taken outcome data) with
    writes := disk.writes + 1 }

end LocalDisk

/-- A world whose disk may fail while the output file is written. Nobody is told. -/
def lossyHandle {σ : Type} (outcome : WriteOutcome) (net : Network σ) :
    Handler Call.Reply (σ × LocalDisk)
  | .write data, s => ((), s.1, s.2.writeSome outcome data)
  | call, s => worldHandle net call s

/-- When every write succeeds it is the world above. -/
theorem lossyHandle_complete {σ : Type} (net : Network σ) :
    lossyHandle (fun _ => none) net = worldHandle net := by
  funext c s
  cases c with
  | write data =>
      have htaken : s.2.taken (fun _ => none) data = data := by
        simp [LocalDisk.taken, LocalDisk.streamFailed]
      simp [lossyHandle, worldHandle, LocalDisk.writeSome, LocalDisk.write, htaken]
  | _ => rfl

/-! ### One peer -/

/-- How the bytes of a connection are cut, by the calls that send and receive the request and the
reply, and what the service would meet behind the request. -/
structure Cuts where
  requestSent : List Nat := []
  requestReceived : List Nat := []
  replySent : List Nat := []
  replyReceived : List Nat := []
  ending : Ending := .closed

/-- The service behind each connection: it reads what the client sends, and the client what it
sends. A service that throws sends nothing. -/
def peerNetwork (o : Orders) (cuts : Cuts) : Network Store := fun _ request s =>
  let (reply, store) := PeerService.serve (PeerService.managed o)
    ⟨Socket.sent cuts.requestSent request, cuts.requestReceived, cuts.ending⟩ s.1
  let bytes := match reply with
    | .ok bytes => bytes
    | .error _ => []
  (.answered ⟨Socket.sent cuts.replySent bytes, cuts.replyReceived, .closed⟩, store)

/-! ### The tracker -/

/-- The tracker behind each connection, with the readings of its clock. -/
def trackerNetwork (o : TrackerOrders) (now later : Int) (cuts : Cuts) : Network Tracker :=
  fun _ request s =>
    let (reply, tracker) := s.1.serve o now later
      ⟨Socket.sent cuts.requestSent request, cuts.requestReceived, cuts.ending⟩
    (.answered ⟨Socket.sent cuts.replySent reply, cuts.replyReceived, .closed⟩, tracker)

/-! ### Honest peers -/

/-- The stores of all peers. -/
abbrev Cluster := PeerEndpoint → IdealStore

namespace Cluster

/-- Every peer new. -/
def empty : Cluster := fun _ => {}

def putChunk (cluster : Cluster) (peer : PeerEndpoint) (id data : Bytes) : Cluster :=
  Function.update cluster peer ((cluster peer).putChunk id data)

def putManifest (cluster : Cluster) (peer : PeerEndpoint) (id text : Bytes) : Cluster :=
  Function.update cluster peer ((cluster peer).putManifest id text)

/-- How the network cuts the bytes of a request and of its reply into segments. -/
structure Segments where
  request : PeerEndpoint → Bytes → List Nat := fun _ _ => []
  reply : PeerEndpoint → Bytes → List Nat := fun _ _ => []

/-- One request, served to its end. A service that throws closes the connection without a reply. -/
def network (segments : Segments) : Network Cluster := fun peer request s =>
  match PeerService.serve IdealStore.operations ⟨request, segments.request peer request, .closed⟩
      (s.1 peer) with
  | (.ok reply, store) =>
      (.answered ⟨reply, segments.reply peer request, .closed⟩, Function.update s.1 peer store)
  | (.error _, store) =>
      (.answered ⟨[], segments.reply peer request, .closed⟩, Function.update s.1 peer store)

end Cluster

/-! ### Peers with disks -/

/-- The services of all peers, each over a file system of its own. -/
abbrev Peers := PeerEndpoint → PeerService.Service

namespace Peers

/-- One request, served to its end by one turn of the peer's loop. A service that has ended accepts
no connection. Each request meets walking orders of its own. -/
def network [Memory] (orders : Peers → PeerEndpoint → Bytes → Orders) (refused : Exc)
    (segments : Cluster.Segments) : Network Peers := fun peer request s =>
  let o := orders s.1 peer request
  let sock : Socket := ⟨request, segments.request peer request, .closed⟩
  if (s.1 peer).running then
    let bytes := match (PeerService.serve (PeerService.managed o) sock (s.1 peer).store).1 with
      | .ok bytes => bytes
      | .error _ => []
    (.answered ⟨bytes, segments.reply peer request, .closed⟩,
      Function.update s.1 peer ((s.1 peer).turn o sock))
  else (.refused refused, s.1)

/-- The process of a peer ends between two connections and is started again on its directory. -/
def restart (peers : Peers) (peer : PeerEndpoint) (o : Orders) (maxBytes : UInt64) : Peers :=
  Function.update peers peer
    (.start o (peers peer).store.sm.baseDir maxBytes (peers peer).store.fs)

end Peers

end DecentStore
