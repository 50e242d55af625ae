import DecentStore.Crypto
import DecentStore.Lib.IStream
import DecentStore.Net
import DecentStore.Storage

/-!
# The service of a peer

`core/peer/peer_service`, one connection of the accept loop: the request is read from the socket and
the reply is the text sent before the connection is closed. The buffers of a `PUT` and of a
`GET_MANIFEST` are allocated outside any `try`, so a size that cannot be allocated throws out of the
loop and ends the service.

The loop is stated over the operations of a chunk store, given once by the storage manager on its
file system and once by an ideal store, a map from ids to bytes.
-/

namespace DecentStore

open Bytes Posix Interaction

/-- What the loop needs of a store. -/
structure ChunkStore (σ : Type) where
  storeChunk : (hash data : Bytes) → σ → Except Exc Unit × σ
  loadChunk : (hash : Bytes) → σ → Except Exc Bytes × σ
  hasChunk : (hash : Bytes) → σ → Bool
  writeManifest : (manifestId data : Bytes) → σ → Bool × σ
  readManifest : (manifestId : Bytes) → σ → Except Exc (Option Bytes)
  hasManifest : (manifestId : Bytes) → σ → Bool

namespace PeerService

def ok : Bytes := str "OK\n"

def err : Bytes := str "ERR\n"

/-- The reply to a `GET`: the size on a line and then the bytes. -/
def okPayload (data : Bytes) : Bytes := str "OK " ++ decimal data.length ++ str "\n" ++ data

section Serve

variable [Memory] {σ : Type} (store : ChunkStore σ)

/-- The payload of a `PUT`, or nothing if the connection ends before its last byte. -/
def recvPayload (size : UInt64) (sock : Socket) : Except Exc (Option Bytes) := do
  allocate maxSize vectorTooLong size.toNat
  let (data, _) := sock.recvExactly (min · 4096) size.toNat
  .ok (if data.length = size.toNat then some data else none)

def putChunk (iss : IStream) (sock : Socket) (s : σ) : Except Exc Bytes × σ :=
  let (hash, iss) := iss.getString []
  let (size, _) := iss.getUInt64 0
  match recvPayload size sock with
  | .error e => (.error e, s)
  | .ok none => (.ok err, s)
  | .ok (some data) =>
      match store.storeChunk hash data s with
      | (.ok (), s) => (.ok ok, s)
      | (.error _, s) => (.ok err, s)

def getChunk (iss : IStream) (s : σ) : Except Exc Bytes × σ :=
  let (hash, _) := iss.getString []
  match store.loadChunk hash s with
  | (.ok data, s) => (.ok (okPayload data), s)
  | (.error _, s) => (.ok err, s)

def hasChunk (iss : IStream) (s : σ) : Except Exc Bytes × σ :=
  let (hash, _) := iss.getString []
  (.ok (if store.hasChunk hash s then ok else err), s)

def putManifest (iss : IStream) (sock : Socket) (s : σ) : Except Exc Bytes × σ :=
  let (manifestId, iss) := iss.getString []
  let (size, _) := iss.getUInt64 0
  match recvPayload size sock with
  | .error e => (.error e, s)
  | .ok none => (.ok err, s)
  | .ok (some data) =>
      match store.writeManifest manifestId data s with
      | (true, s) => (.ok ok, s)
      | (false, s) => (.ok err, s)

def getManifest (iss : IStream) (s : σ) : Except Exc Bytes × σ :=
  let (manifestId, _) := iss.getString []
  match store.readManifest manifestId s with
  | .error e => (.error e, s)
  | .ok (some text) => (.ok (okPayload text), s)
  | .ok none => (.ok err, s)

def hasManifest (iss : IStream) (s : σ) : Except Exc Bytes × σ :=
  let (manifestId, _) := iss.getString []
  (.ok (if store.hasManifest manifestId s then ok else err), s)

/-- One connection. A line that cannot be read and an unknown command are not answered. -/
def serve (sock : Socket) (s : σ) : Except Exc Bytes × σ :=
  match recvLine sock with
  | (none, _) => (.ok [], s)
  | (some line, sock) =>
      let (cmd, iss) := IStream.getString ⟨line, false⟩ []
      if cmd = str "PUT_CHUNK" then putChunk store iss sock s
      else if cmd = str "GET_CHUNK" then getChunk store iss s
      else if cmd = str "HAS_CHUNK" then hasChunk store iss s
      else if cmd = str "PUT_MANIFEST" then putManifest store iss sock s
      else if cmd = str "GET_MANIFEST" then getManifest store iss s
      else if cmd = str "HAS_MANIFEST" then hasManifest store iss s
      else (.ok [], s)

end Serve

/-! ### The storage manager as the store -/

/-- A program on the file system, run on the store's. An exception leaves its object behind. -/
def onStore {α : Type} (prog : FsProg (α × StorageManager)) (fs : FileSystem) :
    Except Exc α × Store :=
  match prog.run FileSystem.handle fs with
  | (.ok (a, sm), fs) => (.ok a, ⟨sm, fs⟩)
  | (.error (e, sm), fs) => (.error e, ⟨sm, fs⟩)

def manifestPath (s : Store) (manifestId : Bytes) : Bytes :=
  s.sm.baseDir ++ str "/manifests/" ++ manifestId

/-- `storageDir_` is the base directory of the storage manager. -/
def managed [Memory] (o : Orders) : ChunkStore Store where
  storeChunk hash data s :=
    onStore (do
      let sm ← s.sm.storeChunk o hash data
      pure ((), sm)) s.fs
  loadChunk hash s := onStore (s.sm.loadChunk o hash) s.fs
  hasChunk hash s := s.sm.hasChunk hash
  writeManifest manifestId data s :=
    match s.fs.truncate (manifestPath s manifestId) with
    | (true, fs) => (true, { s with fs := fs.append (manifestPath s manifestId) data })
    | (false, fs) => (false, { s with fs := fs })
  readManifest manifestId s :=
    StorageManager.fileBuffer (maxSize - 1) (.lengthError (str "basic_string::_M_create"))
      (s.fs.read (manifestPath s manifestId))
  hasManifest manifestId s := s.fs.read (manifestPath s manifestId) ≠ .absent

/-! ### The loop -/

/-- The service between two connections: `running_`, and the loop's storage manager. -/
structure Service where
  running : Bool
  store : Store

namespace Service

variable [Memory]

/-- `start` on a directory. -/
def start (o : Orders) (storageDir : Bytes) (maxBytes : UInt64) (fs : FileSystem) : Service where
  running := true
  store := (Store.boot o storageDir maxBytes fs).2

/-- One turn of `while (running_)`. An exception leaves the loop, and the handler in `start` clears
the flag. -/
def turn (p : Service) (o : Orders) (sock : Socket) : Service :=
  if p.running then
    match serve (managed o) sock p.store with
    | (.ok _, s) => ⟨true, s⟩
    | (.error _, s) => ⟨false, s⟩
  else p

/-- The turns from a service on, each with a connection that is allowed in the state it meets. -/
inductive Turns (allowed : Store → Socket → Prop) (first : Service) : Service → Prop where
  | start : Turns allowed first first
  | turn {p : Service} (o : Orders) (sock : Socket) (hrun : Turns allowed first p)
      (hsock : allowed p.store sock) : Turns allowed first (p.turn o sock)

end Service

end PeerService

/-! ### The ideal store -/

/-- A peer's chunks and manifests by id. -/
structure IdealStore where
  chunks : Bytes → Option Bytes := fun _ => none
  manifests : Bytes → Option Bytes := fun _ => none

namespace IdealStore

def putChunk (s : IdealStore) (hash data : Bytes) : IdealStore :=
  { s with chunks := Function.update s.chunks hash (some data) }

def putManifest (s : IdealStore) (manifestId data : Bytes) : IdealStore :=
  { s with manifests := Function.update s.manifests manifestId (some data) }

/-- No limit and no failing disk. -/
def operations : ChunkStore IdealStore where
  storeChunk hash data s :=
    if hash = [] then (.error (.runtimeError (str "storeChunk: empty hash")), s)
    else (.ok (), s.putChunk hash data)
  loadChunk hash s :=
    match s.chunks hash with
    | some data => (.ok data, s)
    | none => (.error (.runtimeError (str "loadChunk: missing chunk " ++ hash)), s)
  hasChunk hash s := (s.chunks hash).isSome
  writeManifest manifestId data s := (true, s.putManifest manifestId data)
  readManifest manifestId s := .ok (s.manifests manifestId)
  hasManifest manifestId s := (s.manifests manifestId).isSome

end IdealStore

end DecentStore
