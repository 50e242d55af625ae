import DecentStore.Chunker
import DecentStore.Dht
import DecentStore.Manifest
import DecentStore.PeerClient

/-!
# Putting and getting files

`core/dss/dss_client`. An upload cuts the file, stores each chunk under the hash of its plaintext on
the peers the placement names, and last the manifest under the hash of its text. A download takes
every candidate in turn, for the manifest and for each chunk, until one gives bytes with the right
hash. Whatever an attempt throws, the next candidate is tried, unless the process ends there.
-/

namespace DecentStore

open Bytes Interaction

/-- The code counts the peers in an `int`. -/
structure ClientConfig where
  peers : List PeerEndpoint
  chunkSize : UInt64
  desiredReplicas : Int
  rsaPublicKeyPath : Bytes := []
  rsaPrivateKeyPath : Bytes := []
  localManifestDir : Bytes := []
  peers_fit : peers.length < 2 ^ 31

structure PutFileResult where
  shareUri : Bytes
  localManifestPath : Bytes
deriving DecidableEq

namespace DssClient

variable (ssl : OpenSsl)

def shareScheme : Bytes := str "dss://file/"

def normalizeManifestId (manifestRef : Bytes) : Bytes :=
  if shareScheme.isPrefixOf manifestRef then manifestRef.drop shareScheme.length else manifestRef

/-- `path::filename`. -/
def filename (path : Bytes) : Bytes := (path.splitOn 47).getLastD []

/-- `operator/` with a relative right side. -/
def joinPath (dir name : Bytes) : Bytes :=
  if dir = [] ∨ dir.getLast? = some 47 then dir ++ name else dir ++ str "/" ++ name

def noPeers : Exc := .runtimeError (str "No peers configured for DHT")

/-! ### Uploading -/

/-- The targets that already have the chunk are counted, the others are kept. -/
def probe (cid : Bytes) : List PeerEndpoint → ClientProg (Int × List PeerEndpoint)
  | [] => pure (0, [])
  | p :: targets => do
      let present ← PeerClient.hasChunk p cid
      let (already, missing) ← probe cid targets
      pure (if present then (already + 1, missing) else (already, p :: missing))

/-- `if (--needed <= 0) break` after each upload. -/
def putMissing (cid toSend : Bytes) : Int → List PeerEndpoint → ClientProg Unit
  | _, [] => pure ()
  | needed, p :: missing => do
      PeerClient.putChunk p cid toSend
      if needed - 1 ≤ 0 then pure () else putMissing cid toSend (needed - 1) missing

def putAll (put : PeerEndpoint → ClientProg Unit) : List PeerEndpoint → ClientProg Unit
  | [] => pure ()
  | p :: targets => do
      put p
      putAll put targets

/-- The file key, if the upload is encrypted. -/
abbrev Encryption := Option Crypto.FileEncryptionParams

def uploadChunk (dht : DhtNode) (replicas : Int) (enc : Encryption) (chunkIndex : UInt64)
    (bytes : Bytes) : ClientProg Unit := do
  let cid := Crypto.sha256Hex ssl bytes
  match enc with
  | none => do
      let targets ← Prog.ofExcept (dht.store ssl cid replicas)
      let (already, missing) ← probe cid targets
      let needed := replicas - already
      if 0 < needed then putMissing cid bytes needed missing else pure ()
  | some params => do
      let toSend ← Prog.ofExcept
        (Crypto.aesGcmEncrypt ssl bytes params.key params.iv chunkIndex)
      let targets ← Prog.ofExcept (dht.store ssl cid replicas)
      putAll (fun p => PeerClient.putChunk p cid toSend) targets

def uploadChunks (dht : DhtNode) (replicas : Int) (enc : Encryption) :
    UInt64 → List Bytes → ClientProg Unit
  | _, [] => pure ()
  | chunkIndex, bytes :: chunks => do
      uploadChunk ssl dht replicas enc chunkIndex bytes
      uploadChunks dht replicas enc (chunkIndex + 1) chunks

/-- The manifest before its chunks: the file's name and sizes, and the wrapped key. -/
def describe (cfg : ClientConfig) (filePath : Bytes) (fileSize : Nat)
    (fileKey : Crypto.FileKey) : Except Exc (Manifest × Encryption) :=
  let manifest : Manifest :=
    { originalName := filename filePath, originalSize := UInt64.ofNat fileSize
      chunkSize := cfg.chunkSize }
  if cfg.rsaPublicKeyPath = [] then .ok (manifest, none)
  else do
    let ek ← Crypto.encryptFileKeyRsa ssl fileKey.params cfg.rsaPublicKeyPath
    .ok ({ manifest with
      encrypted := true, encAlgo := str "AES-256-GCM", keyEncAlgo := ek.alg
      encryptedKeyHex := Crypto.toHex ek.blob }, some fileKey.params)

def writeLocalManifest (cfg : ClientConfig) (manifest : Manifest) : ClientProg Bytes := do
  let dir := if cfg.localManifestDir = [] then str "manifests" else cfg.localManifestDir
  let manifestDir : Bytes ← Prog.ask (Call.absolute dir)
  let mkEc : Option Bytes ← Prog.ask (Call.createDirectories manifestDir)
  match mkEc with
  | some message =>
      throw (.runtimeError (str "Cannot create manifest directory: " ++ manifestDir ++ str " (" ++
        message ++ str ")"))
  | none => do
      let path := joinPath manifestDir (manifest.originalName ++ str ".manifest.txt")
      let opened : Bool ← Prog.ask (Call.writeFile path (serializeManifest manifest))
      if opened then pure path
      else throw (.runtimeError (str "Failed to open manifest for write: " ++ path))

def clampReplicas (cfg : ClientConfig) : Int :=
  let replicas := if cfg.desiredReplicas ≤ 0 then 1 else cfg.desiredReplicas
  let size := castInt cfg.peers.length
  if size < replicas then size else replicas

/-- What `file_size` throws. -/
def noSuchFile (filePath : Bytes) : Exc :=
  .filesystemError (str "filesystem error: cannot get file size: No such file or directory [" ++
    filePath ++ str "]")

/-- An upload by its loop over the chunks, which may report progress; `quiet` are the calls that do
not. `file` is the file's content, if there is such a file, and `fileKey` what the random generator
gives should the upload be encrypted. -/
def putFileBy {C : Type} {Reply : C → Type} (quiet : ∀ {α : Type}, ClientProg α → Prog Reply Exc α)
    (uploading : DhtNode → Int → Encryption → List Bytes → Prog Reply Exc Unit)
    (cfg : ClientConfig) (filePath : Bytes) (file : Option Bytes) (fileKey : Crypto.FileKey) :
    Prog Reply Exc PutFileResult :=
  if cfg.peers = [] then throw noPeers
  else do
    let dht ← Prog.ofExcept (DhtNode.ofPeers ssl cfg.peers)
    let replicas := clampReplicas cfg
    let content ← match file with
      | some content => pure content
      | none => throw (noSuchFile filePath)
    let (manifest, enc) ← Prog.ofExcept (describe ssl cfg filePath content.length fileKey)
    let chunks ← Prog.ofExcept (chunkFile filePath file cfg.chunkSize)
    uploading dht replicas enc chunks
    let manifest := { manifest with
      chunks := chunks.map fun bytes => ⟨Crypto.sha256Hex ssl bytes⟩ }
    let manifestText := serializeManifest manifest
    let manifestHash := Crypto.sha256Hex ssl manifestText
    let mTargets ← Prog.ofExcept (dht.store ssl (str "manifest:" ++ manifestHash) replicas)
    quiet (putAll (fun p => PeerClient.putManifest p manifestHash manifestText) mTargets)
    let path ← quiet (writeLocalManifest cfg manifest)
    pure { shareUri := shareScheme ++ manifestHash, localManifestPath := path }

def putFile : ClientConfig → Bytes → Option Bytes → Crypto.FileKey → ClientProg PutFileResult :=
  putFileBy ssl id fun dht replicas enc chunks => uploadChunks ssl dht replicas enc 0 chunks

/-! ### Downloading -/

/-- The configured peers that the placement did not name are tried after it. -/
def withFallback (candidates peers : List PeerEndpoint) : List PeerEndpoint :=
  peers.foldl (fun candidates p =>
    if candidates.any (fun c => c.ip = p.ip && c.port = p.port) then candidates
    else candidates ++ [p]) candidates

/-- The loop over the candidates: an attempt that rejects, or whose exception is caught, goes on to
the next one. -/
def firstOf {α : Type} (attempt : PeerEndpoint → ClientProg (Option α)) :
    List PeerEndpoint → ClientProg (Option α)
  | [] => pure none
  | peer :: candidates => do
      let found ← Prog.catching Exc.caught (attempt peer) fun _ => pure none
      match found with
      | some a => pure (some a)
      | none => firstOf attempt candidates

def attemptManifest (manifestId : Bytes) (peer : PeerEndpoint) : ClientProg (Option Manifest) := do
  let text ← PeerClient.getManifest peer manifestId
  if Crypto.sha256Hex ssl text ≠ manifestId then pure none
  else do
    let manifest ← Prog.ofExcept (parseManifestText text)
    pure (some manifest)

def askedReplicas (cfg : ClientConfig) : Int :=
  if cfg.desiredReplicas ≤ 0 then 1 else cfg.desiredReplicas

def fetchManifest (cfg : ClientConfig) (dht : DhtNode) (manifestId : Bytes) :
    ClientProg Manifest := do
  let candidates ← Prog.ofExcept
    (dht.findValue ssl (str "manifest:" ++ manifestId) (askedReplicas cfg))
  let found ← firstOf (attemptManifest ssl manifestId) (withFallback candidates cfg.peers)
  match found with
  | some manifest => pure manifest
  | none => throw (.runtimeError (str "Failed to retrieve manifest " ++ manifestId))

def readManifest (path : Bytes) : ClientProg Manifest := do
  let text : Option Bytes ← Prog.ask (Call.readFile path)
  match text with
  | none => throw (.runtimeError (str "Failed to open manifest for read: " ++ path))
  | some text =>
      match parseManifestText text with
      | .ok manifest => pure manifest
      | .error e => throw (.runtimeError (e.what ++ str ": " ++ path))

/-- The file key of an encrypted manifest. -/
def unwrapKey (cfg : ClientConfig) (manifest : Manifest) : Except Exc Encryption :=
  if manifest.encrypted ∧ manifest.encryptedKeyHex ≠ [] then
    if cfg.rsaPrivateKeyPath = [] then
      .error (.runtimeError (str "Manifest is encrypted but no RSA private key configured"))
    else do
      let blob ← Crypto.fromHex manifest.encryptedKeyHex
      let params ← Crypto.decryptFileKeyRsa ssl { alg := manifest.keyEncAlgo, blob := blob }
        cfg.rsaPrivateKeyPath
      .ok (some params)
  else .ok none

def openChunk (enc : Encryption) (chunkIndex : UInt64) (encData : Bytes) : Except Exc Bytes :=
  match enc with
  | none => .ok encData
  | some params => Crypto.aesGcmDecrypt ssl encData params.key params.iv chunkIndex

def attemptChunk (enc : Encryption) (chunkIndex : UInt64) (chunkId : Bytes)
    (peer : PeerEndpoint) : ClientProg (Option Unit) := do
  let encData ← PeerClient.getChunk peer chunkId
  let plain ← Prog.ofExcept (openChunk ssl enc chunkIndex encData)
  if Crypto.sha256Hex ssl plain ≠ chunkId then pure none
  else do
    Prog.ask (Call.write plain)
    pure (some ())

def downloadChunk (cfg : ClientConfig) (dht : DhtNode) (enc : Encryption) (chunkIndex : UInt64)
    (chunkId : Bytes) : ClientProg Unit := do
  let candidates ← Prog.ofExcept (dht.findValue ssl chunkId (askedReplicas cfg))
  let found ← firstOf (attemptChunk ssl enc chunkIndex chunkId)
    (withFallback candidates cfg.peers)
  match found with
  | some () => pure ()
  | none => throw (.runtimeError (str "Failed to retrieve chunk " ++ chunkId))

def downloadChunks (cfg : ClientConfig) (dht : DhtNode) (enc : Encryption) :
    UInt64 → List ManifestEntry → ClientProg Unit
  | _, [] => pure ()
  | chunkIndex, entry :: entries => do
      downloadChunk ssl cfg dht enc chunkIndex entry.chunkId
      downloadChunks cfg dht enc (chunkIndex + 1) entries

/-- `std::filesystem::exists` throws what it cannot find out. -/
def looksLocal (manifestPath : Bytes) : ClientProg Bool := do
  let answer : Except Exc Bool ← Prog.ask (Call.fileExists manifestPath)
  Prog.ofExcept answer

/-- A download by its loop over the chunks, as `putFileBy`. -/
def getFileBy {C : Type} {Reply : C → Type} (quiet : ∀ {α : Type}, ClientProg α → Prog Reply Exc α)
    (downloading : DhtNode → Encryption → List ManifestEntry → Prog Reply Exc Unit)
    (cfg : ClientConfig) (manifestPath outPath : Bytes) : Prog Reply Exc Unit :=
  if cfg.peers = [] then throw noPeers
  else do
    let dht ← Prog.ofExcept (DhtNode.ofPeers ssl cfg.peers)
    let isLocal ← quiet (looksLocal manifestPath)
    let manifest ← quiet (if isLocal then readManifest manifestPath
      else fetchManifest ssl cfg dht (normalizeManifestId manifestPath))
    let enc ← Prog.ofExcept (unwrapKey ssl cfg manifest)
    let opened : Bool ← quiet (Prog.ask (Call.openOut outPath))
    if opened then downloading dht enc manifest.chunks
    else throw (.runtimeError (str "Cannot open output file: " ++ outPath))

def getFile (cfg : ClientConfig) : Bytes → Bytes → ClientProg Unit :=
  getFileBy ssl id (fun dht enc entries => downloadChunks ssl cfg dht enc 0 entries) cfg

end DssClient

end DecentStore
