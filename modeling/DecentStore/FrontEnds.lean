import DecentStore.PeerEntry
import DecentStore.Progress

/-!
# The command line and the worker

`client/main` and `client/dss_worker`. Both read a list of peers, put or get one file, tell how far
that is, and at last tell what came of it. The command line gives up a list with a bad entry; the
worker, which the main window runs in a thread of its own, leaves the entry out.
-/

namespace DecentStore

open Bytes Interaction DssClient

/-! ### A list of peers -/

/-- A list as it is typed. No argument and no line edit holds more. -/
structure PeerList where
  text : Bytes
  text_fits : text.length < 2 ^ 30

namespace PeerList

/-- What `getline` gives up to each comma, without the empty items. -/
def items (list : PeerList) : List Bytes := (list.text.splitOn 44).filter (· ≠ [])

theorem length_splitOn_le (s : Bytes) (sep : UInt8) : (s.splitOn sep).length ≤ s.length + 1 := by
  rw [List.splitOn_eq_splitOnP]
  induction s with
  | nil => exact le_refl _
  | cons b s ih =>
      rw [List.splitOnP_cons_eq_if_modifyHead]
      split
      · simpa using ih
      · simpa using ih.trans (Nat.le_succ _)

theorem length_items (list : PeerList) : list.items.length < 2 ^ 31 := by
  have hfits := list.text_fits
  have hpieces := length_splitOn_le list.text 44
  have hitems : list.items.length ≤ (list.text.splitOn 44).length := List.length_filter_le _ _
  omega

end PeerList

/-- A list that fits `ClientConfig`. -/
abbrev PeerVector := { peers : List PeerEndpoint // peers.length < 2 ^ 31 }

def noValidPeers : Exc := .runtimeError (str "No valid peers provided")

/-! ### The command line -/

/-- What goes to `std::cout` and to `std::cerr`. -/
inductive Output where
  | out (text : Bytes)
  | err (text : Bytes)
deriving DecidableEq

namespace CommandLine

variable (ssl : OpenSsl)

/-- What the process finds: the variable `DECENT_STORE_MANIFEST_DIR`, the files, and what the random
generator gives. -/
structure Environment where
  manifestDir : Option Bytes
  files : Bytes → Option Bytes
  fileKey : Crypto.FileKey

/-- `std::stoul`, for 64 bits. A minus negates modulo 2^64. -/
def stoul (s : Bytes) : Except Exc UInt64 :=
  match strtol 10 s with
  | none => .error (.invalidArgument (str "stoul"))
  | some v =>
      if 2 ^ 64 ≤ v.natAbs then .error (.outOfRange (str "stoul"))
      else .ok (UInt64.ofNat (v % 2 ^ 64).toNat)

def parseItems : (items : List Bytes) →
    Except Exc { peers : List PeerEndpoint // peers.length ≤ items.length }
  | [] => .ok ⟨[], le_refl _⟩
  | item :: items => do
      let peer ← parsePeerEntry item
      let peers ← parseItems items
      .ok ⟨peer :: peers.1, Nat.succ_le_succ peers.2⟩

def parsePeers (list : PeerList) : Except Exc PeerVector := do
  let peers ← parseItems list.items
  if peers.1 = [] then .error noValidPeers
  else .ok ⟨peers.1, peers.2.trans_lt list.length_items⟩

/-- `args` are the chunk size, the replicas and the public key, as far as they are given. -/
def putConfig (env : Environment) (list : PeerList) (args : List Bytes) :
    Except Exc ClientConfig := do
  let peers ← parsePeers list
  let chunkSize ← match args[0]? with
    | some arg => stoul arg
    | none => .ok (1024 * 1024)
  let desiredReplicas ← match args[1]? with
    | some arg => Crypto.stoi 10 arg
    | none => .ok 2
  .ok { peers := peers.1, chunkSize := chunkSize, desiredReplicas := desiredReplicas
        rsaPublicKeyPath := args.getD 2 [], localManifestDir := env.manifestDir.getD []
        peers_fit := peers.2 }

def getConfig (list : PeerList) (args : List Bytes) : Except Exc ClientConfig := do
  let peers ← parsePeers list
  .ok { peers := peers.1, chunkSize := 1024 * 1024, desiredReplicas := 2
        rsaPrivateKeyPath := args.getD 0 [], peers_fit := peers.2 }

def progressText (mode : Bytes) (p : Progress) : Output :=
  .out (str "[" ++ mode ++ str "] " ++ decimalInt p.done ++ str "/" ++ decimalInt p.total ++
    str " " ++ p.message ++ str "\n")

def shareText (result : PutFileResult) : Output :=
  .out (str "DONE. Share ID: " ++ result.shareUri ++ str "\n")

def manifestText (result : PutFileResult) : Output :=
  .out (str "Local manifest: " ++ result.localManifestPath ++ str "\n")

def completeText (outPath : Bytes) : Output :=
  .out (str "Download complete: " ++ outPath ++ str "\n")

def errorText (e : Exc) : Output := .err (str "Error: " ++ e.what ++ str "\n")

def usage (prog : Bytes) : ReportingProg Output Unit :=
  Prog.report (.err (str "Usage:\n  " ++ prog ++
    str " put <peers> <file_path> [chunk_size_bytes] [replicas] [rsa_public_key_pem]\n  " ++ prog ++
    str " get <peers> <share_id_or_manifest_path> <output_file> [rsa_private_key_pem]\n  " ++
    prog ++ str " repair (not supported without tracker)\n\nEnvironment:\n" ++
    str "  DECENT_STORE_MANIFEST_DIR  Directory for local *.manifest.txt after put " ++
    str "(default: ./manifests).\n"))

def put (env : Environment) (list : PeerList) (filePath : Bytes) (args : List Bytes) :
    ReportingProg Output Int := do
  let cfg ← Prog.ofExcept (putConfig env list args)
  let result ← putFileOn ssl (progressText (str "PUT")) cfg filePath (env.files filePath)
    env.fileKey
  Prog.report (shareText result)
  Prog.report (manifestText result)
  pure 0

def get (list : PeerList) (manifestPath outPath : Bytes) (args : List Bytes) :
    ReportingProg Output Int := do
  let cfg ← Prog.ofExcept (getConfig list args)
  getFileOn ssl (progressText (str "GET")) cfg manifestPath outPath
  Prog.report (completeText outPath)
  pure 0

/-- The arguments after the mode; the first may be a list of peers. -/
def run (env : Environment) (prog mode : Bytes) (args : List PeerList) :
    ReportingProg Output Int :=
  let unknown : ReportingProg Output Int := do
    usage prog
    pure 1
  if mode = str "put" then
    match args with
    | list :: filePath :: args => put ssl env list filePath.text (args.map PeerList.text)
    | _ => unknown
  else if mode = str "get" then
    match args with
    | list :: manifestPath :: outPath :: args =>
        get ssl list manifestPath.text outPath.text (args.map PeerList.text)
    | _ => unknown
  else if mode = str "repair" then do
    Prog.report (.err (str "Repair is not supported in DHT mode (no tracker).\n"))
    pure 0
  else unknown

/-- The exit code. -/
def main (env : Environment) (prog : Bytes) : List PeerList → ReportingProg Output Int
  | [] => do
      usage prog
      pure 1
  | mode :: args => Prog.catching Exc.caught (run ssl env prog mode.text args) fun e => do
      Prog.report (errorText e)
      pure 1

end CommandLine

/-! ### The worker -/

/-- What the worker needs of Qt's strings. -/
structure QtStrings where
  QString : Type
  toStdString : QString → Bytes
  fromStdString : Bytes → QString
  fromUtf8 : Bytes → QString
  trimmed : QString → QString
  isEmpty : QString → Bool

namespace DssWorker

variable (ssl : OpenSsl) (qt : QtStrings)

inductive Signal where
  | progress (done total : Int) (message : qt.QString)
  | putFinished (shareId localManifestPath : qt.QString)
  | getFinished (outputPath : qt.QString)
  | error (message : qt.QString)

variable {qt}

def runProgress (p : Progress) : Signal qt := .progress p.done p.total (qt.fromStdString p.message)

/-- Entries that are not valid are left out. -/
def parsePeers (list : PeerList) : Except Exc PeerVector :=
  let peers := list.items.filterMap fun item => (parsePeerEntry item).toOption
  if peers = [] then .error noValidPeers
  else .ok ⟨peers, (List.length_filterMap_le _ _).trans_lt list.length_items⟩

/-- The path of a key, if one is given. -/
def keyPath (pem : qt.QString) : Bytes :=
  if qt.isEmpty (qt.trimmed pem) then [] else qt.toStdString (qt.trimmed pem)

def putConfig (list : PeerList) (localManifestDir : qt.QString) (chunkSize : UInt64)
    (replicas : Int) (rsaPublicKeyPem : qt.QString) : Except Exc ClientConfig := do
  let peers ← parsePeers list
  .ok { peers := peers.1, chunkSize := if 0 < chunkSize then chunkSize else 1024 * 1024
        desiredReplicas := if 0 < replicas then replicas else 2
        rsaPublicKeyPath := keyPath rsaPublicKeyPem
        localManifestDir := qt.toStdString localManifestDir, peers_fit := peers.2 }

def getConfig (list : PeerList) (rsaPrivateKeyPem : qt.QString) : Except Exc ClientConfig := do
  let peers ← parsePeers list
  .ok { peers := peers.1, chunkSize := 1024 * 1024, desiredReplicas := 2
        rsaPrivateKeyPath := keyPath rsaPrivateKeyPem, peers_fit := peers.2 }

/-- `peers` is what `toStdString` makes of the list. -/
def putFile (file : Bytes → Option Bytes) (fileKey : Crypto.FileKey) (peers : PeerList)
    (filePath localManifestDir : qt.QString) (chunkSize : UInt64) (replicas : Int)
    (rsaPublicKeyPem : qt.QString) : ReportingProg (Signal qt) Unit :=
  Prog.catching Exc.caught (do
    let cfg ← Prog.ofExcept (putConfig peers localManifestDir chunkSize replicas rsaPublicKeyPem)
    let result ← putFileOn ssl runProgress cfg (qt.toStdString filePath)
      (file (qt.toStdString filePath)) fileKey
    Prog.report (.putFinished (qt.fromStdString result.shareUri)
      (qt.fromStdString result.localManifestPath)))
    fun e => Prog.report (.error (qt.fromUtf8 e.what))

def getFile (peers : PeerList) (manifestPath outputPath rsaPrivateKeyPem : qt.QString) :
    ReportingProg (Signal qt) Unit :=
  Prog.catching Exc.caught (do
    let cfg ← Prog.ofExcept (getConfig peers rsaPrivateKeyPem)
    getFileOn ssl runProgress cfg (qt.toStdString manifestPath) (qt.toStdString outputPath)
    Prog.report (.getFinished outputPath))
    fun e => Prog.report (.error (qt.fromUtf8 e.what))

end DssWorker

end DecentStore
