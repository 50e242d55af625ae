import DecentStore.FrontEnds
import DecentStore.Lib.Console
import DecentStore.Proof.ProgressReports

/-!
# What front ends tell

A front end tells of each chunk and then, once, what came of the program: the command line with its
last lines, the worker with its last signal. What it tells is so. It says nothing more if the
process is killed, or waits for ever for an answer.
-/

namespace DecentStore

open Bytes Interaction DssClient

section Front

variable {ssl : OpenSsl} {R β : Type} {onProgress : Progress → R}
  {events : List (Event (Reported Call.Reply R))}

/-- What is told of the first chunks, which are on all their targets. -/
def ToldLines (upload : Upload ssl) (onProgress : Progress → R)
    (events : List (Event (Reported Call.Reply R))) (lines : List R) : Prop :=
  lines = [] ∨ ∃ plan k, upload.plan = .ok plan ∧ k ≤ plan.chunks.length ∧
    lines = progressTo onProgress plan.chunks.length (str "Uploading chunks") k ∧
      ∀ n < k, ∀ c, plan.chunks[n]? = some c → ∀ p ∈ upload.targets (Crypto.sha256Hex ssl c),
        Placed ssl (calls events) plan.enc n c p

theorem toldLines_of_reporting {upload : Upload ssl} {rest : ReportingProg R PutFileResult}
    {past : List (Event (Reported Call.Reply R))}
    (hreporting : Reporting upload onProgress past rest) (hcalls : calls events = calls past) :
    ToldLines upload onProgress events (reports past) := by
  rcases hreporting.truthful with hnone | ⟨plan, hplan, k, htold⟩
  · exact Or.inl hnone
  · refine Or.inr ⟨plan, k, hplan, htold.count, htold.said, ?_⟩
    rw [hcalls]
    exact htold.placed

/-- What a front end has told of an upload when it is done. -/
theorem upload_told {upload : Upload ssl} {said : Except Exc PutFileResult → List R}
    {f : Except Exc PutFileResult → β} {b : β}
    (hreaches : (Prog.front Exc.caught (upload.putFileOn onProgress) said f).Reaches events
      (.pure b)) :
    (∃ plan result, upload.plan = .ok plan ∧
      upload.putFile.Reaches (calls events) (.pure result) ∧ f (.ok result) = b ∧
      reports events = progressTo onProgress plan.chunks.length (str "Uploading chunks")
        plan.chunks.length ++ said (.ok result)) ∨
    ∃ lines e, ToldLines upload onProgress events lines ∧
      upload.putFile.Reaches (calls events) (.throw e) ∧ f (.error e) = b ∧
      reports events = lines ++ said (.error e) := by
  obtain ⟨r, past, hinner, hcalls, hsaid, hb⟩ := hreaches.of_front_returned
  have hreporting := reporting_of_reaches hinner
  cases r with
  | ok result =>
      obtain ⟨plan, hplan, htold⟩ := hreporting.returned result rfl
      refine Or.inl ⟨plan, result, hplan, hcalls ▸ hreporting.muted, hb, ?_⟩
      rw [hsaid, htold.told.said]
  | error e =>
      exact Or.inr ⟨reports past, e, toldLines_of_reporting hreporting hcalls,
        hcalls ▸ hreporting.muted, hb, hsaid⟩

/-- What is told of the first chunks of a download, all of which are written. -/
def ToldReads (ssl : OpenSsl) (cfg : ClientConfig) (manifestRef : Bytes) (onProgress : Progress → R)
    (events : List (Event (Reported Call.Reply R))) (lines : List R) : Prop :=
  lines = [] ∨ ∃ manifest enc k, Underway ssl cfg manifestRef (calls events) manifest enc ∧
    k ≤ (writes (calls events)).length ∧
    lines = progressTo onProgress manifest.chunks.length (str "Downloading chunks") k

/-- What a front end has told of a download when it is done. -/
theorem download_told {cfg : ClientConfig} (hpeers : cfg.peers ≠ []) {manifestRef outPath : Bytes}
    {said : Except Exc Unit → List R} {f : Except Exc Unit → β} {b : β}
    (hreaches : (Prog.front Exc.caught (getFileOn ssl onProgress cfg manifestRef outPath) said
      f).Reaches events (.pure b)) :
    (∃ manifest enc, Underway ssl cfg manifestRef (calls events) manifest enc ∧
      (writes (calls events)).length = manifest.chunks.length ∧
      (getFile ssl cfg manifestRef outPath).Reaches (calls events) (.pure ()) ∧
      f (.ok ()) = b ∧
      reports events = progressTo onProgress manifest.chunks.length (str "Downloading chunks")
        manifest.chunks.length ++ said (.ok ())) ∨
    ∃ lines e, ToldReads ssl cfg manifestRef onProgress events lines ∧
      (getFile ssl cfg manifestRef outPath).Reaches (calls events) (.throw e) ∧
      f (.error e) = b ∧ reports events = lines ++ said (.error e) := by
  obtain ⟨r, past, hinner, hcalls, hsaid, hb⟩ := hreaches.of_front_returned
  have hmuted := hinner.muted
  rw [muted_getFileOn, Prog.muted_ofExcept, ← hcalls] at hmuted
  have hfollows := (getFileOn_follows hpeers outPath).reaches hinner
  rw [List.nil_append] at hfollows
  cases r with
  | ok _ =>
      obtain ⟨manifest, enc, htold, hlength⟩ := hfollows.2 rfl
      rw [← hcalls] at hlength
      refine Or.inl ⟨manifest, enc, hcalls ▸ htold.underway, hlength, hmuted, hb, ?_⟩
      rw [hsaid, htold.said]
  | error e =>
      refine Or.inr ⟨reports past, e, ?_, hmuted, hb, hsaid⟩
      rcases hfollows.1 with ⟨hnone, -⟩ | ⟨manifest, enc, k, htold⟩
      · exact Or.inl hnone
      · exact Or.inr ⟨manifest, enc, k, hcalls ▸ htold.underway, hcalls ▸ htold.written, htold.said⟩

end Front

namespace DssWorker

variable {ssl : OpenSsl} {qt : QtStrings}

def putSaid : Except Exc PutFileResult → List (Signal qt)
  | .ok result =>
      [.putFinished (qt.fromStdString result.shareUri) (qt.fromStdString result.localManifestPath)]
  | .error e => [.error (qt.fromUtf8 e.what)]

def getSaid (outputPath : qt.QString) : Except Exc Unit → List (Signal qt)
  | .ok _ => [.getFinished outputPath]
  | .error e => [.error (qt.fromUtf8 e.what)]

/-- A call of the slot `putFile` with a valid peer, for a file that is there. -/
structure PutSlot (ssl : OpenSsl) (qt : QtStrings) where
  files : Bytes → Option Bytes
  peers : PeerList
  filePath : qt.QString
  localManifestDir : qt.QString
  chunkSize : UInt64
  replicas : Int
  rsaPublicKeyPem : qt.QString
  upload : Upload ssl
  config : putConfig peers localManifestDir chunkSize replicas rsaPublicKeyPem = .ok upload.cfg
  path : qt.toStdString filePath = upload.filePath
  file : files upload.filePath = some upload.content

def PutSlot.process (slot : PutSlot ssl qt) : ReportingProg (Signal qt) Unit :=
  putFile ssl slot.files slot.upload.fileKey slot.peers slot.filePath slot.localManifestDir
    slot.chunkSize slot.replicas slot.rsaPublicKeyPem

theorem PutSlot.process_eq (slot : PutSlot ssl qt) : slot.process =
    Prog.front Exc.caught (slot.upload.putFileOn runProgress) putSaid fun _ => () := by
  unfold process putFile
  simp only [slot.config, Prog.ofExcept_ok_bind, slot.path, slot.file]
  rfl

/-- A call of the slot `getFile` with a valid peer. -/
structure GetSlot (qt : QtStrings) where
  peers : PeerList
  manifestPath : qt.QString
  outputPath : qt.QString
  rsaPrivateKeyPem : qt.QString
  cfg : ClientConfig
  config : getConfig peers rsaPrivateKeyPem = .ok cfg

def GetSlot.process (ssl : OpenSsl) (slot : GetSlot qt) : ReportingProg (Signal qt) Unit :=
  getFile ssl slot.peers slot.manifestPath slot.outputPath slot.rsaPrivateKeyPem

theorem GetSlot.process_eq (ssl : OpenSsl) (slot : GetSlot qt) : slot.process ssl =
    Prog.front Exc.caught (getFileOn ssl runProgress slot.cfg (qt.toStdString slot.manifestPath)
      (qt.toStdString slot.outputPath)) (getSaid slot.outputPath) fun _ => () := by
  unfold process getFile
  simp only [slot.config, Prog.ofExcept_ok_bind]
  rfl

theorem parsePeers_ne {list : PeerList} {peers : PeerVector} (hok : parsePeers list = .ok peers) :
    peers.1 ≠ [] := by
  simp only [parsePeers] at hok
  split at hok
  · cases hok
  · rename_i hne
    cases hok
    exact hne

theorem config_peers_ne {list : PeerList} {make : PeerVector → ClientConfig} {cfg : ClientConfig}
    (hmake : ∀ peers, (make peers).peers = peers.1) (hconfig : (do
      let peers ← parsePeers list
      Except.ok (make peers)) = .ok cfg) : cfg.peers ≠ [] := by
  cases hpeers : parsePeers list with
  | error e =>
      rw [hpeers] at hconfig
      cases hconfig
  | ok peers =>
      rw [hpeers] at hconfig
      cases hconfig
      rw [hmake]
      exact parsePeers_ne hpeers

theorem GetSlot.peers_ne (slot : GetSlot qt) : slot.cfg.peers ≠ [] :=
  config_peers_ne (fun _ => rfl) slot.config

theorem parsePeers_error {list : PeerList} {e : Exc} (herror : parsePeers list = .error e) :
    e = noValidPeers := by
  simp only [parsePeers] at herror
  split at herror
  · exact (Except.error.inj herror).symm
  · cases herror

/-- Without a valid peer there is no configuration. -/
theorem config_error {list : PeerList} {make : PeerVector → ClientConfig} {e : Exc}
    (herror : (do
      let peers ← parsePeers list
      Except.ok (make peers)) = .error e) : e = noValidPeers := by
  cases hpeers : parsePeers list with
  | error e' =>
      rw [hpeers] at herror
      cases herror
      exact parsePeers_error hpeers
  | ok peers =>
      rw [hpeers] at herror
      cases herror

section Refused

variable {files : Bytes → Option Bytes} {fileKey : Crypto.FileKey} {peers : PeerList}
  {filePath localManifestDir manifestPath outputPath pem : qt.QString} {chunkSize : UInt64}
  {replicas : Int}

theorem putFile_no_peers {e : Exc}
    (herror : putConfig peers localManifestDir chunkSize replicas pem = .error e) :
    putFile ssl files fileKey peers filePath localManifestDir chunkSize replicas pem =
      Prog.report (.error (qt.fromUtf8 noValidPeers.what)) := by
  obtain rfl := config_error herror
  unfold putFile
  rw [herror]
  rfl

theorem getFile_no_peers {e : Exc} (herror : getConfig peers pem = .error e) :
    getFile ssl peers manifestPath outputPath pem =
      Prog.report (.error (qt.fromUtf8 noValidPeers.what)) := by
  obtain rfl := config_error herror
  unfold getFile
  rw [herror]
  rfl

theorem putFile_no_file {cfg : ClientConfig}
    (hconfig : putConfig peers localManifestDir chunkSize replicas pem = .ok cfg)
    (hpeers : cfg.peers ≠ []) (hfile : files (qt.toStdString filePath) = none) :
    putFile ssl files fileKey peers filePath localManifestDir chunkSize replicas pem =
      Prog.report (.error (qt.fromUtf8 (noSuchFile (qt.toStdString filePath)).what)) := by
  unfold putFile putFileOn putFileBy
  rw [hconfig, hfile, Prog.ofExcept_ok_bind, if_neg hpeers, DhtNode.ofPeers_eq]
  rfl

end Refused

def plainQt : QtStrings where
  QString := Bytes
  toStdString := id
  fromStdString := id
  fromUtf8 := id
  trimmed := trimWs
  isEmpty := List.isEmpty

/-- The second of the three entries is left out. -/
def noteSlot : PutSlot noteSsl plainQt where
  files := fun path => if path = str "/home/note" then some (str "hi!") else none
  peers := ⟨str "10.0.0.1:9000,?,10.0.0.2:9000", by decide⟩
  filePath := str "/home/note"
  localManifestDir := []
  chunkSize := 2
  replicas := 1
  rsaPublicKeyPem := str " "
  upload := noteUpload
  config := rfl
  path := rfl
  file := by decide

def noteSignals : List (Event (Reported Call.Reply (Signal plainQt))) :=
  noteSlot.process.transcript (Prog.heard (worldHandle (Cluster.network {}))) (Cluster.empty, {})

theorem noteSlot_done : (noteSlot.process.run (Prog.heard (worldHandle (Cluster.network {})))
    (Cluster.empty, {})).1 = .ok () := by
  have hmuted : noteSlot.process.muted =
      noteUpload.putFile.ending (Prog.outcome Exc.caught fun _ => ()) := by
    rw [PutSlot.process_eq, Prog.muted_front, Upload.putFileOn, muted_putFileOn]
    rfl
  rw [Prog.run_heard, hmuted, Prog.run_ending, noteUpload_returns]
  rfl

end DssWorker

end DecentStore
