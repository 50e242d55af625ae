import DecentStore.DssClient
import DecentStore.Proof.Chunking
import DecentStore.Proof.ManifestCodec
import DecentStore.Proof.Placement

/-!
# What an upload is going to store

Before its first request `putFile` has read the file, and everything it will store follows from
that: the chunks, the manifest and with its text the share id. This is the upload's plan. The
manifest of a plan is read back from its text.
-/

namespace DecentStore

open Bytes Interaction

/-- The manifest with its chunks, the file key if there is one, and the chunks themselves. -/
structure Plan where
  manifest : Manifest
  enc : DssClient.Encryption
  chunks : List Bytes
deriving DecidableEq

namespace Plan

variable (ssl : OpenSsl)

def of (cfg : ClientConfig) (filePath content : Bytes) (fileKey : Crypto.FileKey) :
    Except Exc Plan := do
  let (manifest, enc) ← DssClient.describe ssl cfg filePath content.length fileKey
  let chunks ← chunkFile filePath (some content) cfg.chunkSize
  .ok { manifest := { manifest with chunks := chunks.map fun b => ⟨Crypto.sha256Hex ssl b⟩ }
        enc := enc, chunks := chunks }

def text (plan : Plan) : Bytes := serializeManifest plan.manifest

def hash (plan : Plan) : Bytes := Crypto.sha256Hex ssl plan.text

def shareUri (plan : Plan) : Bytes := DssClient.shareScheme ++ plan.hash ssl

theorem of_ok {ssl : OpenSsl} {cfg : ClientConfig} {filePath content : Bytes}
    {fileKey : Crypto.FileKey} {plan : Plan}
    (hplan : of ssl cfg filePath content fileKey = .ok plan) :
    ∃ manifest, DssClient.describe ssl cfg filePath content.length fileKey =
        .ok (manifest, plan.enc) ∧
      chunkFile filePath (some content) cfg.chunkSize = .ok plan.chunks ∧
      plan.manifest = { manifest with
        chunks := plan.chunks.map fun b => ⟨Crypto.sha256Hex ssl b⟩ } := by
  unfold of at hplan
  cases hdescribe : DssClient.describe ssl cfg filePath content.length fileKey with
  | error e => simp [hdescribe, Bind.bind, Except.bind] at hplan
  | ok described =>
      obtain ⟨manifest, enc⟩ := described
      cases hchunks : chunkFile filePath (some content) cfg.chunkSize with
      | error e => simp [hdescribe, hchunks, Bind.bind, Except.bind] at hplan
      | ok chunks =>
          simp only [hdescribe, hchunks, Bind.bind, Except.bind] at hplan
          cases hplan
          exact ⟨manifest, rfl, rfl, rfl⟩

end Plan

/-- A call of `putFile` on a file that is there. The manifest's text is a `std::string`. -/
structure Upload (ssl : OpenSsl) where
  cfg : ClientConfig
  filePath : Bytes
  content : Bytes
  fileKey : Crypto.FileKey
  text_fits : ∀ plan, Plan.of ssl cfg filePath content fileKey = .ok plan →
    plan.text.length < maxSize

namespace Upload

variable {ssl : OpenSsl} (upload : Upload ssl)

def plan : Except Exc Plan :=
  Plan.of ssl upload.cfg upload.filePath upload.content upload.fileKey

def putFile : ClientProg PutFileResult :=
  DssClient.putFile ssl upload.cfg upload.filePath (some upload.content) upload.fileKey

/-- The name of the file is a token, and so is read back from a manifest. -/
def Named : Prop := Token (DssClient.filename upload.filePath)

instance : Decidable upload.Named := inferInstanceAs (Decidable (Token _))

variable {upload} {plan : Plan}

theorem describe_ok {cfg : ClientConfig} {filePath : Bytes} {fileSize : Nat}
    {fileKey : Crypto.FileKey} {manifest : Manifest} {enc : DssClient.Encryption}
    (hdescribe : DssClient.describe ssl cfg filePath fileSize fileKey = .ok (manifest, enc)) :
    manifest.originalName = DssClient.filename filePath ∧ manifest.EncryptionWhole ∧
      ((cfg.rsaPublicKeyPath = [] ∧ enc = none ∧ manifest.encrypted = false) ∨
        (cfg.rsaPublicKeyPath ≠ [] ∧ enc = some fileKey.params ∧ manifest.encrypted = true ∧
          ∃ blob, ssl.rsaEncrypt cfg.rsaPublicKeyPath (fileKey.params.key ++ fileKey.params.iv) =
            .ok blob ∧ manifest.encryptedKeyHex = Crypto.toHex blob)) := by
  unfold DssClient.describe at hdescribe
  by_cases hpath : cfg.rsaPublicKeyPath = []
  · simp only [hpath, ↓reduceIte] at hdescribe
    cases hdescribe
    exact ⟨rfl, Or.inl ⟨rfl, rfl, rfl, rfl⟩, Or.inl ⟨hpath, rfl, rfl⟩⟩
  · simp only [hpath, ↓reduceIte, Crypto.encryptFileKeyRsa] at hdescribe
    cases hblob : ssl.rsaEncrypt cfg.rsaPublicKeyPath
        (fileKey.params.key ++ fileKey.params.iv) with
    | error e => simp [hblob, Bind.bind, Except.bind] at hdescribe
    | ok blob =>
        simp only [hblob, Bind.bind, Except.bind] at hdescribe
        cases hdescribe
        have hhex : Crypto.toHex blob ≠ [] := Crypto.toHex_ne_nil (ssl.rsaEncrypt_ne_nil hblob)
        exact ⟨rfl, Or.inr ⟨rfl, rfl, rfl, hhex, fun b hb => Crypto.isHexDigit_toHex hb⟩,
          Or.inr ⟨hpath, rfl, rfl, blob, rfl, rfl⟩⟩

theorem plan_ok (hplan : upload.plan = .ok plan) :
    ∃ manifest, DssClient.describe ssl upload.cfg upload.filePath upload.content.length
        upload.fileKey = .ok (manifest, plan.enc) ∧
      chunkFile upload.filePath (some upload.content) upload.cfg.chunkSize = .ok plan.chunks ∧
      plan.manifest = { manifest with
        chunks := plan.chunks.map fun b => ⟨Crypto.sha256Hex ssl b⟩ } :=
  Plan.of_ok hplan

theorem plan_chunks (hplan : upload.plan = .ok plan) :
    plan.manifest.chunks = plan.chunks.map fun b => ⟨Crypto.sha256Hex ssl b⟩ := by
  obtain ⟨manifest, -, -, hmanifest⟩ := plan_ok hplan
  rw [hmanifest]

theorem plan_content (hplan : upload.plan = .ok plan) : plan.chunks.flatten = upload.content := by
  obtain ⟨manifest, -, hchunks, -⟩ := plan_ok hplan
  exact (chunkFile_ok hchunks).1

theorem plan_fits (hplan : upload.plan = .ok plan) : ∀ c ∈ plan.chunks, c.length ≤ maxSize := by
  obtain ⟨manifest, -, hchunks, -⟩ := plan_ok hplan
  exact fun c hc => ((chunkFile_ok hchunks).2.2 c hc).2.2

theorem plan_encryption (hplan : upload.plan = .ok plan) :
    (upload.cfg.rsaPublicKeyPath = [] ∧ plan.enc = none ∧ plan.manifest.encrypted = false) ∨
      (upload.cfg.rsaPublicKeyPath ≠ [] ∧ plan.enc = some upload.fileKey.params ∧
        plan.manifest.encrypted = true ∧
        ∃ blob, ssl.rsaEncrypt upload.cfg.rsaPublicKeyPath
            (upload.fileKey.params.key ++ upload.fileKey.params.iv) = .ok blob ∧
          plan.manifest.encryptedKeyHex = Crypto.toHex blob) := by
  obtain ⟨manifest, hdescribe, -, hmanifest⟩ := plan_ok hplan
  rw [hmanifest]
  exact (describe_ok hdescribe).2.2

theorem length_serializeEntries (chunks : List Bytes) :
    (serializeEntries (chunks.map fun b => ⟨Crypto.sha256Hex ssl b⟩)).length =
      65 * chunks.length := by
  induction chunks with
  | nil => rfl
  | cons b chunks ih =>
      have hid : (Crypto.sha256Hex ssl b).length = 64 := (Crypto.sha256Hex_isHashHex ssl b).1
      have hnewline : (str "\n").length = 1 := by decide
      unfold serializeEntries at ih ⊢
      rw [List.map_cons, List.flatMap_cons, List.length_append, List.length_append, hid, hnewline,
        ih, List.length_cons]
      omega

/-- A text that fits a string has few enough chunks for the reader's vector. -/
theorem plan_count (hplan : upload.plan = .ok plan) : plan.chunks.length ≤ maxEntries := by
  have hfits := upload.text_fits plan hplan
  have hentries := @length_serializeEntries ssl plan.chunks
  have hle : (serializeEntries plan.manifest.chunks).length ≤ plan.text.length := by
    rw [Plan.text, serializeManifest]
    simp only [List.length_append]
    omega
  rw [plan_chunks hplan, hentries] at hle
  unfold maxEntries
  omega

/-- **The manifest of a plan is read back from its text.** -/
theorem parse_text (hname : upload.Named) (hplan : upload.plan = .ok plan) :
    parseManifestText plan.text = .ok plan.manifest := by
  obtain ⟨manifest, hdescribe, -, hmanifest⟩ := plan_ok hplan
  obtain ⟨hsame, hwhole, -⟩ := describe_ok hdescribe
  have hplanName : plan.manifest.originalName = DssClient.filename upload.filePath := by
    rw [hmanifest, ← hsame]
  have hplanWhole : plan.manifest.EncryptionWhole := by
    rw [hmanifest]
    exact hwhole
  have hids : ∀ e ∈ plan.manifest.chunks, Token e.chunkId := by
    intro e he
    rw [plan_chunks hplan] at he
    obtain ⟨b, -, rfl⟩ := List.mem_map.mp he
    exact (Crypto.sha256Hex_isHashHex ssl b).token
  have hcount : plan.manifest.chunks.length ≤ maxEntries := by
    rw [plan_chunks hplan, List.length_map]
    exact plan_count hplan
  rw [Plan.text, parseManifestText_serializeManifest (hplanName ▸ hname) hids hcount]
  exact hplanWhole.readEncryption_eq

theorem hash_isHashHex (plan : Plan) : IsHashHex (plan.hash ssl) :=
  Crypto.sha256Hex_isHashHex ssl plan.text

theorem normalizeManifestId_shareUri (plan : Plan) :
    DssClient.normalizeManifestId (plan.shareUri ssl) = plan.hash ssl := by
  have hprefix : DssClient.shareScheme.isPrefixOf (plan.shareUri ssl) = true := by
    rw [List.isPrefixOf_iff_prefix]
    exact List.prefix_append _ _
  rw [DssClient.normalizeManifestId, if_pos hprefix, Plan.shareUri, List.drop_left']
  rfl

end Upload

/-- The private key of one path opens what the public key of the other path closes. -/
def OpenSsl.Matches (ssl : OpenSsl) (publicPath privatePath : Bytes) : Prop :=
  ∀ message blob, ssl.rsaEncrypt publicPath message = .ok blob →
    ssl.rsaDecrypt privatePath blob = .ok message

namespace Upload

variable {ssl : OpenSsl} {upload : Upload ssl} {plan : Plan}

/-- A reader of an encrypted upload has the matching private key. -/
def KeyFor (upload : Upload ssl) (cfg : ClientConfig) : Prop :=
  upload.cfg.rsaPublicKeyPath ≠ [] →
    cfg.rsaPrivateKeyPath ≠ [] ∧
      ssl.Matches upload.cfg.rsaPublicKeyPath cfg.rsaPrivateKeyPath

theorem unwrapKey_plan (hplan : upload.plan = .ok plan) {cfg : ClientConfig}
    (hkey : upload.KeyFor cfg) : DssClient.unwrapKey ssl cfg plan.manifest = .ok plan.enc := by
  rcases plan_encryption hplan with ⟨-, henc, hflag⟩ | ⟨hpath, henc, hflag, blob, hblob, hhex⟩
  · simp [DssClient.unwrapKey, hflag, henc]
  · obtain ⟨hprivate, hmatches⟩ := hkey hpath
    have hne : Crypto.toHex blob ≠ [] := Crypto.toHex_ne_nil (ssl.rsaEncrypt_ne_nil hblob)
    have hopened := hmatches _ _ hblob
    have hlength : ¬ (upload.fileKey.params.key ++ upload.fileKey.params.iv).length < 32 + 12 := by
      rw [List.length_append, upload.fileKey.key_length, upload.fileKey.iv_length]
      omega
    have htake : (upload.fileKey.params.key ++ upload.fileKey.params.iv).take 32 =
        upload.fileKey.params.key := List.take_left' upload.fileKey.key_length
    have hdrop : ((upload.fileKey.params.key ++ upload.fileKey.params.iv).drop 32).take 12 =
        upload.fileKey.params.iv := by
      rw [List.drop_left' upload.fileKey.key_length, List.take_of_length_le]
      rw [upload.fileKey.iv_length]
    simp only [DssClient.unwrapKey, hflag, hhex, ne_eq, hne, not_false_eq_true, and_self,
      ↓reduceIte, hprivate, Crypto.fromHex_toHex, Bind.bind, Except.bind,
      Crypto.decryptFileKeyRsa, hopened, hlength, htake, hdrop, henc]

theorem plan_plaintext (hplan : upload.plan = .ok plan)
    (hplain : upload.cfg.rsaPublicKeyPath = []) : plan.enc = none := by
  rcases plan_encryption hplan with ⟨-, henc, -⟩ | ⟨hpath, -⟩
  · exact henc
  · exact absurd hplain hpath

/-- Whatever key a reader has, it reads a plaintext manifest without one. -/
theorem unwrapKey_plain (hplan : upload.plan = .ok plan)
    (hplain : upload.cfg.rsaPublicKeyPath = []) (cfg : ClientConfig) :
    DssClient.unwrapKey ssl cfg plan.manifest = .ok plan.enc :=
  unwrapKey_plan hplan fun hpath => absurd hplain hpath

def targets (upload : Upload ssl) (key : Bytes) : List PeerEndpoint :=
  (DhtNode.ranked ssl upload.cfg.peers key).take
    (DhtNode.reach ssl upload.cfg.peers (DssClient.clampReplicas upload.cfg))

theorem store_targets (upload : Upload ssl) (key : Bytes) :
    DhtNode.store ssl ⟨DhtNode.tableOf ssl upload.cfg.peers⟩ key
      (DssClient.clampReplicas upload.cfg) = .ok (upload.targets key) :=
  DhtNode.store_eq ssl _ _ _

theorem targets_subset (upload : Upload ssl) (key : Bytes) :
    upload.targets key ⊆ upload.cfg.peers :=
  fun _ hp => DhtNode.ranked_subset ssl _ _ (List.mem_of_mem_take hp)

theorem exists_target (upload : Upload ssl) (husable : Usable ssl upload.cfg.peers) (key : Bytes) :
    ∃ p, p ∈ upload.targets key :=
  DhtNode.exists_target husable key _

theorem clampReplicas_pos {cfg : ClientConfig} (hpeers : cfg.peers ≠ []) :
    1 ≤ DssClient.clampReplicas cfg := by
  have hlength := List.length_pos_iff.mpr hpeers
  unfold DssClient.clampReplicas
  simp only [castInt_of_lt cfg.peers_fit]
  split <;> split <;> omega

theorem length_targets_le (hpeers : upload.cfg.peers ≠ []) (key : Bytes) :
    ((upload.targets key).length : Int) ≤ DssClient.clampReplicas upload.cfg := by
  have hpos := clampReplicas_pos hpeers
  unfold targets DhtNode.reach
  rw [List.length_take, if_neg (by omega)]
  omega

end Upload

namespace DssClient

/-- The rest of `putFile`, once the chunks are uploaded. -/
def publishManifest (ssl : OpenSsl) (cfg : ClientConfig) (dht : DhtNode) (plan : Plan) :
    ClientProg PutFileResult := do
  let mTargets ← Prog.ofExcept
    (dht.store ssl (str "manifest:" ++ plan.hash ssl) (clampReplicas cfg))
  putAll (fun p => PeerClient.putManifest p (plan.hash ssl) plan.text) mTargets
  let path ← writeLocalManifest cfg plan.manifest
  pure { shareUri := plan.shareUri ssl, localManifestPath := path }

theorem putFile_published {ssl : OpenSsl} {cfg : ClientConfig} {filePath content : Bytes}
    {fileKey : Crypto.FileKey} {plan : Plan}
    (hplan : Plan.of ssl cfg filePath content fileKey = .ok plan) :
    putFile ssl cfg filePath (some content) fileKey =
      if cfg.peers = [] then throw noPeers
      else (do
        let dht ← Prog.ofExcept (DhtNode.ofPeers ssl cfg.peers)
        uploadChunks ssl dht (clampReplicas cfg) plan.enc 0 plan.chunks
        publishManifest ssl cfg dht plan) := by
  obtain ⟨manifest, hdescribe, hchunks, hmanifest⟩ := Plan.of_ok hplan
  unfold putFile putFileBy publishManifest
  simp only [id, DhtNode.ofPeers_eq, Prog.ofExcept_ok_bind, Prog.pure_bind, hdescribe, hchunks,
    Plan.shareUri, Plan.hash, Plan.text, hmanifest]

/-- An upload without a plan throws before it asks for anything. -/
theorem putFileBy_of_error {ssl : OpenSsl} {C : Type} {Reply : C → Type}
    (quiet : ∀ {α : Type}, ClientProg α → Prog Reply Exc α)
    (uploading : DhtNode → Int → Encryption → List Bytes → Prog Reply Exc Unit)
    {cfg : ClientConfig} {filePath content : Bytes} {fileKey : Crypto.FileKey}
    (hplan : ∀ plan, Plan.of ssl cfg filePath content fileKey ≠ .ok plan) :
    ∃ e, putFileBy ssl quiet uploading cfg filePath (some content) fileKey = throw e := by
  unfold putFileBy
  by_cases hpeers : cfg.peers = []
  · exact ⟨_, if_pos hpeers⟩
  simp only [if_neg hpeers, DhtNode.ofPeers_eq, Prog.ofExcept_ok_bind, Prog.pure_bind]
  unfold Plan.of at hplan
  cases hdescribe : describe ssl cfg filePath content.length fileKey with
  | error e => exact ⟨e, rfl⟩
  | ok described =>
      cases hchunks : chunkFile filePath (some content) cfg.chunkSize with
      | error e => exact ⟨e, rfl⟩
      | ok chunks =>
          rw [hdescribe, hchunks] at hplan
          exact absurd rfl (hplan _)

end DssClient

namespace Upload

variable {ssl : OpenSsl} {upload : Upload ssl} {plan : Plan}

def perform (upload : Upload ssl) (plan : Plan) : ClientProg PutFileResult := do
  let dht : DhtNode := ⟨DhtNode.tableOf ssl upload.cfg.peers⟩
  let replicas := DssClient.clampReplicas upload.cfg
  DssClient.uploadChunks ssl dht replicas plan.enc 0 plan.chunks
  let mTargets ← Prog.ofExcept (dht.store ssl (str "manifest:" ++ plan.hash ssl) replicas)
  DssClient.putAll (fun p => PeerClient.putManifest p (plan.hash ssl) plan.text) mTargets
  let path ← DssClient.writeLocalManifest upload.cfg plan.manifest
  pure { shareUri := plan.shareUri ssl, localManifestPath := path }

theorem putFile_no_peers (hpeers : upload.cfg.peers = []) :
    upload.putFile = throw DssClient.noPeers := by
  unfold putFile DssClient.putFile DssClient.putFileBy
  exact if_pos hpeers

theorem putFile_of_plan (hpeers : upload.cfg.peers ≠ []) (hplan : upload.plan = .ok plan) :
    upload.putFile = upload.perform plan := by
  rw [putFile, DssClient.putFile_published hplan, if_neg hpeers, DhtNode.ofPeers_eq]
  rfl

theorem putFile_of_error (hplan : ∀ plan, upload.plan ≠ .ok plan) :
    ∃ e, upload.putFile = throw e := by
  unfold putFile DssClient.putFile
  exact DssClient.putFileBy_of_error id _ hplan

end Upload

end DecentStore
