import DecentStore.Proof.LostUploads

/-!
# One nonce for each chunk

The IV of a chunk is the file's with its last four bytes replaced by the low half of the position,
big endian. So it repeats every `2 ^ 32` positions and not earlier, and a file of no more chunks
never has two of them under one key and IV.
-/

namespace DecentStore

open Bytes Interaction

namespace Crypto

def nonce (baseIv : Bytes) (idx : UInt64) : Bytes :=
  baseIv.take 8 ++
    [((counter idx >>> 24) &&& 0xff).toUInt8, ((counter idx >>> 16) &&& 0xff).toUInt8,
      ((counter idx >>> 8) &&& 0xff).toUInt8, (counter idx &&& 0xff).toUInt8]

/-- The IVs of a file's chunks, in their order. -/
def nonces (baseIv : Bytes) (n : Nat) : List Bytes :=
  (List.range n).map fun k => nonce baseIv (UInt64.ofNat k)

variable {baseIv : Bytes}

theorem deriveChunkIv_nonce (hlength : baseIv.length = 12) (idx : UInt64) :
    deriveChunkIv baseIv idx = .ok (nonce baseIv idx) :=
  deriveChunkIv_eq hlength idx

theorem take_nonce (hlength : baseIv.length = 12) (idx : UInt64) :
    (nonce baseIv idx).take 8 = baseIv.take 8 :=
  List.take_left' (by rw [List.length_take, hlength]; rfl)

theorem deriveChunkIv_period (hlength : baseIv.length = 12) (i j : UInt64) :
    deriveChunkIv baseIv i = deriveChunkIv baseIv j ↔ i.toNat % 2 ^ 32 = j.toNat % 2 ^ 32 := by
  have hiff := deriveChunkIv_eq_iff hlength i.toNat j.toNat
  rwa [UInt64.ofNat_toNat, UInt64.ofNat_toNat] at hiff

theorem nonces_nodup (hlength : baseIv.length = 12) {n : Nat} (hn : n ≤ 2 ^ 32) :
    (nonces baseIv n).Nodup := by
  refine List.nodup_range.map_on fun a ha b hb hab => ?_
  have hderived :=
    calc deriveChunkIv baseIv (UInt64.ofNat a)
        = .ok (nonce baseIv (UInt64.ofNat a)) := deriveChunkIv_nonce hlength _
      _ = .ok (nonce baseIv (UInt64.ofNat b)) := congrArg Except.ok hab
      _ = deriveChunkIv baseIv (UInt64.ofNat b) := (deriveChunkIv_nonce hlength _).symm
  have hmod := (deriveChunkIv_eq_iff hlength a b).mp hderived
  have halt : a < 2 ^ 32 := (List.mem_range.mp ha).trans_le hn
  have hblt : b < 2 ^ 32 := (List.mem_range.mp hb).trans_le hn
  rwa [Nat.mod_eq_of_lt halt, Nat.mod_eq_of_lt hblt] at hmod

theorem aesGcmEncrypt_nonce (hlength : baseIv.length = 12) (ssl : OpenSsl) (plaintext key : Bytes)
    (idx : UInt64) :
    aesGcmEncrypt ssl plaintext key baseIv idx = gcmSeal ssl plaintext key (nonce baseIv idx) := by
  simp only [aesGcmEncrypt, deriveChunkIv_nonce hlength idx, Bind.bind, Except.bind]

end Crypto

namespace DssClient

/-- A chunk is encrypted under this key and IV and put on its targets. -/
def uploadUnder (ssl : OpenSsl) (dht : DhtNode) (replicas : Int) (key iv bytes : Bytes) :
    ClientProg Unit := do
  let cid := Crypto.sha256Hex ssl bytes
  let toSend ← Prog.ofExcept (Crypto.gcmSeal ssl bytes key iv)
  let targets ← Prog.ofExcept (dht.store ssl cid replicas)
  putAll (fun p => PeerClient.putChunk p cid toSend) targets

def uploadAllUnder (ssl : OpenSsl) (dht : DhtNode) (replicas : Int) (key : Bytes) :
    List (Bytes × Bytes) → ClientProg Unit
  | [] => pure ()
  | (iv, bytes) :: chunks => do
      uploadUnder ssl dht replicas key iv bytes
      uploadAllUnder ssl dht replicas key chunks

variable {ssl : OpenSsl}

theorem uploadChunk_under {params : Crypto.FileEncryptionParams} (hlength : params.iv.length = 12)
    (dht : DhtNode) (replicas : Int) (idx : UInt64) (bytes : Bytes) :
    uploadChunk ssl dht replicas (some params) idx bytes =
      uploadUnder ssl dht replicas params.key (Crypto.nonce params.iv idx) bytes := by
  unfold uploadChunk uploadUnder
  simp only [Crypto.aesGcmEncrypt_nonce hlength]

/-- The position counts up from chunk to chunk. -/
theorem uploadChunks_under {params : Crypto.FileEncryptionParams} (hlength : params.iv.length = 12)
    (dht : DhtNode) (replicas : Int) (n : Nat) (chunks : List Bytes) :
    uploadChunks ssl dht replicas (some params) (UInt64.ofNat n) chunks =
      uploadAllUnder ssl dht replicas params.key
        (((List.range' n chunks.length).map fun k =>
          Crypto.nonce params.iv (UInt64.ofNat k)).zip chunks) := by
  induction chunks generalizing n with
  | nil => rfl
  | cons bytes chunks ih =>
      unfold uploadChunks
      rw [uploadChunk_under hlength, ofNat_succ, ih]
      rfl

theorem plan_nonce_length {cfg : ClientConfig} {filePath content : Bytes}
    {fileKey : Crypto.FileKey} {plan : Plan} {params : Crypto.FileEncryptionParams}
    (hplan : Plan.of ssl cfg filePath content fileKey = .ok plan) (henc : plan.enc = some params) :
    params.iv.length = 12 := by
  obtain ⟨manifest, hdescribe, -⟩ := Plan.of_ok hplan
  rcases (Upload.describe_ok hdescribe).2.2 with ⟨-, hnone, -⟩ | ⟨-, hsome, -⟩
  · rw [hnone] at henc
    cases henc
  · rw [hsome] at henc
    cases henc
    exact fileKey.iv_length

/-- **No nonce is used twice.** The IV of a position is the file's in its first eight bytes, it is
that of another position exactly when the two agree up to `2 ^ 32`, and so `putFile` encrypts every
chunk of a file of at most `2 ^ 32` under a key and IV of its own. -/
theorem nonces_separate_chunks (ssl : OpenSsl) :
    (∀ baseIv : Bytes, baseIv.length = 12 → ∀ i j : UInt64,
      (Crypto.deriveChunkIv baseIv i = Crypto.deriveChunkIv baseIv j ↔
        i.toNat % 2 ^ 32 = j.toNat % 2 ^ 32) ∧
      Crypto.deriveChunkIv baseIv i = .ok (Crypto.nonce baseIv i) ∧
      (Crypto.nonce baseIv i).take 8 = baseIv.take 8) ∧
    ∀ (cfg : ClientConfig) (filePath content : Bytes) (fileKey : Crypto.FileKey) (plan : Plan)
      (params : Crypto.FileEncryptionParams),
      Plan.of ssl cfg filePath content fileKey = .ok plan → plan.enc = some params →
      plan.chunks.length ≤ 2 ^ 32 →
      ((Crypto.nonces params.iv plan.chunks.length).map fun iv => (params.key, iv)).Nodup ∧
      putFile ssl cfg filePath (some content) fileKey =
        if cfg.peers = [] then throw noPeers
        else (do
          let dht ← Prog.ofExcept (DhtNode.ofPeers ssl cfg.peers)
          uploadAllUnder ssl dht (clampReplicas cfg) params.key
            ((Crypto.nonces params.iv plan.chunks.length).zip plan.chunks)
          publishManifest ssl cfg dht plan) := by
  refine ⟨fun baseIv hlength i j => ⟨Crypto.deriveChunkIv_period hlength i j,
    Crypto.deriveChunkIv_nonce hlength i, Crypto.take_nonce hlength i⟩, ?_⟩
  intro cfg filePath content fileKey plan params hplan henc hcount
  have hlength := plan_nonce_length hplan henc
  refine ⟨?_, ?_⟩
  · exact (Crypto.nonces_nodup hlength hcount).map fun a b hab => (Prod.mk.inj hab).2
  · rw [putFile_published hplan, henc, Crypto.nonces, List.range_eq_range']
    have hunder := fun dht replicas =>
      @uploadChunks_under ssl params hlength dht replicas 0 plan.chunks
    simp only [← hunder]
    rfl

theorem aa_nonces_differ :
    Crypto.deriveChunkIv (List.replicate 12 0) 0 =
      Crypto.deriveChunkIv (List.replicate 12 0) (UInt64.ofNat (2 ^ 32)) ∧
    ((Crypto.nonces (vaultKey 7).params.iv 2).map fun iv => ((vaultKey 7).params.key, iv)).Nodup ∧
    putFile vaultSsl vaultConfig (str "/home/note") (some (str "aa")) (vaultKey 7) = (do
      let dht ← Prog.ofExcept (DhtNode.ofPeers vaultSsl vaultConfig.peers)
      uploadAllUnder vaultSsl dht (clampReplicas vaultConfig) (vaultKey 7).params.key
        ((Crypto.nonces (vaultKey 7).params.iv 2).zip [str "a", str "a"])
      publishManifest vaultSsl vaultConfig dht (vaultPlan (str "aa") 7)) := by
  have hall := nonces_separate_chunks vaultSsl
  obtain ⟨hnodup, hput⟩ := hall.2 vaultConfig (str "/home/note") (str "aa") (vaultKey 7)
    (vaultPlan (str "aa") 7) (vaultKey 7).params aa_plan rfl (by decide)
  exact ⟨((hall.1 (List.replicate 12 0) rfl 0 (UInt64.ofNat (2 ^ 32))).1).mpr (by decide), hnodup,
    hput⟩

end DssClient

end DecentStore
