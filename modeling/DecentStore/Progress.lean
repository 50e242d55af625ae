import DecentStore.DssClient
import DecentStore.Lib.Reports

/-!
# Progress

`putFile` and `getFile` call `onProgress` after each chunk, with how many are done. The callback is
a report: it hands the numbers on and changes nothing. Without it the programs are those of
`DssClient`.
-/

namespace DecentStore

open Bytes Interaction

structure Progress where
  done : Int
  total : Int
  message : Bytes
deriving DecidableEq

/-- `R` is what the caller makes of a report. -/
abbrev ReportingProg (R α : Type) := Prog (Reported Call.Reply R) Exc α

namespace DssClient

variable (ssl : OpenSsl) {R : Type} (onProgress : Progress → R)

/-- The rest of the loop, with `done` chunks behind it. The code counts them in an `int`. -/
def uploadChunksOn (dht : DhtNode) (replicas : Int) (enc : Encryption) (total : Int) :
    Nat → UInt64 → List Bytes → ReportingProg R Unit
  | _, _, [] => pure ()
  | done, chunkIndex, bytes :: chunks => do
      (uploadChunk ssl dht replicas enc chunkIndex bytes).quiet
      Prog.report (onProgress
        { done := castInt (done + 1), total := total, message := str "Uploading chunks" })
      uploadChunksOn dht replicas enc total (done + 1) (chunkIndex + 1) chunks

def putFileOn :
    ClientConfig → Bytes → Option Bytes → Crypto.FileKey → ReportingProg R PutFileResult :=
  putFileBy ssl Prog.quiet fun dht replicas enc chunks =>
    uploadChunksOn ssl onProgress dht replicas enc (castInt chunks.length) 0 0 chunks

def downloadChunksOn (cfg : ClientConfig) (dht : DhtNode) (enc : Encryption) (total : Int) :
    Nat → UInt64 → List ManifestEntry → ReportingProg R Unit
  | _, _, [] => pure ()
  | done, chunkIndex, entry :: entries => do
      (downloadChunk ssl cfg dht enc chunkIndex entry.chunkId).quiet
      Prog.report (onProgress
        { done := castInt (done + 1), total := total, message := str "Downloading chunks" })
      downloadChunksOn cfg dht enc total (done + 1) (chunkIndex + 1) entries

def getFileOn (cfg : ClientConfig) : Bytes → Bytes → ReportingProg R Unit :=
  getFileBy ssl Prog.quiet (fun dht enc entries =>
    downloadChunksOn ssl onProgress cfg dht enc (castInt entries.length) 0 0 entries) cfg

/-! ### Without the callback -/

variable {ssl onProgress}

theorem muted_uploadChunksOn (dht : DhtNode) (replicas : Int) (enc : Encryption) (total : Int)
    (chunks : List Bytes) (done : Nat) (chunkIndex : UInt64) :
    (uploadChunksOn ssl onProgress dht replicas enc total done chunkIndex chunks).muted =
      uploadChunks ssl dht replicas enc chunkIndex chunks := by
  induction chunks generalizing done chunkIndex with
  | nil => rfl
  | cons bytes chunks ih => simp [uploadChunksOn, uploadChunks, ih]

theorem muted_putFileOn (cfg : ClientConfig) (filePath : Bytes) (file : Option Bytes)
    (fileKey : Crypto.FileKey) :
    (putFileOn ssl onProgress cfg filePath file fileKey).muted =
      putFile ssl cfg filePath file fileKey := by
  unfold putFileOn putFile putFileBy
  by_cases hpeers : cfg.peers = []
  · simp [hpeers]
  · cases file <;> simp [hpeers, muted_uploadChunksOn]

theorem muted_downloadChunksOn (cfg : ClientConfig) (dht : DhtNode) (enc : Encryption)
    (total : Int) (entries : List ManifestEntry) (done : Nat) (chunkIndex : UInt64) :
    (downloadChunksOn ssl onProgress cfg dht enc total done chunkIndex entries).muted =
      downloadChunks ssl cfg dht enc chunkIndex entries := by
  induction entries generalizing done chunkIndex with
  | nil => rfl
  | cons entry entries ih => simp [downloadChunksOn, downloadChunks, ih]

theorem muted_getFileOn (cfg : ClientConfig) (manifestPath outPath : Bytes) :
    (getFileOn ssl onProgress cfg manifestPath outPath).muted =
      getFile ssl cfg manifestPath outPath := by
  unfold getFileOn getFile getFileBy
  by_cases hpeers : cfg.peers = []
  · simp [hpeers]
  · simp [hpeers, muted_downloadChunksOn, apply_ite Prog.muted]

end DssClient

end DecentStore
