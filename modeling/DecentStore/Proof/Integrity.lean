import DecentStore.Proof.Download
import DecentStore.Proof.TableSsl

/-!
# Downloading from peers that do as they like

A share id is a hash, and so is the id of each chunk. Whatever the peers answer, what a download
accepts has the right hash, so a download that returns has written the file that was uploaded.
-/

namespace DecentStore

open Bytes Interaction DssClient

namespace LocalDisk

theorem writeAll_files (disk : LocalDisk) (data : List Bytes) {old : Bytes}
    (hold : disk.files disk.outPath = some old) :
    (disk.writeAll data).files disk.outPath = some (old ++ data.flatten) := by
  induction data generalizing disk old with
  | nil => simpa [writeAll] using hold
  | cons bytes data ih =>
      have hnext : (disk.write bytes).files (disk.write bytes).outPath = some (old ++ bytes) := by
        simp [write, writeFile, hold]
      have hrest := ih (disk.write bytes) hnext
      rw [List.flatten_cons, ← List.append_assoc]
      exact hrest

theorem openOut_writeAll (disk : LocalDisk) (path : Bytes) (data : List Bytes) :
    ((disk.openOut path).writeAll data).files path = some data.flatten := by
  have hempty : (disk.openOut path).files (disk.openOut path).outPath = some [] := by
    simp [openOut, writeFile]
  have hall := writeAll_files (disk.openOut path) data hempty
  rwa [List.nil_append] at hall

end LocalDisk

variable {ssl : OpenSsl}

theorem acceptChunk_hash {enc : Encryption} {chunkIndex : UInt64} {chunkId plain : Bytes}
    {answer : Exchange}
    (haccept : acceptChunk ssl enc chunkIndex chunkId answer = .ok (some plain)) :
    ∃ encData, PeerClient.chunkResult answer = .ok encData ∧
      openChunk ssl enc chunkIndex encData = .ok plain ∧ Crypto.sha256Hex ssl plain = chunkId := by
  have hresult := Prog.of_handled_none haccept
  cases hreceived : PeerClient.chunkResult answer with
  | error e => simp [hreceived, Bind.bind, Except.bind] at hresult
  | ok encData =>
      cases hopen : openChunk ssl enc chunkIndex encData with
      | error e => simp [hreceived, hopen, Bind.bind, Except.bind] at hresult
      | ok plain' =>
          simp only [hreceived, hopen, Bind.bind, Except.bind] at hresult
          split at hresult
          · cases hresult
          · rename_i hhash
            cases hresult
            exact ⟨encData, rfl, hopen, not_not.mp hhash⟩

theorem acceptManifest_hash {manifestId : Bytes} {answer : Exchange} {manifest : Manifest}
    (haccept : acceptManifest ssl manifestId answer = .ok (some manifest)) :
    ∃ text, Crypto.sha256Hex ssl text = manifestId ∧ parseManifestText text = .ok manifest := by
  have hresult := Prog.of_handled_none haccept
  cases hreceived : PeerClient.manifestResult answer with
  | error e => simp [hreceived, Bind.bind, Except.bind] at hresult
  | ok text =>
      simp only [hreceived, Bind.bind, Except.bind] at hresult
      split at hresult
      · cases hresult
      · rename_i hhash
        refine ⟨text, not_not.mp hhash, ?_⟩
        cases hparse : parseManifestText text with
        | error e => simp [hparse] at hresult
        | ok m =>
            rw [hparse] at hresult
            cases hresult
            rfl

/-- An accepted manifest with the hash of the upload's text is the manifest of the upload. -/
theorem acceptManifest_plan {upload : Upload ssl} {plan : Plan} (hname : upload.Named)
    (hplan : upload.plan = .ok plan) (htext : ssl.NoCollision plan.text) {answer : Exchange}
    {manifest : Manifest}
    (haccept : acceptManifest ssl (plan.hash ssl) answer = .ok (some manifest)) :
    manifest = plan.manifest := by
  obtain ⟨text, hhash, hparse⟩ := acceptManifest_hash haccept
  obtain rfl : text = plan.text := htext.eq hhash
  rw [Upload.parse_text hname hplan] at hparse
  exact (Except.ok.inj hparse).symm

namespace Reader

variable {σ : Type} {reader : Reader ssl σ} {upload : Upload ssl} {plan : Plan}

/-- **Only the manifest of the upload is accepted.** -/
theorem manifest_of_yields (hname : upload.Named) (hplan : upload.plan = .ok plan)
    (htext : ssl.NoCollision plan.text) {manifest : Manifest}
    (hyields : reader.ManifestYields (plan.hash ssl) manifest) :
    manifest = plan.manifest := by
  obtain ⟨p, -, s, -, haccept⟩ := hyields.exists_candidate
  exact acceptManifest_plan hname hplan htext haccept

/-- **Only the chunks of the upload are accepted**, each in its place. -/
theorem chunks_of_fetched {enc : Encryption} {n : Nat} {chunks plains : List Bytes}
    (hchunks : ∀ c ∈ chunks, ssl.NoCollision c)
    (hfetched : reader.Fetched enc n (chunks.map fun c => ⟨Crypto.sha256Hex ssl c⟩) plains) :
    plains = chunks := by
  induction chunks generalizing n plains with
  | nil =>
      cases hfetched
      rfl
  | cons c chunks ih =>
      cases hfetched with
      | cons hplain hrest =>
          obtain ⟨p, -, s, -, -, haccept⟩ := hplain.exists_candidate
          obtain ⟨-, -, -, hhash⟩ := acceptChunk_hash haccept
          rw [(hchunks c List.mem_cons_self).eq hhash,
            ih (fun x hx => hchunks x (List.mem_cons_of_mem c hx)) hrest]

theorem allServed_iff {enc : Encryption} {n : Nat} {chunks : List Bytes} :
    reader.AllServed enc n (chunks.map fun c => ⟨Crypto.sha256Hex ssl c⟩) ↔
      ∀ i c, chunks[i]? = some c → reader.ChunkServed enc (n + i) (Crypto.sha256Hex ssl c) := by
  induction chunks generalizing n with
  | nil => simp [AllServed]
  | cons c chunks ih =>
      rw [List.map_cons, AllServed, ih]
      constructor
      · rintro ⟨hfirst, hrest⟩ i d hd
        cases i with
        | zero =>
            cases hd
            exact hfirst
        | succ i =>
            have hserved := hrest i d hd
            rwa [Nat.add_assoc, Nat.add_comm 1 i] at hserved
      · intro hall
        refine ⟨hall 0 c rfl, fun i d hd => ?_⟩
        have hserved := hall (i + 1) d hd
        rwa [Nat.add_assoc, Nat.add_comm 1 i]

theorem getFile_plan (hpeers : reader.cfg.peers ≠ []) (hname : upload.Named)
    (hplan : upload.plan = .ok plan)
    (htext : ssl.NoCollision plan.text) (outPath : Bytes) {s : σ × LocalDisk}
    (hkeep : reader.keep s.1) (hlocal : s.2.files (plan.shareUri ssl) = none) :
    reader.Judges (getFile ssl reader.cfg (plan.shareUri ssl) outPath)
      (fun
        | .ok (), s' => reader.keep s'.1 ∧ ∃ enc plains,
            unwrapKey ssl reader.cfg plan.manifest = .ok enc ∧
              reader.Fetched enc 0 (plan.chunks.map fun c => ⟨Crypto.sha256Hex ssl c⟩) plains ∧
              s'.2.files outPath = some plains.flatten
        | .error _, _ => ¬ (reader.ManifestServed (plan.hash ssl) ∧
            s.2.writable outPath = true ∧ ∃ enc,
              unwrapKey ssl reader.cfg plan.manifest = .ok enc ∧
                ∀ i c, plan.chunks[i]? = some c →
                  reader.ChunkServed enc i (Crypto.sha256Hex ssl c))) s := by
  have hids : ∀ e ∈ plan.manifest.chunks, IsHashHex e.chunkId := by
    intro e he
    rw [Upload.plan_chunks hplan] at he
    obtain ⟨c, -, rfl⟩ := List.mem_map.mp he
    exact Crypto.sha256Hex_isHashHex ssl c
  have hget := @getFile_holds ssl σ reader hpeers (plan.shareUri ssl)
  rw [Upload.normalizeManifestId_shareUri] at hget
  have hget := hget (Upload.hash_isHashHex plan)
    (fun manifest hyields => manifest_of_yields hname hplan htext hyields ▸ hids) outPath hkeep
    hlocal
  refine Prog.holds_mono ?_ hget
  rintro (e | ⟨⟩) s' hpost
  · rintro ⟨hserved, hwritable, enc, hunwrap, hchunks⟩
    refine hpost ⟨hserved, hwritable, fun manifest hyields => ⟨enc, ?_⟩⟩
    obtain rfl := manifest_of_yields hname hplan htext hyields
    refine ⟨hunwrap, ?_⟩
    rw [Upload.plan_chunks hplan, allServed_iff]
    simpa using hchunks
  · obtain ⟨hkeep', manifest, enc, plains, hyields, hunwrap, hfetched, hdisk⟩ := hpost
    obtain rfl := manifest_of_yields hname hplan htext hyields
    rw [Upload.plan_chunks hplan] at hfetched
    refine ⟨hkeep', enc, plains, hunwrap, hfetched, ?_⟩
    rw [hdisk, LocalDisk.openOut_writeAll]

section Run

variable (hpeers : reader.cfg.peers ≠ []) (hname : upload.Named) (hplan : upload.plan = .ok plan)
  (htext : ssl.NoCollision plan.text) (outPath : Bytes) {s : σ × LocalDisk}
  (hkeep : reader.keep s.1) (hlocal : s.2.files (plan.shareUri ssl) = none)

include hpeers hname hplan htext hkeep hlocal

theorem getFile_returned
    (hreturns : ((getFile ssl reader.cfg (plan.shareUri ssl) outPath).run
      (worldHandle reader.net) s).1 = .ok ()) :
    ∃ enc plains, unwrapKey ssl reader.cfg plan.manifest = .ok enc ∧
      reader.Fetched enc 0 (plan.chunks.map fun c => ⟨Crypto.sha256Hex ssl c⟩) plains ∧
      ((getFile ssl reader.cfg (plan.shareUri ssl) outPath).run
        (worldHandle reader.net) s).2.2.files outPath = some plains.flatten := by
  have hpost := Prog.post_of_holds (fun s => ⟨reader.refl s.1, rfl⟩)
    (getFile_plan hpeers hname hplan htext outPath hkeep hlocal)
  rw [hreturns] at hpost
  exact hpost.2

theorem getFile_written (hchunks : ∀ c ∈ plan.chunks, ssl.NoCollision c)
    (hreturns : ((getFile ssl reader.cfg (plan.shareUri ssl) outPath).run
      (worldHandle reader.net) s).1 = .ok ()) :
    ((getFile ssl reader.cfg (plan.shareUri ssl) outPath).run
      (worldHandle reader.net) s).2.2.files outPath = some upload.content := by
  obtain ⟨enc, plains, -, hfetched, hfile⟩ :=
    getFile_returned hpeers hname hplan htext outPath hkeep hlocal hreturns
  rwa [chunks_of_fetched hchunks hfetched, Upload.plan_content hplan] at hfile

theorem getFile_returns (hmanifest : reader.ManifestServed (plan.hash ssl))
    (hwritable : s.2.writable outPath = true) {enc : Encryption}
    (hunwrap : unwrapKey ssl reader.cfg plan.manifest = .ok enc)
    (hchunks : ∀ i c, plan.chunks[i]? = some c →
      reader.ChunkServed enc i (Crypto.sha256Hex ssl c)) :
    ((getFile ssl reader.cfg (plan.shareUri ssl) outPath).run
      (worldHandle reader.net) s).1 = .ok () := by
  have hpost := Prog.post_of_holds (fun s => ⟨reader.refl s.1, rfl⟩)
    (getFile_plan hpeers hname hplan htext outPath hkeep hlocal)
  rcases hrun : ((getFile ssl reader.cfg (plan.shareUri ssl) outPath).run
      (worldHandle reader.net) s).1 with e | ⟨⟩
  · rw [hrun] at hpost
    exact absurd ⟨hmanifest, hwritable, enc, hunwrap, hchunks⟩ hpost
  · rfl

/-- A download whose manifest and chunks are all served writes the file. -/
theorem getFile_retrieves (hcollide : ∀ c ∈ plan.chunks, ssl.NoCollision c)
    (hmanifest : reader.ManifestServed (plan.hash ssl)) (hwritable : s.2.writable outPath = true)
    {enc : Encryption} (hunwrap : unwrapKey ssl reader.cfg plan.manifest = .ok enc)
    (hchunks : ∀ i c, plan.chunks[i]? = some c →
      reader.ChunkServed enc i (Crypto.sha256Hex ssl c)) :
    reader.Judges (getFile ssl reader.cfg (plan.shareUri ssl) outPath)
      (fun r s' => r = .ok () ∧ s'.2.files outPath = some upload.content) s := by
  refine Prog.holds_mono ?_ (getFile_plan hpeers hname hplan htext outPath hkeep hlocal)
  rintro (e | ⟨⟩) s' hpost
  · exact absurd ⟨hmanifest, hwritable, enc, hunwrap, hchunks⟩ hpost
  · obtain ⟨-, enc', plains, -, hfetched, hfile⟩ := hpost
    rw [hfile, chunks_of_fetched hcollide hfetched, Upload.plan_content hplan]
    exact ⟨rfl, rfl⟩

end Run

def ofAny (cfg : ClientConfig) (net : Network σ) : Reader ssl σ where
  cfg := cfg
  net := net
  move := fun _ _ => True
  keep := fun _ => True
  refl := fun _ => trivial
  keep_of_move := fun _ _ => trivial
  get_moves := fun _ _ _ _ _ _ _ => trivial

end Reader

theorem getFile_no_peers {cfg : ClientConfig} (hpeers : cfg.peers = [])
    (manifestRef outPath : Bytes) : getFile ssl cfg manifestRef outPath = throw noPeers := by
  unfold getFile getFileBy
  rw [if_pos hpeers]

/-- **Integrity against arbitrary peers.** A download of a share id that returns has written exactly
the bytes of the uploaded file, whatever the network answers. -/
theorem getFile_integrity {upload : Upload ssl} {plan : Plan} (hname : upload.Named)
    (hplan : upload.plan = .ok plan) (htext : ssl.NoCollision plan.text)
    (hchunks : ∀ c ∈ plan.chunks, ssl.NoCollision c)
    {σ : Type} (net : Network σ) (cfg : ClientConfig) (outPath : Bytes) (s : σ × LocalDisk)
    (hlocal : s.2.files (plan.shareUri ssl) = none)
    (hreturns : ((getFile ssl cfg (plan.shareUri ssl) outPath).run (worldHandle net) s).1 =
      .ok ()) :
    ((getFile ssl cfg (plan.shareUri ssl) outPath).run (worldHandle net) s).2.2.files outPath =
      some upload.content := by
  by_cases hpeers : cfg.peers = []
  · rw [getFile_no_peers hpeers] at hreturns
    cases hreturns
  exact @Reader.getFile_written ssl σ (Reader.ofAny cfg net) upload plan hpeers hname hplan htext
    outPath s trivial hlocal hchunks hreturns

def notePeers : List PeerEndpoint := [⟨str "10.0.0.1", 9000⟩, ⟨str "10.0.0.2", 9000⟩]

def noteConfig : ClientConfig :=
  { peers := notePeers, chunkSize := 2, desiredReplicas := 1, peers_fit := by decide }

def noteKey : Crypto.FileKey :=
  ⟨⟨List.replicate 32 7, List.replicate 12 0⟩, by decide, by decide⟩

def notePlan : Plan :=
  { manifest :=
      { originalName := str "note", originalSize := 3, chunkSize := 2
        chunks := [⟨List.replicate 64 48⟩, ⟨str "01" ++ List.replicate 62 48⟩] }
    enc := none
    chunks := [str "hi", str "!"] }

def noteSsl : OpenSsl := tableSsl [str "hi", str "!", notePlan.text, str "10.0.0.2:9000"]

theorem noteUpload_plan :
    Plan.of noteSsl noteConfig (str "/home/note") (str "hi!") noteKey = .ok notePlan := by
  decide +kernel

def noteUpload : Upload noteSsl where
  cfg := noteConfig
  filePath := str "/home/note"
  content := str "hi!"
  fileKey := noteKey
  text_fits := by
    intro plan hplan
    rw [noteUpload_plan] at hplan
    cases hplan
    decide +kernel

/-- The first peer lies, the second is honest. -/
def noteNetwork : Network Unit := fun peer request _ =>
  (.answered ⟨if peer.ip = str "10.0.0.1" then PeerService.okPayload (str "lies")
    else if request = PeerClient.getRequest (str "GET_MANIFEST") (notePlan.hash noteSsl) then
      PeerService.okPayload notePlan.text
    else if request = PeerClient.getRequest (str "GET_CHUNK") (List.replicate 64 48) then
      PeerService.okPayload (str "hi")
    else PeerService.okPayload (str "!"), [], .closed⟩, ())

theorem noteChunks_noCollision : ∀ c ∈ notePlan.chunks, noteSsl.NoCollision c := by
  intro c hc
  refine TableSsl.noCollision (by decide) ?_
  simp only [notePlan, List.mem_cons, List.not_mem_nil, or_false] at hc ⊢
  tauto

theorem noteText_noCollision : noteSsl.NoCollision notePlan.text :=
  TableSsl.noCollision (by decide) (by simp)

theorem note_downloaded :
    ((getFile noteSsl noteConfig (notePlan.shareUri noteSsl) (str "out")).run
      (worldHandle noteNetwork) ((), {})).2.2.files (str "out") = some (str "hi!") :=
  @getFile_integrity noteSsl noteUpload notePlan (by decide) noteUpload_plan noteText_noCollision
    noteChunks_noCollision Unit noteNetwork noteConfig (str "out") ((), {}) rfl
    (by decide +kernel)

end DecentStore
