import DecentStore.Proof.Integrity
import DecentStore.Proof.SequentialUploads

/-!
# Downloading from stores at rest

While nobody else is at work the stores stay as they are during a download. Then it returns exactly
when some peer has the manifest and, for each position, some peer has bytes under the id of the
chunk that open to the chunk at that position, and nobody who is asked before it has bytes on which
the download ends.
-/

namespace DecentStore

open Bytes Interaction DssClient

namespace Cluster

/-- Everything in the stores fits a vector. -/
def Fits (cluster : Cluster) : Prop :=
  ∀ p id data, (cluster p).chunks id = some data → data.length ≤ maxSize

/-- One of the peers has bytes that open to the chunk at position `n`, and those asked before it
have none with a bad tag. -/
def Opens (ssl : OpenSsl) (cluster : Cluster) (cfg : ClientConfig) (enc : Encryption) (n : Nat)
    (c : Bytes) : Prop :=
  Until
    (fun p => ∀ data, (cluster p).chunks (Crypto.sha256Hex ssl c) = some data →
      ¬ BadTag ssl enc (UInt64.ofNat n) data)
    (fun p => ∃ data, (cluster p).chunks (Crypto.sha256Hex ssl c) = some data ∧
      openChunk ssl enc (UInt64.ofNat n) data = .ok c)
    (candidates ssl cfg (Crypto.sha256Hex ssl c))

variable {segments : Segments} {id data : Bytes} {p : PeerEndpoint} {s : Cluster × LocalDisk}

theorem getResult_err (segments : Segments) (p : PeerEndpoint) (request cmd : Bytes) (most : Nat)
    (tooLong : Exc) : ∃ e, PeerClient.getResult cmd most tooLong
      (reply segments p request PeerService.err) = .error e :=
  PeerClient.readReply_err rfl

theorem stored_of_received
    (hfits : ∀ stored, (s.1 p).chunks id = some stored → stored.length ≤ maxSize)
    (hid : IsHashHex id)
    (hreceived : PeerClient.chunkResult
      (network segments p (PeerClient.getRequest (str "GET_CHUNK") id) s).1 = .ok data) :
    (s.1 p).chunks id = some data := by
  cases hstored : (s.1 p).chunks id with
  | some stored =>
      have hdelivers := @chunk_delivered segments id stored p s hid (hfits stored hstored)
        hstored
      rw [chunkResult_delivers hdelivers] at hreceived
      rw [Except.ok.inj hreceived]
  | none =>
      obtain ⟨e, he⟩ := getResult_err segments p (PeerClient.getRequest (str "GET_CHUNK") id)
        (str "GET_CHUNK") maxSize vectorTooLong
      rw [network_getChunk segments p s hid, hstored] at hreceived
      exact absurd (he.symm.trans hreceived) (by simp)

theorem no_manifest_received (ssl : OpenSsl) (hid : IsHashHex id)
    (hnone : (s.1 p).manifests id = none) : acceptManifest ssl id
      (network segments p (PeerClient.getRequest (str "GET_MANIFEST") id) s).1 = .ok none := by
  obtain ⟨e, he⟩ := getResult_err segments p (PeerClient.getRequest (str "GET_MANIFEST") id)
    (str "GET_MANIFEST") (maxSize - 1) (.lengthError (str "basic_string::_M_replace_aux"))
  have hends := network_ends segments p s (PeerClient.getRequest (str "GET_MANIFEST") id)
  have hcaught := @Exchange.Ends.getResult _ hends (str "GET_MANIFEST") (maxSize - 1)
    (.lengthError (str "basic_string::_M_replace_aux")) rfl
  rw [network_getManifest segments p s hid, hnone] at hcaught ⊢
  simp only [acceptManifest, PeerClient.manifestResult, he]
  exact if_pos (hcaught e he)

end Cluster

namespace Reader

/-- A reader of stores that nobody else touches. -/
def resting (ssl : OpenSsl) (cfg : ClientConfig) (segments : Cluster.Segments)
    (cluster : Cluster) : Reader ssl Cluster where
  cfg := cfg
  net := Cluster.network segments
  move := Eq
  keep := fun cluster' => cluster' = cluster
  refl := fun _ => rfl
  keep_of_move := fun hmove hkeep => hmove ▸ hkeep
  get_moves := fun peer _ _ s hcmd hid _ => (Cluster.network_get segments peer s hcmd hid).symm

theorem yields_of_fetched {ssl : OpenSsl} {σ : Type} {reader : Reader ssl σ} {enc : Encryption}
    {n : Nat} {entries : List ManifestEntry} {plains : List Bytes}
    (hfetched : reader.Fetched enc n entries plains) {i : Nat} {entry : ManifestEntry}
    {plain : Bytes} (hentry : entries[i]? = some entry) (hplain : plains[i]? = some plain) :
    reader.ChunkYields enc (n + i) entry.chunkId plain := by
  induction hfetched generalizing i with
  | nil => simp at hentry
  | cons hyields hrest ih =>
      cases i with
      | zero =>
          cases hentry
          cases hplain
          exact hyields
      | succ i =>
          have hlater := ih hentry hplain
          rwa [Nat.add_assoc, Nat.add_comm 1 i] at hlater

end Reader

/-- A download that returns and has written these bytes. -/
def Retrieves (ssl : OpenSsl) (cfg : ClientConfig) (segments : Cluster.Segments)
    (cluster : Cluster) (disk : LocalDisk) (shareUri outPath content : Bytes) : Prop :=
  ((getFile ssl cfg shareUri outPath).run (worldHandle (Cluster.network segments))
      (cluster, disk)).1 = .ok () ∧
    ((getFile ssl cfg shareUri outPath).run (worldHandle (Cluster.network segments))
      (cluster, disk)).2.2.files outPath = some content

section Resting

variable {ssl : OpenSsl} {upload : Upload ssl} {plan : Plan} {cfg : ClientConfig}
  {segments : Cluster.Segments} {cluster : Cluster} {disk : LocalDisk} {outPath : Bytes}

theorem opens_of_yields (hfits : cluster.Fits) {enc : Encryption} {n : Nat} {c : Bytes}
    (hyields : (Reader.resting ssl cfg segments cluster).ChunkYields enc n
      (Crypto.sha256Hex ssl c) c) : cluster.Opens ssl cfg enc n c := by
  have hid := Crypto.sha256Hex_isHashHex ssl c
  refine Until.mono ?_ ?_ hyields
  · rintro p - ⟨s, hkeep, -, haccept⟩ data hstored hbad
    obtain rfl : s.1 = cluster := hkeep
    have hdelivers := @Cluster.chunk_delivered segments _ data p s hid (hfits p _ data hstored)
      hstored
    cases haccept.symm.trans (acceptChunk_badTag hdelivers hbad)
  · rintro p - ⟨s, hkeep, -, haccept⟩
    obtain ⟨encData, hreceived, hopen, -⟩ := acceptChunk_hash haccept
    obtain rfl : s.1 = cluster := hkeep
    exact ⟨encData, Cluster.stored_of_received (hfits p _) hid hreceived, hopen⟩

theorem served_of_opens (hfits : cluster.Fits) {enc : Encryption} {n : Nat} {c : Bytes}
    (hopens : cluster.Opens ssl cfg enc n c) :
    (Reader.resting ssl cfg segments cluster).ChunkServed enc n (Crypto.sha256Hex ssl c) := by
  have hid := Crypto.sha256Hex_isHashHex ssl c
  refine Until.mono ?_ ?_ hopens
  · rintro p - hgood _ ⟨s, hkeep, -, rfl⟩
    obtain rfl : s.1 = cluster := hkeep
    exact acceptChunk_ends (Cluster.network_ends segments p s _)
      (fun encData hreceived =>
        hgood encData (Cluster.stored_of_received (hfits p _) hid hreceived)) _
  · rintro p - ⟨data, hstored, hopen⟩ _ ⟨s, hkeep, -, rfl⟩
    obtain rfl : s.1 = cluster := hkeep
    have hdelivers := @Cluster.chunk_delivered segments _ data p s hid (hfits p _ data hstored)
      hstored
    exact ⟨c, acceptChunk_delivers hdelivers hopen⟩

/-- **A download from stores at rest.** -/
theorem retrieves_iff_opens (hname : upload.Named) (hplan : upload.plan = .ok plan)
    (htext : ssl.NoCollision plan.text)
    (hchunks : ∀ c ∈ plan.chunks, ssl.NoCollision c) (hfits : cluster.Fits)
    (hkey : upload.KeyFor cfg) (hlocal : disk.files (plan.shareUri ssl) = none)
    (hwritable : disk.writable outPath = true)
    (hmanifest : ∃ p ∈ cfg.peers, (cluster p).manifests (plan.hash ssl) = some plan.text) :
    Retrieves ssl cfg segments cluster disk (plan.shareUri ssl) outPath upload.content ↔
      ∀ n c, plan.chunks[n]? = some c → cluster.Opens ssl cfg plan.enc n c := by
  have hpeers : cfg.peers ≠ [] := by
    obtain ⟨p, hp, -⟩ := hmanifest
    exact List.ne_nil_of_mem hp
  constructor
  · rintro ⟨hreturns, -⟩ n c hc
    obtain ⟨enc, plains, hunwrap, hfetched, -⟩ := @Reader.getFile_returned ssl Cluster
      (Reader.resting ssl cfg segments cluster) upload plan hpeers hname hplan htext outPath
      (cluster, disk) rfl hlocal hreturns
    cases (Upload.unwrapKey_plan hplan hkey).symm.trans hunwrap
    obtain rfl := Reader.chunks_of_fetched hchunks hfetched
    have hentry : (plan.chunks.map fun c => (⟨Crypto.sha256Hex ssl c⟩ : ManifestEntry))[n]? =
        some ⟨Crypto.sha256Hex ssl c⟩ := by
      rw [List.getElem?_map, hc]
      rfl
    have hyields := Reader.yields_of_fetched hfetched hentry hc
    rw [Nat.zero_add] at hyields
    exact opens_of_yields hfits hyields
  · intro hopens
    have hreturns := @Reader.getFile_returns ssl Cluster
      (Reader.resting ssl cfg segments cluster) upload plan hpeers hname hplan htext outPath
      (cluster, disk) rfl hlocal ?_ hwritable plan.enc (Upload.unwrapKey_plan hplan hkey)
      fun n c hc => served_of_opens hfits (hopens n c hc)
    · exact ⟨hreturns, @Reader.getFile_written ssl Cluster (Reader.resting ssl cfg segments cluster)
        upload plan hpeers hname hplan htext outPath (cluster, disk) rfl hlocal hchunks hreturns⟩
    · obtain ⟨p, hp, hstored⟩ := hmanifest
      refine Reader.manifestServed_of_answers
        (fun q _ _ _ s _ _ _ => Cluster.network_ends segments q s _) (Upload.hash_isHashHex plan) hp
        ?_
      rintro ⟨cluster', disk'⟩ rfl
      have hdelivers := @Cluster.manifest_delivered segments (plan.hash ssl) plan.text p
        (cluster', disk') (Upload.hash_isHashHex plan) (upload.text_fits plan hplan).le hstored
      exact ⟨plan.manifest, acceptManifest_delivers hname hplan hdelivers⟩

theorem not_retrieves_of_no_manifest (hlocal : disk.files (plan.shareUri ssl) = none)
    (hnone : ∀ p ∈ cfg.peers, (cluster p).manifests (plan.hash ssl) = none) (content : Bytes) :
    ¬ Retrieves ssl cfg segments cluster disk (plan.shareUri ssl) outPath content := by
  rintro ⟨hreturns, -⟩
  by_cases hpeers : cfg.peers = []
  · rw [getFile_no_peers hpeers] at hreturns
    cases hreturns
  have hnever : ∀ manifest, ¬ (Reader.resting ssl cfg segments cluster).ManifestYields
      (plan.hash ssl) manifest := by
    intro manifest hyields
    obtain ⟨p, hp, s, hkeep, haccept⟩ := hyields.exists_candidate
    have hp := (mem_candidates ssl _ _ p).mp hp
    obtain rfl : s.1 = cluster := hkeep
    rw [Reader.manifestAnswer, show (Reader.resting ssl cfg segments s.1).net =
      Cluster.network segments from rfl, Cluster.no_manifest_received ssl
        (Upload.hash_isHashHex plan) (hnone p hp)] at haccept
    cases haccept
  have hget := @Reader.getFile_holds ssl Cluster (Reader.resting ssl cfg segments cluster) hpeers
    (plan.shareUri ssl)
  rw [Upload.normalizeManifestId_shareUri] at hget
  have hholds := @hget (Upload.hash_isHashHex plan)
    (fun manifest hyields => absurd hyields (hnever manifest)) outPath (cluster, disk) rfl hlocal
  have hpost := Prog.post_of_holds (fun _ => ⟨rfl, rfl⟩) hholds
  rw [show (Reader.resting ssl cfg segments cluster).net = Cluster.network segments from rfl,
    show (Reader.resting ssl cfg segments cluster).cfg = cfg from rfl, hreturns] at hpost
  obtain ⟨-, manifest, enc, plains, hyields, -⟩ := hpost
  exact hnever manifest hyields

end Resting

end DecentStore
