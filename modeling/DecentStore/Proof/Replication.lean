import DecentStore.Proof.LostUploads
import DecentStore.Proof.NearestPeers

/-!
# How many copies an upload leaves

The replica count is cut down twice, once to the number of configured entries and once to the
number of nodes, and when a chunk is stored in plaintext only the targets without it are counted
down. The outcome is that of one cut: each object is on the nearest of the distinct peers, as many
as are asked for, and the upload touches nothing else.
-/

namespace DecentStore

open Bytes Interaction DssClient

variable {ssl : OpenSsl} {upload : Upload ssl} {plan : Plan} {segments : Cluster.Segments}

namespace Upload

theorem reach_clampReplicas (hids : DistinctIds ssl upload.cfg.peers)
    (hpeers : upload.cfg.peers ≠ []) :
    DhtNode.reach ssl upload.cfg.peers (clampReplicas upload.cfg) =
      DhtNode.reach ssl upload.cfg.peers upload.cfg.desiredReplicas := by
  have hdistinct : upload.cfg.peers.dedup.length ≤ upload.cfg.peers.length :=
    upload.cfg.peers.dedup_sublist.length_le
  have hlength := List.length_pos_iff.mpr hpeers
  rw [DhtNode.reach_eq hids, DhtNode.reach_eq hids]
  unfold clampReplicas
  simp only [castInt_of_lt upload.cfg.peers_fit]
  split <;> split <;> omega

/-- **The targets of an upload** are the nearest of its peers. -/
theorem targets_nearest (hids : DistinctIds ssl upload.cfg.peers) (hpeers : upload.cfg.peers ≠ [])
    (key : Bytes) :
    DhtNode.NearestPeers ssl upload.cfg.peers key upload.cfg.desiredReplicas
      (upload.targets key) := by
  have hnearest := DhtNode.take_ranked_nearest hids key upload.cfg.desiredReplicas
  rwa [← reach_clampReplicas hids hpeers] at hnearest

theorem touches_eq_nil_of_not_target {p : PeerEndpoint} {id : Bytes}
    (hp : p ∉ upload.targets id) : upload.touches p id = [] := by
  unfold touches
  split
  · rfl
  · exact if_neg hp

theorem touches_eq_nil_of_not_chunk (hplan : upload.plan = .ok plan) {id : Bytes}
    (hid : ⟨id⟩ ∉ plan.manifest.chunks) (p : PeerEndpoint) : upload.touches p id = [] := by
  by_contra hne
  obtain ⟨touch, htouch⟩ := List.exists_mem_of_ne_nil _ hne
  rw [touches_of_plan hplan] at htouch
  split at htouch
  · obtain ⟨i, c, hc, rfl, -⟩ :=
      mem_touchesFrom (plan_wholeKey hplan) (plan_fits hplan) htouch
    refine hid ?_
    rw [plan_chunks hplan]
    exact List.mem_map.mpr ⟨c, List.mem_of_getElem? hc, rfl⟩
  · exact absurd htouch List.not_mem_nil

end Upload

/-- The peer answers `HAS_CHUNK` with `OK`, however the request is cut. -/
def AnswersHas (store : IdealStore) (id : Bytes) : Prop :=
  ∀ cuts, PeerService.serve IdealStore.operations
    ⟨PeerClient.getRequest (str "HAS_CHUNK") id, cuts, .closed⟩ store = (.ok PeerService.ok, store)

theorem answersHas_of_stored {store : IdealStore} {id : Bytes} (hid : IsHashHex id)
    (hstored : (store.chunks id).isSome) : AnswersHas store id := by
  intro cuts
  rw [PeerService.serve_hasChunk IdealStore.operations _ hid rfl]
  simp only [IdealStore.operations, hstored, ↓reduceIte]

/-- **The copies of an upload.** Each chunk id of the manifest and the manifest itself are on the
nearest of the peers, as many as are wanted. A cell that is not one of these is as before. -/
structure Replicated (upload : Upload ssl) (plan : Plan) (before after : Cluster) : Prop where
  chunks : ∀ entry ∈ plan.manifest.chunks, ∃ targets,
    DhtNode.NearestPeers ssl upload.cfg.peers entry.chunkId upload.cfg.desiredReplicas targets ∧
      (∀ p ∈ targets, AnswersHas (after p) entry.chunkId) ∧
      ∀ p ∉ targets, (after p).chunks entry.chunkId = (before p).chunks entry.chunkId
  manifest : ∃ targets, DhtNode.NearestPeers ssl upload.cfg.peers
      (str "manifest:" ++ plan.hash ssl) upload.cfg.desiredReplicas targets ∧
    (∀ p ∈ targets, (after p).manifests (plan.hash ssl) = some plan.text) ∧
    ∀ p ∉ targets, (after p).manifests (plan.hash ssl) = (before p).manifests (plan.hash ssl)
  otherChunks : ∀ p id, ⟨id⟩ ∉ plan.manifest.chunks → (after p).chunks id = (before p).chunks id
  otherManifests : ∀ p id, id ≠ plan.hash ssl → (after p).manifests id = (before p).manifests id

theorem Upload.stored_of_returned {before after : Cluster} {r : Except Exc PutFileResult}
    (heffect : upload.Effect before r after) (hplan : upload.plan = .ok plan)
    (hsend : ∀ c ∈ plan.chunks, Sendable plan.enc c) {c : Bytes} (hc : c ∈ plan.chunks)
    {p : PeerEndpoint} (hp : p ∈ upload.targets (Crypto.sha256Hex ssl c)) :
    ((after p).chunks (Crypto.sha256Hex ssl c)).isSome := by
  have hall : plan.chunks.takeWhile (fun c => Sendable plan.enc c) = plan.chunks :=
    List.takeWhile_eq_self_iff.mpr fun d hd => by simpa using hsend d hd
  obtain ⟨touch, htouch⟩ := Upload.exists_touch_of_places
    (show upload.Places c p from ⟨plan, hplan, hall.symm ▸ hc, hp⟩)
  rw [heffect.chunks]
  exact Touch.after_isSome _ (List.ne_nil_of_mem htouch)

/-- **The replication guarantee.** Whatever the peers have at the start, however often a peer or a
chunk is listed and whatever number of replicas is asked for, an upload that returns leaves each of
its objects on as many peers as it can, the nearest ones, and changes nothing else. -/
theorem upload_replicated (hids : DistinctIds ssl upload.cfg.peers) (before : Cluster)
    (disk : LocalDisk) {result : PutFileResult}
    (hreturned : (upload.putFile.run (worldHandle (Cluster.network segments)) (before, disk)).1 =
      .ok result) :
    ∃ plan, upload.plan = .ok plan ∧ result.shareUri = plan.shareUri ssl ∧
      Replicated upload plan before
        (upload.putFile.run (worldHandle (Cluster.network segments)) (before, disk)).2.1 := by
  have heffect := @Upload.run_putFile ssl segments upload (before, disk)
  obtain ⟨plan, hplan, huri, hsend, hmanifest⟩ := heffect.returned result hreturned
  have hpeers : upload.cfg.peers ≠ [] := by
    intro hnil
    rw [Upload.putFile_no_peers hnil] at hreturned
    cases hreturned
  refine ⟨plan, hplan, huri, ⟨?_, ?_, ?_, ?_⟩⟩
  · rintro ⟨id⟩ hentry
    refine ⟨_, Upload.targets_nearest hids hpeers id, fun p hp => ?_, fun p hp => ?_⟩
    · rw [Upload.plan_chunks hplan] at hentry
      obtain ⟨c, hc, hid⟩ := List.mem_map.mp hentry
      cases hid
      exact answersHas_of_stored (Crypto.sha256Hex_isHashHex ssl c)
        (Upload.stored_of_returned heffect hplan hsend hc hp)
    · rw [heffect.chunks, Upload.touches_eq_nil_of_not_target hp]
      rfl
  · refine ⟨_, Upload.targets_nearest hids hpeers _, hmanifest, fun p hp => ?_⟩
    rcases heffect.manifests p (plan.hash ssl) with hsame | ⟨plan', hplan', hhash, hp', -⟩
    · exact hsame
    · rw [← hhash] at hp'
      exact absurd hp' hp
  · intro p id hid
    rw [heffect.chunks, Upload.touches_eq_nil_of_not_chunk hplan hid]
    rfl
  · intro p id hid
    rcases heffect.manifests p id with hsame | ⟨plan', hplan', hhash, -⟩
    · exact hsame
    · rw [hplan] at hplan'
      cases hplan'
      exact absurd hhash hid

def pairConfig : ClientConfig :=
  { peers := DhtNode.pairPeers ++ DhtNode.pairPeers, chunkSize := 2, desiredReplicas := 9
    peers_fit := by decide }

def pairPlan : Plan :=
  { manifest :=
      { originalName := str "two words", originalSize := 4, chunkSize := 2
        chunks := [⟨str "02" ++ List.replicate 62 48⟩, ⟨str "02" ++ List.replicate 62 48⟩] }
    enc := none
    chunks := [str "hi", str "hi"] }

theorem pair_plan : Plan.of DhtNode.pairSsl pairConfig (str "two words") (str "hihi") noteKey =
    .ok pairPlan := by
  decide +kernel

def pairUpload : Upload DhtNode.pairSsl where
  cfg := pairConfig
  filePath := str "two words"
  content := str "hihi"
  fileKey := noteKey
  text_fits := by
    intro plan hplan
    rw [pair_plan] at hplan
    cases hplan
    decide +kernel

theorem pair_returned : (pairUpload.putFile.run (worldHandle (Cluster.network {}))
    (Cluster.empty, {})).1 =
      .ok ⟨pairPlan.shareUri DhtNode.pairSsl, str "manifests/two words.manifest.txt"⟩ := by
  decide +kernel

theorem pair_replicated : ∃ plan, pairUpload.plan = .ok plan ∧
    pairPlan.shareUri DhtNode.pairSsl = plan.shareUri DhtNode.pairSsl ∧
      Replicated pairUpload plan Cluster.empty
        (pairUpload.putFile.run (worldHandle (Cluster.network {})) (Cluster.empty, {})).2.1 :=
  upload_replicated
    (DhtNode.pair_distinctIds.of_mem_iff fun p => by simp [pairUpload, pairConfig])
    Cluster.empty {} pair_returned

end DecentStore
