import DecentStore.Lib.Simulation
import DecentStore.Proof.HonestPeers
import DecentStore.Proof.Integrity

/-!
# Concurrent plaintext uploads

In plaintext mode an id is the hash of the bytes stored under it, so two clients that store under
one id store the same bytes and never harm each other. Every request of every upload keeps what the
stores have and keeps it well named. A client that has seen a target with the chunk, or has put it
there itself, can rely on it from then on, and so can every later download.
-/

namespace DecentStore

open Bytes Interaction DssClient

namespace Cluster

def Has (cluster : Cluster) (peer : PeerEndpoint) (id : Bytes) : Prop :=
  ((cluster peer).chunks id).isSome

def HasManifest (cluster : Cluster) (peer : PeerEndpoint) (id : Bytes) : Prop :=
  ((cluster peer).manifests id).isSome

/-! What a peer has it keeps, whatever is put. -/

section Puts

variable {cluster : Cluster} {q : PeerEndpoint} {i : Bytes} (peer : PeerEndpoint) (id data : Bytes)

theorem Has.putChunk (hhas : cluster.Has q i) : (cluster.putChunk peer id data).Has q i := by
  unfold Has at hhas ⊢
  rw [chunks_putChunk]
  split
  · rfl
  · exact hhas

theorem HasManifest.putChunk (hhas : cluster.HasManifest q i) :
    (cluster.putChunk peer id data).HasManifest q i := by
  unfold HasManifest at hhas ⊢
  rwa [manifests_putChunk]

theorem Has.putManifest (hhas : cluster.Has q i) : (cluster.putManifest peer id data).Has q i := by
  unfold Has at hhas ⊢
  rwa [chunks_putManifest]

theorem HasManifest.putManifest (hhas : cluster.HasManifest q i) :
    (cluster.putManifest peer id data).HasManifest q i := by
  unfold HasManifest at hhas ⊢
  rw [manifests_putManifest]
  split
  · rfl
  · exact hhas

end Puts

/-- Every id is the hash of what is stored under it. -/
def Sound (ssl : OpenSsl) (cluster : Cluster) : Prop :=
  ∀ peer id data, ((cluster peer).chunks id = some data ∨ (cluster peer).manifests id = some data) →
    id = Crypto.sha256Hex ssl data

/-- Nothing is lost and the ids stay right. -/
structure Grows (ssl : OpenSsl) (a b : Cluster) : Prop where
  sound : a.Sound ssl → b.Sound ssl
  chunks : ∀ peer id, a.Has peer id → b.Has peer id
  manifests : ∀ peer id, a.HasManifest peer id → b.HasManifest peer id

variable {ssl : OpenSsl}

theorem sound_empty : Sound ssl empty := by
  rintro peer id data (hchunk | hmanifest)
  · cases hchunk
  · cases hmanifest

theorem Grows.refl (a : Cluster) : Grows ssl a a := ⟨id, fun _ _ => id, fun _ _ => id⟩

theorem Grows.trans {a b c : Cluster} (hab : Grows ssl a b) (hbc : Grows ssl b c) :
    Grows ssl a c :=
  ⟨hbc.sound ∘ hab.sound, fun p i hi => hbc.chunks p i (hab.chunks p i hi),
    fun p i hi => hbc.manifests p i (hab.manifests p i hi)⟩

/-- **A step of a plaintext upload.** Bytes stored under their hash harm nobody. -/
theorem grows_putChunk (cluster : Cluster) (peer : PeerEndpoint) (c : Bytes) :
    Grows ssl cluster (cluster.putChunk peer (Crypto.sha256Hex ssl c) c) where
  sound := by
    intro hsound q id data hstored
    rw [chunks_putChunk, manifests_putChunk] at hstored
    split at hstored
    · rename_i hcell
      rcases hstored with hchunk | hmanifest
      · rw [hcell.2, Option.some.inj hchunk]
      · exact hsound q id data (Or.inr hmanifest)
    · exact hsound q id data hstored
  chunks := fun _ _ hhas => hhas.putChunk peer _ c
  manifests := fun _ _ hhas => hhas.putChunk peer _ c

theorem grows_putManifest (cluster : Cluster) (peer : PeerEndpoint) (text : Bytes) :
    Grows ssl cluster (cluster.putManifest peer (Crypto.sha256Hex ssl text) text) where
  sound := by
    intro hsound q id data hstored
    rw [chunks_putManifest, manifests_putManifest] at hstored
    split at hstored
    · rename_i hcell
      rcases hstored with hchunk | hmanifest
      · exact hsound q id data (Or.inl hchunk)
      · rw [hcell.2, Option.some.inj hmanifest]
    · exact hsound q id data hstored
  chunks := fun _ _ hhas => hhas.putManifest peer _ text
  manifests := fun _ _ hhas => hhas.putManifest peer _ text

end Cluster

/-! ### One upload among others -/

section Upload

variable {ssl : OpenSsl} {segments : Cluster.Segments}

/-- A client's program in company that lets the stores grow. -/
abbrev Coexists (ssl : OpenSsl) (segments : Cluster.Segments) {α : Type} (prog : ClientProg α)
    (post : Except Exc α → Cluster × LocalDisk → Prop) (s : Cluster × LocalDisk) : Prop :=
  prog.Holds (worldHandle (Cluster.network segments)) (Pool.Others (Cluster.Grows ssl))
    (Pool.Own (Cluster.Grows ssl)) post s

theorem Coexists.grows {α : Type} {p : ClientProg α}
    {post : Except Exc α → Cluster × LocalDisk → Prop} {s : Cluster × LocalDisk}
    (hp : Coexists ssl segments p post s) :
    Coexists ssl segments p (fun r s' => post r s' ∧ Cluster.Grows ssl s.1 s'.1) s :=
  Pool.holds_moves Cluster.Grows.refl (fun _ _ _ => Cluster.Grows.trans) hp

theorem Coexists.bind {α β : Type} {p : ClientProg α} {f : α → ClientProg β} {a : α}
    {mid : Cluster × LocalDisk → Prop} {post : Except Exc β → Cluster × LocalDisk → Prop}
    {s : Cluster × LocalDisk} (hp : Coexists ssl segments p (fun r s' => r = .ok a ∧ mid s') s)
    (hf : ∀ s', mid s' → Cluster.Grows ssl s.1 s'.1 → Coexists ssl segments (f a) post s') :
    Coexists ssl segments (p >>= f) post s := by
  refine Prog.holds_bind hp.grows ?_ ?_
  · rintro a' s' ⟨⟨ha, hmid⟩, hgrows⟩
    cases ha
    exact hf s' hmid hgrows
  · rintro e s' ⟨⟨he, -⟩, -⟩
    cases he

variable {c : Bytes} (s : Cluster × LocalDisk)

theorem putChunk_coexists (hc : c.length ≤ maxSize) (peer : PeerEndpoint) :
    Coexists ssl segments (PeerClient.putChunk peer (Crypto.sha256Hex ssl c) c)
      (fun r s' => r = .ok () ∧ s'.1.Has peer (Crypto.sha256Hex ssl c)) s := by
  refine PeerClient.putChunk_holds (Crypto.sha256Hex_isHashHex ssl c) hc fun s' _ => ?_
  refine ⟨Cluster.grows_putChunk s'.1 peer c, rfl, ?_⟩
  simp [Cluster.Has]

theorem putManifest_coexists {text : Bytes} (htext : text.length ≤ maxSize) (peer : PeerEndpoint) :
    Coexists ssl segments (PeerClient.putManifest peer (Crypto.sha256Hex ssl text) text)
      (fun r s' => r = .ok () ∧ s'.1.HasManifest peer (Crypto.sha256Hex ssl text)) s := by
  refine PeerClient.putManifest_holds (Crypto.sha256Hex_isHashHex ssl text) htext fun s' _ => ?_
  refine ⟨Cluster.grows_putManifest s'.1 peer text, rfl, ?_⟩
  simp [Cluster.HasManifest]

theorem hasChunk_coexists {id : Bytes} (hid : IsHashHex id) (peer : PeerEndpoint) :
    Coexists ssl segments (PeerClient.hasChunk peer id)
      (fun r s' => ∃ present, r = .ok present ∧ (present = true → s'.1.Has peer id)) s :=
  PeerClient.hasChunk_holds hid fun _ _ => ⟨Cluster.Grows.refl _, _, rfl, fun hpresent => hpresent⟩

/-- After the probe every target has the chunk or is among the missing, and no target is counted
twice. -/
theorem probe_coexists {cid : Bytes} (hid : IsHashHex cid) (targets : List PeerEndpoint) :
    Coexists ssl segments (probe cid targets)
      (fun r s' => ∃ already missing, r = .ok (already, missing) ∧
        already + missing.length = targets.length ∧
        ∀ p ∈ targets, p ∈ missing ∨ s'.1.Has p cid) s := by
  induction targets generalizing s with
  | nil => exact ⟨0, [], rfl, rfl, by simp⟩
  | cons p targets ih =>
      unfold probe
      refine Prog.holds_bind (hasChunk_coexists s hid p) ?_ ?_
      · rintro present s₁ ⟨present', hpresent, hhas⟩
        cases hpresent
        refine Prog.holds_bind (Coexists.grows (ih s₁)) ?_ ?_
        · rintro found s₂ ⟨⟨already, missing, hfound, hcount, htargets⟩, hgrows⟩
          cases hfound
          cases present with
          | true =>
              refine ⟨already + 1, missing, rfl, ?_, ?_⟩
              · rw [List.length_cons]
                push_cast
                omega
              · intro q hq
                rcases List.mem_cons.mp hq with rfl | hq
                · exact Or.inr (hgrows.chunks _ _ (hhas rfl))
                · exact htargets q hq
          | false =>
              refine ⟨already, p :: missing, rfl, ?_, ?_⟩
              · rw [List.length_cons, List.length_cons]
                push_cast
                omega
              · intro q hq
                rcases List.mem_cons.mp hq with rfl | hq
                · exact Or.inl List.mem_cons_self
                · exact (htargets q hq).imp (List.mem_cons_of_mem p) id
        · rintro e s₂ ⟨⟨already, missing, hfound, -⟩, -⟩
          cases hfound
      · rintro e s₁ ⟨present, hpresent, -⟩
        cases hpresent

theorem putMissing_coexists (hc : c.length ≤ maxSize) (missing : List PeerEndpoint) {needed : Int}
    (hneeded : missing.length ≤ needed) :
    Coexists ssl segments (putMissing (Crypto.sha256Hex ssl c) c needed missing)
      (fun r s' => r = .ok () ∧ ∀ p ∈ missing, s'.1.Has p (Crypto.sha256Hex ssl c)) s := by
  induction missing generalizing s needed with
  | nil => exact ⟨rfl, by simp⟩
  | cons p missing ih =>
      rw [List.length_cons] at hneeded
      push_cast at hneeded
      unfold putMissing
      refine Coexists.bind (putChunk_coexists s hc p) fun s₁ hhas _ => ?_
      by_cases hlast : needed - 1 ≤ 0
      · rw [if_pos hlast]
        have hnil : missing = [] := List.eq_nil_of_length_eq_zero (by omega)
        refine ⟨rfl, fun q hq => ?_⟩
        rw [hnil, List.mem_singleton] at hq
        exact hq ▸ hhas
      · rw [if_neg hlast]
        refine Prog.holds_mono ?_ (Coexists.grows (ih s₁ (by omega)))
        rintro r s₂ ⟨⟨hr, hrest⟩, hgrows⟩
        refine ⟨hr, fun q hq => ?_⟩
        rcases List.mem_cons.mp hq with rfl | hq
        · exact hgrows.chunks _ _ hhas
        · exact hrest q hq

/-- **A chunk of a plaintext upload** is on every target in the end, whoever put it there. -/
theorem uploadChunk_coexists {upload : Upload ssl} (hpeers : upload.cfg.peers ≠ [])
    (hc : c.length ≤ maxSize) (chunkIndex : UInt64) :
    Coexists ssl segments (uploadChunk ssl ⟨DhtNode.tableOf ssl upload.cfg.peers⟩
        (clampReplicas upload.cfg) none chunkIndex c)
      (fun r s' => r = .ok () ∧ ∀ p ∈ upload.targets (Crypto.sha256Hex ssl c),
        s'.1.Has p (Crypto.sha256Hex ssl c)) s := by
  have hlength := Upload.length_targets_le hpeers (Crypto.sha256Hex ssl c)
  unfold uploadChunk
  simp only [Upload.store_targets, Prog.ofExcept_ok_bind]
  refine Prog.holds_bind (probe_coexists s (Crypto.sha256Hex_isHashHex ssl c) _) ?_ ?_
  · rintro found s₁ ⟨already, missing, hfound, hcount, htargets⟩
    cases hfound
    by_cases hneeded : 0 < clampReplicas upload.cfg - already
    · simp only [if_pos hneeded]
      have hput := @putMissing_coexists ssl segments c s₁ hc missing
        (clampReplicas upload.cfg - already) (by omega)
      refine Prog.holds_mono ?_ (Coexists.grows hput)
      rintro r s₂ ⟨⟨hr, hput⟩, hgrows⟩
      refine ⟨hr, fun p hp => ?_⟩
      rcases htargets p hp with hmissing | hhas
      · exact hput p hmissing
      · exact hgrows.chunks _ _ hhas
    · simp only [if_neg hneeded]
      have hnil : missing = [] := List.eq_nil_of_length_eq_zero (by omega)
      refine ⟨rfl, fun p hp => ?_⟩
      rcases htargets p hp with hmissing | hhas
      · rw [hnil] at hmissing
        exact absurd hmissing List.not_mem_nil
      · exact hhas
  · rintro e s₁ ⟨already, missing, hfound, -⟩
    cases hfound

theorem uploadChunks_coexists {upload : Upload ssl} (hpeers : upload.cfg.peers ≠ [])
    {chunks : List Bytes} (hchunks : ∀ c ∈ chunks, c.length ≤ maxSize) (chunkIndex : UInt64) :
    Coexists ssl segments (uploadChunks ssl ⟨DhtNode.tableOf ssl upload.cfg.peers⟩
        (clampReplicas upload.cfg) none chunkIndex chunks)
      (fun r s' => r = .ok () ∧ ∀ c ∈ chunks, ∀ p ∈ upload.targets (Crypto.sha256Hex ssl c),
        s'.1.Has p (Crypto.sha256Hex ssl c)) s := by
  induction chunks generalizing s chunkIndex with
  | nil => exact ⟨rfl, by simp⟩
  | cons c chunks ih =>
      unfold uploadChunks
      refine Coexists.bind (uploadChunk_coexists s hpeers (hchunks c List.mem_cons_self) chunkIndex)
        fun s₁ hfirst _ => ?_
      have hrest := ih s₁ (fun d hd => hchunks d (List.mem_cons_of_mem c hd)) (chunkIndex + 1)
      refine Prog.holds_mono ?_ (Coexists.grows hrest)
      rintro r s₂ ⟨⟨hr, hrest⟩, hgrows⟩
      refine ⟨hr, fun d hd p hp => ?_⟩
      rcases List.mem_cons.mp hd with rfl | hd
      · exact hgrows.chunks _ _ (hfirst p hp)
      · exact hrest d hd p hp

theorem putManifests_coexists {text : Bytes} (htext : text.length ≤ maxSize)
    (targets : List PeerEndpoint) :
    Coexists ssl segments
      (putAll (fun p => PeerClient.putManifest p (Crypto.sha256Hex ssl text) text) targets)
      (fun r s' => r = .ok () ∧ ∀ p ∈ targets, s'.1.HasManifest p (Crypto.sha256Hex ssl text))
      s := by
  induction targets generalizing s with
  | nil => exact ⟨rfl, by simp⟩
  | cons p targets ih =>
      unfold putAll
      refine Coexists.bind (putManifest_coexists s htext p) fun s₁ hfirst _ => ?_
      refine Prog.holds_mono ?_ (Coexists.grows (ih s₁))
      rintro r s₂ ⟨⟨hr, hrest⟩, hgrows⟩
      refine ⟨hr, fun q hq => ?_⟩
      rcases List.mem_cons.mp hq with rfl | hq
      · exact hgrows.manifests _ _ hfirst
      · exact hrest q hq

/-- Each object of the upload is on every one of its targets. -/
structure Spread (upload : Upload ssl) (plan : Plan) (cluster : Cluster) : Prop where
  chunks : ∀ c ∈ plan.chunks, ∀ p ∈ upload.targets (Crypto.sha256Hex ssl c),
    cluster.Has p (Crypto.sha256Hex ssl c)
  manifest : ∀ p ∈ upload.targets (str "manifest:" ++ plan.hash ssl),
    cluster.HasManifest p (plan.hash ssl)

theorem Spread.stable {upload : Upload ssl} {plan : Plan} {a b : Cluster}
    (hspread : Spread upload plan a) (hgrows : Cluster.Grows ssl a b) : Spread upload plan b where
  chunks := fun c hc p hp => hgrows.chunks _ _ (hspread.chunks c hc p hp)
  manifest := fun p hp => hgrows.manifests _ _ (hspread.manifest p hp)

/-- What a returned upload says, it has spread. -/
def SpreadBy (upload : Upload ssl) (r : Except Exc PutFileResult) (s : Cluster × LocalDisk) :
    Prop :=
  ∀ result, r = .ok result →
    ∃ plan, upload.plan = .ok plan ∧ result.shareUri = plan.shareUri ssl ∧ Spread upload plan s.1

theorem SpreadBy.stable {upload : Upload ssl} {r : Except Exc PutFileResult}
    {s s' : Cluster × LocalDisk} (hspread : SpreadBy upload r s)
    (hothers : Pool.Others (Cluster.Grows ssl) s s') : SpreadBy upload r s' := by
  intro result hresult
  obtain ⟨plan, hplan, huri, hspread⟩ := hspread result hresult
  exact ⟨plan, hplan, huri, hspread.stable hothers.1⟩

/-- **One plaintext upload among others.** When it returns, its objects are on all their targets. -/
theorem putFile_spreads {upload : Upload ssl} (hplain : upload.cfg.rsaPublicKeyPath = [])
    (s : Cluster × LocalDisk) :
    Coexists ssl segments upload.putFile (SpreadBy upload) s := by
  have hthrows : ∀ e, upload.putFile = throw e →
      Coexists ssl segments upload.putFile (SpreadBy upload) s := by
    intro e he
    rw [he]
    rintro result hresult
    cases hresult
  by_cases hpeers : upload.cfg.peers = []
  · exact hthrows noPeers (Upload.putFile_no_peers hpeers)
  by_cases hplan : ∃ plan, upload.plan = .ok plan
  · obtain ⟨plan, hplan⟩ := hplan
    rw [Upload.putFile_of_plan hpeers hplan]
    unfold Upload.perform
    simp only [Upload.plan_plaintext hplan hplain, Upload.store_targets, Prog.ofExcept_ok_bind]
    refine Coexists.bind (uploadChunks_coexists s hpeers (Upload.plan_fits hplan) 0)
      fun s₁ hchunks _ => ?_
    refine Coexists.bind (putManifests_coexists s₁ (upload.text_fits plan hplan).le _)
      fun s₂ hmanifest hgrows₂ => ?_
    have hlocal := (writeLocalManifest_offline upload.cfg plan.manifest).holds
      (Cluster.network segments) (@Cluster.Grows.refl ssl) s₂
    refine Prog.holds_bind (Coexists.grows hlocal) ?_ fun e s₃ _ result hresult => by cases hresult
    rintro path s₃ ⟨-, hgrows₃⟩ result hresult
    cases hresult
    exact ⟨plan, hplan, rfl,
      fun c hc p hp => (hgrows₂.trans hgrows₃).chunks _ _ (hchunks c hc p hp),
      fun p hp => hgrows₃.manifests _ _ (hmanifest p hp)⟩
  · obtain ⟨e, he⟩ := Upload.putFile_of_error fun plan hok => hplan ⟨plan, hok⟩
    exact hthrows e he

/-- What an upload leaves in the cluster. -/
structure Held (upload : Upload ssl) (plan : Plan) (cluster : Cluster) : Prop where
  chunks : ∀ c ∈ plan.chunks, ∃ p ∈ upload.cfg.peers, cluster.Has p (Crypto.sha256Hex ssl c)
  manifest : ∃ p ∈ upload.cfg.peers, cluster.HasManifest p (plan.hash ssl)

/-- A plaintext upload that returned a share id. -/
def Shared (upload : Upload ssl) (result : PutFileResult) (cluster : Cluster) : Prop :=
  ∃ plan, upload.plan = .ok plan ∧ result.shareUri = plan.shareUri ssl ∧ Held upload plan cluster

theorem Shared.stable {upload : Upload ssl} {result : PutFileResult} {a b : Cluster}
    (hshared : Shared upload result a) (hgrows : Cluster.Grows ssl a b) :
    Shared upload result b := by
  obtain ⟨plan, hplan, huri, hchunks, p, hp, hmanifest⟩ := hshared
  refine ⟨plan, hplan, huri, fun c hc => ?_, p, hp, hgrows.manifests _ _ hmanifest⟩
  obtain ⟨q, hq, hhas⟩ := hchunks c hc
  exact ⟨q, hq, hgrows.chunks _ _ hhas⟩

theorem Spread.held {upload : Upload ssl} {plan : Plan} {cluster : Cluster}
    (hspread : Spread upload plan cluster) (husable : Usable ssl upload.cfg.peers) :
    Held upload plan cluster where
  chunks := by
    intro c hc
    obtain ⟨p, hp⟩ := upload.exists_target husable (Crypto.sha256Hex ssl c)
    exact ⟨p, upload.targets_subset _ hp, hspread.chunks c hc p hp⟩
  manifest := by
    obtain ⟨p, hp⟩ := upload.exists_target husable (str "manifest:" ++ plan.hash ssl)
    exact ⟨p, upload.targets_subset _ hp, hspread.manifest p hp⟩

/-- When a plaintext upload returns, every chunk and the manifest are on a configured peer. -/
theorem putFile_coexists {upload : Upload ssl} (husable : Usable ssl upload.cfg.peers)
    (hplain : upload.cfg.rsaPublicKeyPath = []) (s : Cluster × LocalDisk) :
    Coexists ssl segments upload.putFile
      (fun r s' => ∀ result, r = .ok result → Shared upload result s'.1) s := by
  refine Prog.holds_mono (fun r s' hspread result hresult => ?_) (putFile_spreads hplain s)
  obtain ⟨plan, hplan, huri, hspread⟩ := hspread result hresult
  exact ⟨plan, hplan, huri, hspread.held husable⟩

end Upload

/-! ### Many uploads -/

section Pool

variable {ssl : OpenSsl} {ι : Type}

def uploadPool (uploads : ι → Upload ssl) (disks : ι → LocalDisk) :
    Pool Call.Reply Exc PutFileResult Cluster LocalDisk ι :=
  { shared := Cluster.empty, procs := fun i => ((uploads i).putFile, disks i) }

/-- A reader who comes when the stores are as they are now, and relies on what they have. -/
def Reader.visiting (ssl : OpenSsl) (cfg : ClientConfig) (segments : Cluster.Segments)
    (now : Cluster) : Reader ssl Cluster where
  cfg := cfg
  net := Cluster.network segments
  move := Cluster.Grows ssl
  keep := Cluster.Grows ssl now
  refl := Cluster.Grows.refl
  keep_of_move := fun hmove hkeep => hkeep.trans hmove
  get_moves := by
    intro peer cmd id s hcmd hid _
    rw [Cluster.network_get segments peer s hcmd hid]
    exact Cluster.Grows.refl _

variable {cfg : ClientConfig} {segments : Cluster.Segments} {now : Cluster}

theorem visiting_answers : (Reader.visiting ssl cfg segments now).Answers :=
  fun p _ _ _ s _ _ _ => Cluster.network_ends segments p s _

theorem visiting_chunkServed (hsound : now.Sound ssl) {c : Bytes} (hcollide : ssl.NoCollision c)
    (hc : c.length ≤ maxSize) {p : PeerEndpoint} (hp : p ∈ cfg.peers)
    (hhas : now.Has p (Crypto.sha256Hex ssl c)) (n : Nat) :
    (Reader.visiting ssl cfg segments now).ChunkServed none n (Crypto.sha256Hex ssl c) := by
  refine Reader.chunkServed_of_answers visiting_answers (Crypto.sha256Hex_isHashHex ssl c) hp
    (fun _ _ _ _ _ _ _ => not_badTag_plain _) fun s hgrows _ => ?_
  obtain ⟨data, hdata⟩ := Option.isSome_iff_exists.mp (hgrows.chunks _ _ hhas)
  have hhash := hgrows.sound hsound p _ data (Or.inl hdata)
  obtain rfl : data = c := hcollide.eq hhash.symm
  exact ⟨data, acceptChunk_delivers
    (Cluster.chunk_delivered segments (Crypto.sha256Hex_isHashHex ssl data) hc hdata) rfl⟩

theorem visiting_manifestServed (hsound : now.Sound ssl) {upload : Upload ssl} {plan : Plan}
    (hname : upload.Named) (hplan : upload.plan = .ok plan) (hcollide : ssl.NoCollision plan.text)
    {p : PeerEndpoint} (hp : p ∈ cfg.peers) (hhas : now.HasManifest p (plan.hash ssl)) :
    (Reader.visiting ssl cfg segments now).ManifestServed (plan.hash ssl) := by
  refine Reader.manifestServed_of_answers visiting_answers (Upload.hash_isHashHex plan) hp
    fun s hgrows => ?_
  obtain ⟨text, htext⟩ := Option.isSome_iff_exists.mp (hgrows.manifests _ _ hhas)
  have hhash := hgrows.sound hsound p _ text (Or.inr htext)
  obtain rfl : text = plan.text := hcollide.eq hhash.symm
  exact ⟨plan.manifest, acceptManifest_delivers hname hplan (Cluster.manifest_delivered segments
    (Upload.hash_isHashHex plan) (upload.text_fits plan hplan).le htext)⟩

variable [DecidableEq ι]

/-- In every reachable state an upload that has returned is in the stores. -/
theorem shared_of_reachable {uploads : ι → Upload ssl} {disks : ι → LocalDisk}
    (husable : ∀ i, Usable ssl (uploads i).cfg.peers)
    (hplain : ∀ i, (uploads i).cfg.rsaPublicKeyPath = [])
    {pool : Pool Call.Reply Exc PutFileResult Cluster LocalDisk ι}
    (hreach : Pool.Reachable (worldHandle (Cluster.network segments)) (uploadPool uploads disks)
      pool) :
    pool.shared.Sound ssl ∧ Pool.AllHold (worldHandle (Cluster.network segments))
      (Cluster.Grows ssl) (fun i r s => ∀ result, r = .ok result → Shared (uploads i) result s.1)
      pool := by
  obtain ⟨hgrows, hall⟩ := Pool.holds_of_reachable Cluster.Grows.refl
    (fun _ _ _ => Cluster.Grows.trans)
    (fun i r s s' hothers hpost result hresult => (hpost result hresult).stable hothers.1) hreach
    (fun i => putFile_coexists (husable i) (hplain i) (Cluster.empty, disks i))
  exact ⟨hgrows.sound Cluster.sound_empty, hall⟩

/-- **Concurrent plaintext uploads are all retrievable.** In every reachable state of any uploads,
a download of a share id that has been returned, with the others going on meanwhile, returns and
has written the file. -/
theorem concurrent_uploads_retrievable {uploads : ι → Upload ssl} {disks : ι → LocalDisk}
    (husable : ∀ i, Usable ssl (uploads i).cfg.peers)
    (hplain : ∀ i, (uploads i).cfg.rsaPublicKeyPath = [])
    {pool : Pool Call.Reply Exc PutFileResult Cluster LocalDisk ι}
    (hreach : Pool.Reachable (worldHandle (Cluster.network segments)) (uploadPool uploads disks)
      pool)
    {i : ι} {result : PutFileResult} (hname : (uploads i).Named)
    (hreturned : (pool.procs i).1 = .pure result)
    (hcollide : ∀ plan, (uploads i).plan = .ok plan →
      ssl.NoCollision plan.text ∧ ∀ c ∈ plan.chunks, ssl.NoCollision c)
    {cfg : ClientConfig} (hcfg : (uploads i).cfg.peers ⊆ cfg.peers) {outPath : Bytes}
    {disk : LocalDisk} (hlocal : disk.files result.shareUri = none)
    (hwritable : disk.writable outPath = true) {r : Except Exc Unit} {s : Cluster × LocalDisk}
    (hrun : Pool.Guest (worldHandle (Cluster.network segments)) pool
      (getFile ssl cfg result.shareUri outPath) disk r s) :
    r = .ok () ∧ s.2.files outPath = some (uploads i).content := by
  obtain ⟨hsound, hall⟩ := shared_of_reachable husable hplain hreach
  have hdone := hall i
  rw [hreturned] at hdone
  obtain ⟨plan, hplan, huri, hchunks, p, hp, hmanifest⟩ := hdone result rfl
  obtain ⟨htext, hnoCollision⟩ := hcollide plan hplan
  have hpeers : cfg.peers ≠ [] := List.ne_nil_of_mem (hcfg hp)
  rw [huri] at hlocal hrun
  have hguest := @Reader.getFile_retrieves ssl Cluster
    (Reader.visiting ssl cfg segments pool.shared) (uploads i) plan hpeers hname hplan htext
    outPath (pool.shared, disk) (Cluster.Grows.refl _) hlocal hnoCollision ?_ hwritable plan.enc
    (Upload.unwrapKey_plain hplan (hplain i) cfg) ?_
  · exact Pool.Guest.post_of_holds Cluster.Grows.refl (fun _ _ _ => Cluster.Grows.trans)
      (fun i r s s' hothers hpost result hresult => (hpost result hresult).stable hothers.1) hall
      hguest hrun
  · exact visiting_manifestServed hsound hname hplan htext (hcfg hp) hmanifest
  · intro n c hc
    have hmem : c ∈ plan.chunks := List.mem_of_getElem? hc
    obtain ⟨q, hq, hhas⟩ := hchunks c hmem
    rw [Upload.plan_plaintext hplan (hplain i)]
    exact visiting_chunkServed hsound (hnoCollision c hmem) (Upload.plan_fits hplan c hmem)
      (hcfg hq) hhas n

end Pool

def noteStart : Pool Call.Reply Exc PutFileResult Cluster LocalDisk Bool :=
  uploadPool (fun _ => noteUpload) fun _ => {}

def noteRun : Except Exc PutFileResult × Cluster × LocalDisk :=
  (noteStart.procs true).1.run (worldHandle (Cluster.network {}))
    (noteStart.shared, (noteStart.procs true).2)

def notePool : Pool Call.Reply Exc PutFileResult Cluster LocalDisk Bool :=
  { shared := noteRun.2.1
    procs := Function.update noteStart.procs true (Prog.ofExcept noteRun.1, noteRun.2.2) }

theorem notePool_reachable :
    Pool.Reachable (worldHandle (Cluster.network {})) noteStart notePool := by
  unfold notePool noteRun
  exact Pool.reachable_run noteStart true

theorem noteRun_returns : noteRun.1 = .ok ⟨notePlan.shareUri noteSsl,
    str "manifests/note.manifest.txt"⟩ := by
  decide +kernel

theorem notePool_returned : (notePool.procs true).1 = .pure ⟨notePlan.shareUri noteSsl,
    str "manifests/note.manifest.txt"⟩ := by
  simp only [notePool, Function.update_self, noteRun_returns]
  rfl

theorem note_noCollision (plan : Plan) (hplan : noteUpload.plan = .ok plan) :
    noteSsl.NoCollision plan.text ∧ ∀ c ∈ plan.chunks, noteSsl.NoCollision c := by
  have hsame : plan = notePlan := Except.ok.inj (hplan.symm.trans noteUpload_plan)
  rw [hsame]
  exact ⟨noteText_noCollision, noteChunks_noCollision⟩

theorem note_retrievable :
    ((getFile noteSsl noteConfig (notePlan.shareUri noteSsl) (str "out")).run
        (worldHandle (Cluster.network {})) (notePool.shared, {})).1 = .ok () ∧
      ((getFile noteSsl noteConfig (notePlan.shareUri noteSsl) (str "out")).run
        (worldHandle (Cluster.network {})) (notePool.shared, {})).2.2.files (str "out") =
          some (str "hi!") :=
  @concurrent_uploads_retrievable noteSsl Bool {} _ (fun _ => noteUpload) (fun _ => {})
    (fun _ => ⟨⟨str "10.0.0.2", 9000⟩, by decide, by decide +kernel⟩) (fun _ => rfl) notePool
    notePool_reachable true _ (by decide) notePool_returned note_noCollision noteConfig
    (List.Subset.refl _) (str "out") {} rfl rfl _ _ (Pool.Guest.run notePool _ {})

end DecentStore
