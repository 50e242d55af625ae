import DecentStore.Lib.Cell
import DecentStore.Proof.HonestPeers
import DecentStore.Proof.Sealing

/-!
# What an upload does to each cell

A cell is what one peer has under one id. An upload that has the peer among the targets of the id
touches the cell once for each chunk with that id: a plaintext upload fills it, an encrypted one
overwrites it. So what the cells hold after any sequence of uploads, also of those that throw, is
the abstract cell after all the touches.
-/

namespace DecentStore

open Bytes Interaction DssClient

section Alone

variable {segments : Cluster.Segments} {id data : Bytes} (peer : PeerEndpoint)
  (s : Cluster × LocalDisk)

theorem run_putChunk (hid : IsHashHex id) (hdata : data.length ≤ maxSize) :
    (PeerClient.putChunk peer id data).run (worldHandle (Cluster.network segments)) s =
      (.ok (), s.1.putChunk peer id data, s.2) := by
  have hholds := @PeerClient.putChunk_holds segments Eq (fun _ _ => True) id data peer s hid hdata
    (fun r s' => (r, s') = (.ok (), s.1.putChunk peer id data, s.2)) (by rintro s' rfl; simp)
  exact Prog.post_of_holds (fun _ => rfl) hholds

theorem run_putManifest (hid : IsHashHex id) (hdata : data.length ≤ maxSize) :
    (PeerClient.putManifest peer id data).run (worldHandle (Cluster.network segments)) s =
      (.ok (), s.1.putManifest peer id data, s.2) := by
  have hholds := @PeerClient.putManifest_holds segments Eq (fun _ _ => True) id data peer s hid
    hdata (fun r s' => (r, s') = (.ok (), s.1.putManifest peer id data, s.2))
    (by rintro s' rfl; simp)
  exact Prog.post_of_holds (fun _ => rfl) hholds

theorem run_hasChunk (hid : IsHashHex id) :
    (PeerClient.hasChunk peer id).run (worldHandle (Cluster.network segments)) s =
      (.ok ((s.1 peer).chunks id).isSome, s) := by
  have hholds := @PeerClient.hasChunk_holds segments Eq (fun _ _ => True) id peer s hid
    (fun r s' => (r, s') = (.ok ((s.1 peer).chunks id).isSome, s)) (by rintro s' rfl; simp)
  exact Prog.post_of_holds (fun _ => rfl) hholds

theorem run_putAll {put : PeerEndpoint → ClientProg Unit}
    {step : Cluster → PeerEndpoint → Cluster}
    (hput : ∀ p s, (put p).run (worldHandle (Cluster.network segments)) s =
      (.ok (), step s.1 p, s.2)) (targets : List PeerEndpoint) :
    (putAll put targets).run (worldHandle (Cluster.network segments)) s =
      (.ok (), targets.foldl step s.1, s.2) := by
  induction targets generalizing s with
  | nil => rfl
  | cons p targets ih =>
      unfold putAll
      rw [Prog.run_bind_of_ok (hput p s), ih]
      rfl

end Alone

/-! ### The same bytes on several peers -/

namespace Cluster

def putChunks (cluster : Cluster) (targets : List PeerEndpoint) (id data : Bytes) : Cluster :=
  targets.foldl (fun cluster p => cluster.putChunk p id data) cluster

def putManifests (cluster : Cluster) (targets : List PeerEndpoint) (id text : Bytes) : Cluster :=
  targets.foldl (fun cluster p => cluster.putManifest p id text) cluster

variable (cluster : Cluster) (targets : List PeerEndpoint) (id data : Bytes) (q : PeerEndpoint)
  (i : Bytes)

@[simp]
theorem chunks_putChunks : ((cluster.putChunks targets id data) q).chunks i =
    if q ∈ targets ∧ i = id then some data else (cluster q).chunks i := by
  induction targets generalizing cluster with
  | nil => simp [putChunks]
  | cons p targets ih =>
      have hrest := ih (cluster.putChunk p id data)
      unfold putChunks at hrest ⊢
      rw [List.foldl_cons, hrest, chunks_putChunk]
      by_cases hi : i = id
      · by_cases hp : q = p <;> simp [hi, hp]
      · simp [hi]

@[simp]
theorem manifests_putChunks :
    ((cluster.putChunks targets id data) q).manifests i = (cluster q).manifests i := by
  induction targets generalizing cluster with
  | nil => rfl
  | cons p targets ih =>
      calc ((cluster.putChunks (p :: targets) id data) q).manifests i
          = ((cluster.putChunk p id data) q).manifests i := ih (cluster.putChunk p id data)
        _ = (cluster q).manifests i := manifests_putChunk ..

@[simp]
theorem chunks_putManifests :
    ((cluster.putManifests targets id data) q).chunks i = (cluster q).chunks i := by
  induction targets generalizing cluster with
  | nil => rfl
  | cons p targets ih =>
      calc ((cluster.putManifests (p :: targets) id data) q).chunks i
          = ((cluster.putManifest p id data) q).chunks i := ih (cluster.putManifest p id data)
        _ = (cluster q).chunks i := chunks_putManifest ..

@[simp]
theorem manifests_putManifests : ((cluster.putManifests targets id data) q).manifests i =
    if q ∈ targets ∧ i = id then some data else (cluster q).manifests i := by
  induction targets generalizing cluster with
  | nil => simp [putManifests]
  | cons p targets ih =>
      have hrest := ih (cluster.putManifest p id data)
      unfold putManifests at hrest ⊢
      rw [List.foldl_cons, hrest, manifests_putManifest]
      by_cases hi : i = id
      · by_cases hp : q = p <;> simp [hi, hp]
      · simp [hi]

end Cluster

/-! ### One chunk -/

section Chunk

variable {ssl : OpenSsl} {segments : Cluster.Segments} (s : Cluster × LocalDisk)

def missingTargets (cluster : Cluster) (id : Bytes) (targets : List PeerEndpoint) :
    List PeerEndpoint :=
  targets.filter fun p => ((cluster p).chunks id).isNone

theorem run_probe {cid : Bytes} (hid : IsHashHex cid) (targets : List PeerEndpoint) :
    (probe cid targets).run (worldHandle (Cluster.network segments)) s =
      (.ok ((targets.length : Int) - (missingTargets s.1 cid targets).length,
        missingTargets s.1 cid targets), s) := by
  induction targets with
  | nil => rfl
  | cons p targets ih =>
      unfold probe
      rw [Prog.run_bind_of_ok (run_hasChunk p s hid), Prog.run_bind_of_ok ih]
      cases hcell : (s.1 p).chunks cid with
      | none =>
          simp only [Option.isSome_none, Bool.false_eq_true, ↓reduceIte, missingTargets,
            List.filter_cons, hcell, Option.isNone_none, List.length_cons, Prog.run_pure]
          push_cast
          ring_nf
      | some data =>
          simp only [Option.isSome_some, ↓reduceIte, missingTargets, List.filter_cons, hcell,
            Option.isNone_some, Bool.false_eq_true, List.length_cons, Prog.run_pure]
          push_cast
          ring_nf

theorem run_putMissing {cid data : Bytes} (hid : IsHashHex cid) (hdata : data.length ≤ maxSize)
    (missing : List PeerEndpoint) {needed : Int} (hneeded : missing.length ≤ needed) :
    (putMissing cid data needed missing).run (worldHandle (Cluster.network segments)) s =
      (.ok (), s.1.putChunks missing cid data, s.2) := by
  induction missing generalizing s needed with
  | nil => rfl
  | cons p missing ih =>
      rw [List.length_cons] at hneeded
      push_cast at hneeded
      unfold putMissing
      rw [Prog.run_bind_of_ok (run_putChunk p s hid hdata)]
      by_cases hlast : needed - 1 ≤ 0
      · have hnil : missing = [] := List.eq_nil_of_length_eq_zero (by omega)
        rw [if_pos hlast, hnil]
        rfl
      · rw [if_neg hlast, ih _ (by omega)]
        rfl

theorem run_uploadChunk_plain {upload : Upload ssl} (hpeers : upload.cfg.peers ≠ []) {c : Bytes}
    (hc : c.length ≤ maxSize) (chunkIndex : UInt64) :
    (uploadChunk ssl ⟨DhtNode.tableOf ssl upload.cfg.peers⟩ (clampReplicas upload.cfg) none
      chunkIndex c).run (worldHandle (Cluster.network segments)) s =
      (.ok (), s.1.putChunks (missingTargets s.1 (Crypto.sha256Hex ssl c)
        (upload.targets (Crypto.sha256Hex ssl c))) (Crypto.sha256Hex ssl c) c, s.2) := by
  have hid := Crypto.sha256Hex_isHashHex ssl c
  have hlength := Upload.length_targets_le hpeers (Crypto.sha256Hex ssl c)
  unfold uploadChunk
  simp only [Upload.store_targets, Prog.ofExcept_ok_bind]
  rw [Prog.run_bind_of_ok (run_probe s hid _)]
  simp only
  split
  · exact run_putMissing s hid hc _ (by omega)
  · have hnil : missingTargets s.1 (Crypto.sha256Hex ssl c)
        (upload.targets (Crypto.sha256Hex ssl c)) = [] :=
      List.eq_nil_of_length_eq_zero (by omega)
    rw [hnil]
    rfl

theorem run_uploadChunk_sealed {upload : Upload ssl} {c : Bytes}
    {params : Crypto.FileEncryptionParams} {chunkIndex : UInt64} {toSend : Bytes}
    (hseal : Crypto.aesGcmEncrypt ssl c params.key params.iv chunkIndex = .ok toSend)
    (hfits : toSend.length ≤ maxSize) :
    (uploadChunk ssl ⟨DhtNode.tableOf ssl upload.cfg.peers⟩ (clampReplicas upload.cfg)
      (some params) chunkIndex c).run (worldHandle (Cluster.network segments)) s =
      (.ok (), s.1.putChunks (upload.targets (Crypto.sha256Hex ssl c)) (Crypto.sha256Hex ssl c)
        toSend, s.2) := by
  unfold uploadChunk
  simp only [hseal, Upload.store_targets, Prog.ofExcept_ok_bind]
  exact run_putAll s (fun p s => run_putChunk p s (Crypto.sha256Hex_isHashHex ssl c) hfits) _

end Chunk

/-! ### Touches -/

section Touches

variable (ssl : OpenSsl)

/-- The touch of one chunk, if it can be sent. -/
def touchOf (enc : Encryption) (n : Nat) (c : Bytes) : Except Exc (Touch Bytes) :=
  match enc with
  | none => .ok (.fill c)
  | some params =>
      (Crypto.aesGcmEncrypt ssl c params.key params.iv (UInt64.ofNat n)).map .overwrite

/-- The touches of the chunks from position `n` on under one id. An upload ends at a chunk it cannot
send. -/
def touchesFrom (enc : Encryption) (id : Bytes) : Nat → List Bytes → List (Touch Bytes)
  | _, [] => []
  | n, c :: chunks =>
      match touchOf ssl enc n c with
      | .error _ => []
      | .ok touch =>
          if Crypto.sha256Hex ssl c = id then touch :: touchesFrom enc id (n + 1) chunks
          else touchesFrom enc id (n + 1) chunks

def WholeKey (enc : Encryption) : Prop := ∀ params, enc = some params → params.iv.length = 12

/-- A chunk that is sent as it is, or can be encrypted. -/
def Sendable (enc : Encryption) (c : Bytes) : Prop := enc = none ∨ Crypto.Sealable c.length

instance (enc : Encryption) (c : Bytes) : Decidable (Sendable enc c) :=
  inferInstanceAs (Decidable (_ ∨ _))

variable {ssl} {enc : Encryption} {segments : Cluster.Segments} {upload : Upload ssl}

theorem touchOf_cases (henc : WholeKey enc) {c : Bytes} (hc : c.length ≤ maxSize) (n : Nat) :
    (¬ Sendable enc c ∧ ∃ e, touchOf ssl enc n c = .error e) ∨
      (Sendable enc c ∧ ∃ touch, touchOf ssl enc n c = .ok touch ∧
        touch.data.length ≤ maxSize ∧ (touch.Overwrites ↔ enc ≠ none) ∧
        (enc = none → touch = .fill c) ∧ (enc ≠ none → touch.data.length ≠ c.length)) := by
  cases enc with
  | none =>
      refine Or.inr ⟨Or.inl rfl, .fill c, rfl, hc, ?_, fun _ => rfl, fun hne => absurd rfl hne⟩
      constructor
      · rintro ⟨data, hdata⟩
        cases hdata
      · exact fun hne => absurd rfl hne
  | some params =>
      rcases Crypto.aesGcmEncrypt_cases ssl c params.key (henc params rfl) (UInt64.ofNat n) with
        ⟨hnot, e, he⟩ | ⟨hseal, toSend, hsend, hlength, hother⟩
      · refine Or.inl ⟨?_, e, by rw [touchOf, he]; rfl⟩
        rintro (hnone | hseal)
        · cases hnone
        · exact hnot hseal
      · refine Or.inr ⟨Or.inr hseal, .overwrite toSend, by rw [touchOf, hsend]; rfl, ?_, ?_, ?_,
          fun _ => hother⟩
        · exact (show toSend.length ≤ maxSize from hlength.le.trans (by decide))
        · exact ⟨fun _ => Option.some_ne_none _, fun _ => ⟨toSend, rfl⟩⟩
        · exact fun hnone => absurd hnone (Option.some_ne_none _)

/-- **One chunk touches its cells** on the targets, and no others. -/
theorem run_uploadChunk (hpeers : upload.cfg.peers ≠ []) (henc : WholeKey enc) {c : Bytes}
    (hc : c.length ≤ maxSize) (n : Nat) (s : Cluster × LocalDisk) {touch : Touch Bytes}
    (htouch : touchOf ssl enc n c = .ok touch) :
    ∃ cluster, (uploadChunk ssl ⟨DhtNode.tableOf ssl upload.cfg.peers⟩ (clampReplicas upload.cfg)
        enc (UInt64.ofNat n) c).run (worldHandle (Cluster.network segments)) s =
          (.ok (), cluster, s.2) ∧
      (∀ q i, (cluster q).chunks i =
        if q ∈ upload.targets i ∧ Crypto.sha256Hex ssl c = i then
          touch.apply ((s.1 q).chunks i) else (s.1 q).chunks i) ∧
      ∀ q i, (cluster q).manifests i = (s.1 q).manifests i := by
  rcases touchOf_cases henc hc n with ⟨-, e, he⟩ | ⟨-, touch', htouch', hfits, hover, hfill, -⟩
  · rw [he] at htouch
    cases htouch
  rw [htouch'] at htouch
  cases htouch
  cases enc with
  | none =>
      obtain rfl := hfill rfl
      refine ⟨_, run_uploadChunk_plain s hpeers hc _, fun q i => ?_, fun q i => ?_⟩
      · rw [Cluster.chunks_putChunks]
        by_cases hid : i = Crypto.sha256Hex ssl c
        · subst hid
          cases hcell : (s.1 q).chunks (Crypto.sha256Hex ssl c) <;>
            simp [missingTargets, hcell, Touch.apply]
        · simp [hid, Ne.symm hid]
      · rw [Cluster.manifests_putChunks]
  | some params =>
      obtain ⟨toSend, rfl⟩ := hover.mpr (Option.some_ne_none _)
      have hseal : Crypto.aesGcmEncrypt ssl c params.key params.iv (UInt64.ofNat n) =
          .ok toSend := by
        cases hsealed : Crypto.aesGcmEncrypt ssl c params.key params.iv (UInt64.ofNat n) with
        | error e => simp [touchOf, hsealed, Except.map] at htouch'
        | ok data =>
            simp only [touchOf, hsealed, Except.map, Except.ok.injEq] at htouch'
            rw [Touch.overwrite.inj htouch']
      refine ⟨_, run_uploadChunk_sealed s hseal hfits, fun q i => ?_, fun q i => ?_⟩
      · rw [Cluster.chunks_putChunks]
        by_cases hid : i = Crypto.sha256Hex ssl c
        · subst hid
          simp [Touch.apply]
        · simp [hid, Ne.symm hid]
      · rw [Cluster.manifests_putChunks]

theorem run_uploadChunk_error {c : Bytes} (n : Nat) (s : Cluster × LocalDisk) {e : Exc}
    (htouch : touchOf ssl enc n c = .error e) :
    (uploadChunk ssl ⟨DhtNode.tableOf ssl upload.cfg.peers⟩ (clampReplicas upload.cfg) enc
      (UInt64.ofNat n) c).run (worldHandle (Cluster.network segments)) s = (.error e, s) := by
  cases enc with
  | none => cases htouch
  | some params =>
      cases hsealed : Crypto.aesGcmEncrypt ssl c params.key params.iv (UInt64.ofNat n) with
      | error e' =>
          simp only [touchOf, hsealed, Except.map, Except.error.injEq] at htouch
          unfold uploadChunk
          simp only [hsealed, Prog.ofExcept_error_bind, htouch, Prog.run_throw]
      | ok data => simp [touchOf, hsealed, Except.map] at htouch

/-- **The chunks of an upload touch the cells one after another**, up to the first that cannot be
sent. -/
theorem run_uploadChunks (hpeers : upload.cfg.peers ≠ []) (henc : WholeKey enc)
    {chunks : List Bytes} (hchunks : ∀ c ∈ chunks, c.length ≤ maxSize) (n : Nat)
    (s : Cluster × LocalDisk) :
    ∃ r cluster, (uploadChunks ssl ⟨DhtNode.tableOf ssl upload.cfg.peers⟩
        (clampReplicas upload.cfg) enc (UInt64.ofNat n) chunks).run
          (worldHandle (Cluster.network segments)) s = (r, cluster, s.2) ∧
      (∀ q i, (cluster q).chunks i = Touch.after ((s.1 q).chunks i)
        (if q ∈ upload.targets i then touchesFrom ssl enc i n chunks else [])) ∧
      (∀ q i, (cluster q).manifests i = (s.1 q).manifests i) ∧
      (r = .ok () → ∀ c ∈ chunks, Sendable enc c) := by
  induction chunks generalizing n s with
  | nil => exact ⟨.ok (), s.1, rfl, by simp [touchesFrom, Touch.after], fun _ _ => rfl, by simp⟩
  | cons c chunks ih =>
      have hc := hchunks c List.mem_cons_self
      have hrest := fun d hd => hchunks d (List.mem_cons_of_mem c hd)
      unfold uploadChunks
      rcases @touchOf_cases ssl enc henc c hc n with ⟨hsend, e, he⟩ | ⟨hsend, touch, htouch, -⟩
      · rw [Prog.run_bind_of_error (run_uploadChunk_error n s he)]
        refine ⟨.error e, s.1, rfl, ?_, fun _ _ => rfl, fun hr => by cases hr⟩
        intro q i
        rw [touchesFrom, he]
        simp [Touch.after]
      · obtain ⟨cluster, hrun, hcells, hmanifests⟩ :=
          @run_uploadChunk ssl enc segments upload hpeers henc c hc n s touch htouch
        obtain ⟨r, cluster', hrun', hcells', hmanifests', hall⟩ := ih hrest (n + 1) (cluster, s.2)
        rw [Prog.run_bind_of_ok hrun, ofNat_succ, hrun']
        refine ⟨r, cluster', rfl, fun q i => ?_, fun q i => ?_, fun hr d hd => ?_⟩
        · rw [hcells', hcells, touchesFrom, htouch]
          by_cases hq : q ∈ upload.targets i
          · by_cases hid : Crypto.sha256Hex ssl c = i
            · simp only [hq, hid, and_self, ↓reduceIte]
              rfl
            · simp only [hq, hid, and_false, ↓reduceIte]
          · simp only [hq, false_and, ↓reduceIte]
        · rw [hmanifests', hmanifests]
        · rcases List.mem_cons.mp hd with rfl | hd
          · exact hsend
          · exact hall hr d hd

end Touches

/-! ### One upload -/

namespace Upload

variable {ssl : OpenSsl} {segments : Cluster.Segments} (upload : Upload ssl)

/-- What an upload does to one cell. -/
def touches (peer : PeerEndpoint) (id : Bytes) : List (Touch Bytes) :=
  match upload.plan with
  | .error _ => []
  | .ok plan => if peer ∈ upload.targets id then touchesFrom ssl plan.enc id 0 plan.chunks else []

variable {upload} {plan : Plan}

theorem plan_wholeKey (hplan : upload.plan = .ok plan) : WholeKey plan.enc := by
  intro params hparams
  rcases plan_encryption hplan with ⟨-, henc, -⟩ | ⟨-, henc, -⟩
  · rw [henc] at hparams
    cases hparams
  · rw [henc] at hparams
    cases hparams
    exact upload.fileKey.iv_length

theorem touches_of_plan (hplan : upload.plan = .ok plan) (q : PeerEndpoint) (i : Bytes) :
    upload.touches q i =
      if q ∈ upload.targets i then touchesFrom ssl plan.enc i 0 plan.chunks else [] := by
  rw [touches, hplan]

theorem run_putManifests (hplan : upload.plan = .ok plan) (s : Cluster × LocalDisk)
    (targets : List PeerEndpoint) :
    (putAll (fun p => PeerClient.putManifest p (plan.hash ssl) plan.text) targets).run
        (worldHandle (Cluster.network segments)) s =
      (.ok (), s.1.putManifests targets (plan.hash ssl) plan.text, s.2) :=
  run_putAll s
    (fun p s => run_putManifest p s (hash_isHashHex plan) (upload.text_fits plan hplan).le)
    targets

variable (upload)

/-- What an upload leaves behind, whether it returns or throws. -/
structure Effect (before : Cluster) (r : Except Exc PutFileResult) (after : Cluster) : Prop where
  chunks : ∀ q i, (after q).chunks i = Touch.after ((before q).chunks i) (upload.touches q i)
  manifests : ∀ q i, (after q).manifests i = (before q).manifests i ∨
    ∃ plan, upload.plan = .ok plan ∧ i = plan.hash ssl ∧
      q ∈ upload.targets (str "manifest:" ++ plan.hash ssl) ∧
      (after q).manifests i = some plan.text
  returned : ∀ result, r = .ok result → ∃ plan, upload.plan = .ok plan ∧
    result.shareUri = plan.shareUri ssl ∧ (∀ c ∈ plan.chunks, Sendable plan.enc c) ∧
    ∀ q ∈ upload.targets (str "manifest:" ++ plan.hash ssl),
      (after q).manifests (plan.hash ssl) = some plan.text

theorem Effect.of_nothing (htouches : ∀ q i, upload.touches q i = []) (cluster : Cluster)
    (e : Exc) : upload.Effect cluster (.error e) cluster where
  chunks q i := by rw [htouches, Touch.after, List.foldl_nil]
  manifests _ _ := Or.inl rfl
  returned _ hresult := by cases hresult

theorem run_perform (hpeers : upload.cfg.peers ≠ []) (hplan : upload.plan = .ok plan)
    (s : Cluster × LocalDisk) :
    upload.Effect s.1 ((upload.perform plan).run (worldHandle (Cluster.network segments)) s).1
      ((upload.perform plan).run (worldHandle (Cluster.network segments)) s).2.1 := by
  obtain ⟨r, cluster, hrun, hcells, hmanifests, hall⟩ :=
    @run_uploadChunks ssl plan.enc segments upload hpeers (plan_wholeKey hplan) plan.chunks
      (plan_fits hplan) 0 s
  have htouches : ∀ q i, (cluster q).chunks i =
      Touch.after ((s.1 q).chunks i) (upload.touches q i) := fun q i => by
    rw [hcells, touches_of_plan hplan]
  rw [show UInt64.ofNat 0 = 0 from rfl] at hrun
  simp only [perform, store_targets, Prog.ofExcept_ok_bind]
  cases r with
  | error e =>
      rw [Prog.run_bind_of_error hrun]
      exact ⟨htouches, fun q i => Or.inl (hmanifests q i), fun _ hresult => by cases hresult⟩
  | ok done =>
      rw [Prog.run_bind_of_ok hrun, Prog.run_bind_of_ok (run_putManifests hplan _ _)]
      have hlocal := (writeLocalManifest_offline upload.cfg plan.manifest).run_fst
        (Cluster.network segments) (cluster.putManifests (upload.targets (str "manifest:" ++
          plan.hash ssl)) (plan.hash ssl) plan.text, s.2)
      have hshared : ∀ (r : Except Exc PutFileResult) (after : Cluster),
          after = cluster.putManifests (upload.targets (str "manifest:" ++ plan.hash ssl))
            (plan.hash ssl) plan.text →
          (∀ result, r = .ok result → result.shareUri = plan.shareUri ssl) →
          upload.Effect s.1 r after := by
        rintro r after rfl huri
        refine ⟨fun q i => ?_, fun q i => ?_, fun result hresult =>
          ⟨plan, hplan, huri result hresult, hall rfl, fun q hq => ?_⟩⟩
        · rw [Cluster.chunks_putManifests, htouches]
        · rw [Cluster.manifests_putManifests, hmanifests]
          by_cases hcell : q ∈ upload.targets (str "manifest:" ++ plan.hash ssl) ∧ i = plan.hash ssl
          · rw [if_pos hcell]
            exact Or.inr ⟨plan, hplan, hcell.2, hcell.1, rfl⟩
          · rw [if_neg hcell]
            exact Or.inl rfl
        · rw [Cluster.manifests_putManifests, if_pos ⟨hq, rfl⟩]
      rw [Prog.run_bind]
      split
      · rename_i path s' hwrite
        rw [hwrite] at hlocal
        refine hshared _ _ hlocal fun result hresult => ?_
        cases hresult
        rfl
      · rename_i e s' hwrite
        rw [hwrite] at hlocal
        exact hshared _ _ hlocal fun result hresult => by cases hresult

theorem run_putFile (s : Cluster × LocalDisk) :
    upload.Effect s.1 (upload.putFile.run (worldHandle (Cluster.network segments)) s).1
      (upload.putFile.run (worldHandle (Cluster.network segments)) s).2.1 := by
  by_cases hplan : ∃ plan, upload.plan = .ok plan
  · obtain ⟨plan, hplan⟩ := hplan
    by_cases hpeers : upload.cfg.peers = []
    · rw [putFile_no_peers hpeers]
      refine Effect.of_nothing upload (fun q i => ?_) s.1 noPeers
      have hnone : q ∉ upload.targets i := fun hq => by
        have hmem := upload.targets_subset i hq
        rw [hpeers] at hmem
        exact absurd hmem List.not_mem_nil
      rw [touches_of_plan hplan, if_neg hnone]
    · rw [putFile_of_plan hpeers hplan]
      exact upload.run_perform hpeers hplan s
  · have hnone : ∀ plan, upload.plan ≠ .ok plan := fun plan hok => hplan ⟨plan, hok⟩
    obtain ⟨e, he⟩ := putFile_of_error hnone
    rw [he]
    refine Effect.of_nothing upload (fun q i => ?_) s.1 e
    unfold touches
    split
    · rfl
    · rename_i plan hok
      exact absurd hok (hnone plan)

end Upload

section Calls

variable {ssl : OpenSsl} (segments : Cluster.Segments)

def afterCalls : List (Upload ssl × LocalDisk) → Cluster → Cluster
  | [], cluster => cluster
  | (upload, disk) :: calls, cluster => afterCalls calls
      (upload.putFile.run (worldHandle (Cluster.network segments)) (cluster, disk)).2.1

def callTouches (calls : List (Upload ssl × LocalDisk)) (peer : PeerEndpoint) (id : Bytes) :
    List (Touch Bytes) :=
  calls.flatMap fun call => call.1.touches peer id

/-- **A cell after any calls** is the abstract cell after all their touches. -/
theorem chunks_afterCalls (calls : List (Upload ssl × LocalDisk)) (cluster : Cluster)
    (q : PeerEndpoint) (i : Bytes) : ((afterCalls segments calls cluster) q).chunks i =
      Touch.after ((cluster q).chunks i) (callTouches calls q i) := by
  induction calls generalizing cluster with
  | nil => rfl
  | cons call calls ih =>
      obtain ⟨upload, disk⟩ := call
      have heffect := @Upload.run_putFile ssl segments upload (cluster, disk)
      have hsplit : callTouches ((upload, disk) :: calls) q i =
          upload.touches q i ++ callTouches calls q i := List.flatMap_cons
      calc ((afterCalls segments ((upload, disk) :: calls) cluster) q).chunks i
          = Touch.after (Touch.after ((cluster q).chunks i) (upload.touches q i))
              (callTouches calls q i) := by rw [afterCalls, ih, heffect.chunks]
        _ = Touch.after ((cluster q).chunks i) (upload.touches q i ++ callTouches calls q i) :=
              (Touch.after_append ..).symm
        _ = Touch.after ((cluster q).chunks i) (callTouches ((upload, disk) :: calls) q i) := by
              rw [hsplit]

theorem manifests_afterCalls {text : Bytes} (hcollide : ssl.NoCollision text) {q : PeerEndpoint}
    (calls : List (Upload ssl × LocalDisk)) {cluster : Cluster}
    (hstored : (cluster q).manifests (Crypto.sha256Hex ssl text) = some text) :
    ((afterCalls segments calls cluster) q).manifests (Crypto.sha256Hex ssl text) = some text := by
  induction calls generalizing cluster with
  | nil => exact hstored
  | cons call calls ih =>
      obtain ⟨upload, disk⟩ := call
      have heffect := @Upload.run_putFile ssl segments upload (cluster, disk)
      refine ih ?_
      rcases heffect.manifests q (Crypto.sha256Hex ssl text) with
        hsame | ⟨plan, -, hhash, -, hnew⟩
      · exact hsame.trans hstored
      · obtain hsame : plan.text = text := hcollide.eq hhash.symm
        rw [← hsame] at hnew ⊢
        exact hnew

end Calls

end DecentStore
