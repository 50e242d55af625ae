import DecentStore.Proof.Retrieval

/-!
# Uploads that overwrite each other

An encrypted chunk is stored under the hash of its plaintext, but what is stored depends on the key
of the upload and on the position of the chunk. So an encrypted upload takes the place of what any
other has stored for a chunk of the same bytes, and a file takes the place of its own chunks. What
is left of an upload follows from which of the others have sent the same chunk to the same peers.
-/

namespace DecentStore

open Bytes Interaction DssClient

section Sealed

variable {ssl : OpenSsl} {params other : Crypto.FileEncryptionParams} {c data : Bytes} {j : Nat}

theorem sealed_eq (hlength : params.iv.length = 12) (hshort : c.length < 2 ^ 31)
    (htouch : touchOf ssl (some params) j c = .ok (.overwrite data)) :
    ∃ iv, Crypto.deriveChunkIv params.iv (UInt64.ofNat j) = .ok iv ∧
      data = (ssl.gcmEncrypt params.key iv c).1 ++ (ssl.gcmEncrypt params.key iv c).2 := by
  have hiv := Crypto.deriveChunkIv_eq hlength (UInt64.ofNat j)
  refine ⟨_, hiv, ?_⟩
  have hseal : Crypto.Sealable c.length := by
    by_contra hnot
    obtain ⟨e, he⟩ := Crypto.aesGcmEncrypt_not_sealable ssl params.key hiv hnot
    rw [touchOf, he] at htouch
    cases htouch
  rw [touchOf, Crypto.aesGcmEncrypt_short hiv hshort hseal] at htouch
  exact (Touch.overwrite.inj (Except.ok.inj htouch)).symm

/-- **A chunk opens at the positions with its IV** and at no others. -/
theorem openChunk_sealed_iff (hlength : params.iv.length = 12) (hshort : c.length < 2 ^ 31)
    (hreject : ssl.Rejects params params)
    (htouch : touchOf ssl (some params) j c = .ok (.overwrite data)) (n : Nat) :
    openChunk ssl (some params) (UInt64.ofNat n) data = .ok c ↔ n % 2 ^ 32 = j % 2 ^ 32 := by
  obtain ⟨iv, hiv, rfl⟩ := sealed_eq hlength hshort htouch
  have hiv' := Crypto.deriveChunkIv_eq hlength (UInt64.ofNat n)
  rw [← Crypto.deriveChunkIv_eq_iff hlength, hiv, hiv', openChunk,
    Crypto.aesGcmDecrypt_short hshort hiv']
  constructor
  · intro hopen
    by_contra hother
    have hne : (params.key, iv) ≠ (params.key, _) := fun hsame =>
      hother (congrArg Except.ok (Prod.ext_iff.mp hsame).2.symm)
    rw [hreject _ _ _ _ c hiv hiv' hne] at hopen
    cases hopen
  · intro hsame
    rw [Except.ok.inj hsame, ssl.gcmDecrypt_gcmEncrypt]

/-- **A chunk sealed under another key** is bytes on which the download ends. -/
theorem badTag_foreign (hlength : params.iv.length = 12) (hother : other.iv.length = 12)
    (hshort : c.length < 2 ^ 31) (hkey : other.key ≠ params.key)
    (hreject : ssl.Rejects other params)
    (htouch : touchOf ssl (some other) j c = .ok (.overwrite data)) (idx : UInt64) :
    BadTag ssl (some params) idx data := by
  obtain ⟨iv, hiv, rfl⟩ := sealed_eq hother hshort htouch
  have hiv' := Crypto.deriveChunkIv_eq hlength idx
  rw [BadTag, openChunk, Crypto.aesGcmDecrypt_short hshort hiv',
    hreject _ _ _ _ c hiv hiv' fun hsame => hkey (Prod.ext_iff.mp hsame).1]

end Sealed

/-! ### Who touches a cell -/

section Touching

variable {ssl : OpenSsl} {enc : Encryption} {id : Bytes} {n : Nat} {chunks : List Bytes}

theorem mem_touchesFrom (henc : WholeKey enc) (hfit : ∀ c ∈ chunks, c.length ≤ maxSize)
    {touch : Touch Bytes} (htouch : touch ∈ touchesFrom ssl enc id n chunks) :
    ∃ i c, chunks[i]? = some c ∧ Crypto.sha256Hex ssl c = id ∧
      touchOf ssl enc (n + i) c = .ok touch ∧ c ∈ chunks.takeWhile fun c => Sendable enc c := by
  induction chunks generalizing n with
  | nil => exact absurd htouch List.not_mem_nil
  | cons c chunks ih =>
      have hfit' := fun d hd => hfit d (List.mem_cons_of_mem c hd)
      rw [touchesFrom] at htouch
      rcases @touchOf_cases ssl enc henc c (hfit c List.mem_cons_self) n with
        ⟨-, e, he⟩ | ⟨hsend, first, hfirst, -⟩
      · simp [he] at htouch
      · simp only [hfirst] at htouch
        have hlater : touch ∈ touchesFrom ssl enc id (n + 1) chunks → ∃ i d,
            (c :: chunks)[i]? = some d ∧ Crypto.sha256Hex ssl d = id ∧
              touchOf ssl enc (n + i) d = .ok touch ∧
              d ∈ (c :: chunks).takeWhile fun c => Sendable enc c := by
          intro hmem
          obtain ⟨i, d, hd, hid, htouchOf, hsent⟩ := ih hfit' hmem
          rw [Nat.add_assoc, Nat.add_comm 1 i] at htouchOf
          refine ⟨i + 1, d, hd, hid, htouchOf, ?_⟩
          rw [List.takeWhile_cons_of_pos (by simpa using hsend)]
          exact List.mem_cons_of_mem c hsent
        split at htouch
        · rename_i hid
          rcases List.mem_cons.mp htouch with rfl | hmem
          · refine ⟨0, c, rfl, hid, hfirst, ?_⟩
            rw [List.takeWhile_cons_of_pos (by simpa using hsend)]
            exact List.mem_cons_self
          · exact hlater hmem
        · exact hlater htouch

theorem exists_touch (henc : WholeKey enc) (hfit : ∀ c ∈ chunks, c.length ≤ maxSize) {c : Bytes}
    (hsent : c ∈ chunks.takeWhile fun c => Sendable enc c) :
    ∃ touch, touch ∈ touchesFrom ssl enc (Crypto.sha256Hex ssl c) n chunks := by
  induction chunks generalizing n with
  | nil => exact absurd hsent List.not_mem_nil
  | cons d chunks ih =>
      have hfit' := fun d' hd => hfit d' (List.mem_cons_of_mem d hd)
      rcases @touchOf_cases ssl enc henc d (hfit d List.mem_cons_self) n with
        ⟨hnot, -⟩ | ⟨hsend, first, hfirst, -⟩
      · rw [List.takeWhile_cons_of_neg (by simpa using hnot)] at hsent
        exact absurd hsent List.not_mem_nil
      · rw [List.takeWhile_cons_of_pos (by simpa using hsend)] at hsent
        rw [touchesFrom]
        simp only [hfirst]
        by_cases hid : Crypto.sha256Hex ssl d = Crypto.sha256Hex ssl c
        · rw [if_pos hid]
          exact ⟨first, List.mem_cons_self⟩
        · rw [if_neg hid]
          rcases List.mem_cons.mp hsent with rfl | hlater
          · exact absurd rfl hid
          · exact ih hfit' hlater

end Touching

namespace Upload

variable {ssl : OpenSsl} (upload : Upload ssl)

def Encrypted : Prop := upload.cfg.rsaPublicKeyPath ≠ []

instance : Decidable upload.Encrypted := inferInstanceAs (Decidable (_ ≠ _))

/-- The upload sends the chunk, and to this peer. A chunk after one that cannot be encrypted is not
sent. -/
def Places (c : Bytes) (p : PeerEndpoint) : Prop :=
  ∃ plan, upload.plan = .ok plan ∧ (c ∈ plan.chunks.takeWhile fun c => Sendable plan.enc c) ∧
    p ∈ upload.targets (Crypto.sha256Hex ssl c)

variable {upload} {plan : Plan} {c : Bytes} {p : PeerEndpoint}

theorem enc_of_encrypted (hplan : upload.plan = .ok plan) (henc : upload.Encrypted) :
    plan.enc = some upload.fileKey.params := by
  rcases plan_encryption hplan with ⟨hpath, -⟩ | ⟨-, hsome, -⟩
  · exact absurd hpath henc
  · exact hsome

theorem enc_of_not_encrypted (hplan : upload.plan = .ok plan) (henc : ¬ upload.Encrypted) :
    plan.enc = none := by
  rcases plan_encryption hplan with ⟨-, hnone, -⟩ | ⟨hpath, -⟩
  · exact hnone
  · exact absurd hpath henc

/-- What an upload does to a cell of a chunk it does for some place of the chunk in the file. -/
theorem mem_touches (hc : ssl.NoCollision c) {touch : Touch Bytes}
    (htouch : touch ∈ upload.touches p (Crypto.sha256Hex ssl c)) :
    upload.Places c p ∧ (touch.Overwrites ↔ upload.Encrypted) ∧ ∃ plan i,
      upload.plan = .ok plan ∧ plan.chunks[i]? = some c ∧ touchOf ssl plan.enc i c = .ok touch := by
  unfold touches at htouch
  split at htouch
  · exact absurd htouch List.not_mem_nil
  · rename_i plan hplan
    split at htouch
    · rename_i hp
      obtain ⟨i, d, hd, hid, htouchOf, hsent⟩ :=
        mem_touchesFrom (plan_wholeKey hplan) (plan_fits hplan) htouch
      obtain rfl : d = c := hc.eq hid
      rw [Nat.zero_add] at htouchOf
      refine ⟨⟨plan, hplan, hsent, hp⟩, ?_, plan, i, hplan, hd, htouchOf⟩
      have hfit := plan_fits hplan d (List.mem_of_getElem? hd)
      rcases @touchOf_cases ssl plan.enc (plan_wholeKey hplan) d hfit i with
        ⟨-, e, he⟩ | ⟨-, touch', htouch', -, hover, -⟩
      · rw [he] at htouchOf
        cases htouchOf
      · rw [htouchOf] at htouch'
        cases htouch'
        rw [hover]
        by_cases henc : upload.Encrypted
        · simp [enc_of_encrypted hplan henc, henc]
        · simp [enc_of_not_encrypted hplan henc, henc]
    · exact absurd htouch List.not_mem_nil

theorem exists_touch_of_places (hplaces : upload.Places c p) :
    ∃ touch, touch ∈ upload.touches p (Crypto.sha256Hex ssl c) := by
  obtain ⟨plan, hplan, hsent, hp⟩ := hplaces
  rw [touches_of_plan hplan, if_pos hp]
  exact exists_touch (plan_wholeKey hplan) (plan_fits hplan) hsent

theorem fill_of_plain (hc : ssl.NoCollision c) {touch : Touch Bytes}
    (htouch : touch ∈ upload.touches p (Crypto.sha256Hex ssl c)) (hplain : ¬ upload.Encrypted) :
    touch = .fill c := by
  obtain ⟨-, -, plan, i, hplan, -, htouchOf⟩ := mem_touches hc htouch
  rw [enc_of_not_encrypted hplan hplain] at htouchOf
  exact (Except.ok.inj htouchOf).symm

theorem data_ne_of_encrypted (hc : ssl.NoCollision c) {touch : Touch Bytes}
    (htouch : touch ∈ upload.touches p (Crypto.sha256Hex ssl c)) (henc : upload.Encrypted) :
    touch.data ≠ c := by
  obtain ⟨-, -, plan, i, hplan, hi, htouchOf⟩ := mem_touches hc htouch
  have hfit := plan_fits hplan c (List.mem_of_getElem? hi)
  rcases @touchOf_cases ssl plan.enc (plan_wholeKey hplan) c hfit i with
    ⟨-, e, he⟩ | ⟨-, touch', htouch', -, -, -, hlength⟩
  · rw [he] at htouchOf
    cases htouchOf
  · rw [htouchOf] at htouch'
    cases htouch'
    have hne := hlength (by rw [enc_of_encrypted hplan henc]; exact Option.some_ne_none _)
    exact fun hsame => hne (congrArg List.length hsame)

end Upload

/-! ### A cell after some calls -/

section Calls

variable {ssl : OpenSsl} {segments : Cluster.Segments}

theorem afterCalls_append (first second : List (Upload ssl × LocalDisk)) (cluster : Cluster) :
    afterCalls segments (first ++ second) cluster =
      afterCalls segments second (afterCalls segments first cluster) := by
  induction first generalizing cluster with
  | nil => rfl
  | cons call first ih => exact ih _

theorem mem_callTouches {calls : List (Upload ssl × LocalDisk)} {p : PeerEndpoint} {id : Bytes}
    {touch : Touch Bytes} : touch ∈ callTouches calls p id ↔
      ∃ call ∈ calls, touch ∈ call.1.touches p id := List.mem_flatMap

theorem length_touch_le {upload : Upload ssl} {p : PeerEndpoint} {id : Bytes}
    {touch : Touch Bytes} (htouch : touch ∈ upload.touches p id) :
    touch.data.length ≤ maxSize := by
  unfold Upload.touches at htouch
  split at htouch
  · exact absurd htouch List.not_mem_nil
  · rename_i plan hplan
    split at htouch
    · obtain ⟨i, c, hc, -, htouchOf, -⟩ :=
        mem_touchesFrom (Upload.plan_wholeKey hplan) (Upload.plan_fits hplan) htouch
      have hfit := Upload.plan_fits hplan c (List.mem_of_getElem? hc)
      rcases @touchOf_cases ssl plan.enc (Upload.plan_wholeKey hplan) c hfit (0 + i) with
        ⟨-, e, he⟩ | ⟨-, touch', htouch', hle, -⟩
      · rw [he] at htouchOf
        cases htouchOf
      · rw [htouchOf] at htouch'
        cases htouch'
        exact hle
    · exact absurd htouch List.not_mem_nil

theorem fits_afterCalls (calls : List (Upload ssl × LocalDisk)) :
    (afterCalls segments calls Cluster.empty).Fits := by
  intro p id data hstored
  rw [chunks_afterCalls] at hstored
  rcases Touch.after_mem _ hstored with hold | ⟨touch, htouch, rfl⟩
  · cases hold
  · obtain ⟨call, -, hcall⟩ := mem_callTouches.mp htouch
    exact length_touch_le hcall

theorem no_manifest_afterCalls {calls : List (Upload ssl × LocalDisk)} {q : PeerEndpoint}
    (hnone : ∀ call ∈ calls, ∀ key, q ∉ call.1.targets key) {cluster : Cluster} {i : Bytes}
    (hempty : (cluster q).manifests i = none) :
    ((afterCalls segments calls cluster) q).manifests i = none := by
  induction calls generalizing cluster with
  | nil => exact hempty
  | cons call calls ih =>
      obtain ⟨upload, disk⟩ := call
      have heffect := @Upload.run_putFile ssl segments upload (cluster, disk)
      refine ih (fun call hcall => hnone call (List.mem_cons_of_mem _ hcall)) ?_
      rcases heffect.manifests q i with hsame | ⟨plan, -, -, hq, -⟩
      · exact hsame.trans hempty
      · exact absurd hq (hnone _ List.mem_cons_self _)

theorem Upload.targets_eq_nil {upload : Upload ssl} (hnot : ¬ Usable ssl upload.cfg.peers)
    (key : Bytes) : upload.targets key = [] := by
  have hnodes := DhtNode.tableOf_eq_nil hnot
  have hlength := DhtNode.length_ranked ssl upload.cfg.peers key
  rw [hnodes, List.length_nil] at hlength
  rw [Upload.targets, List.eq_nil_of_length_eq_zero hlength, List.take_nil]

theorem manifest_afterCalls {before later : List (Upload ssl × LocalDisk)} {upload : Upload ssl}
    {own : LocalDisk} {result : PutFileResult}
    (hreturned : (upload.putFile.run (worldHandle (Cluster.network segments))
      (afterCalls segments before Cluster.empty, own)).1 = .ok result) :
    ∃ plan, upload.plan = .ok plan ∧ result.shareUri = plan.shareUri ssl ∧
      (∀ c ∈ plan.chunks, Sendable plan.enc c) ∧ (ssl.NoCollision plan.text →
        ∀ q ∈ upload.targets (str "manifest:" ++ plan.hash ssl),
          ((afterCalls segments (before ++ (upload, own) :: later) Cluster.empty) q).manifests
            (plan.hash ssl) = some plan.text) := by
  have heffect := @Upload.run_putFile ssl segments upload
    (afterCalls segments before Cluster.empty, own)
  obtain ⟨plan, hplan, huri, hsend, hmanifest⟩ := heffect.returned result hreturned
  refine ⟨plan, hplan, huri, hsend, fun htext q hq => ?_⟩
  rw [afterCalls_append]
  exact manifests_afterCalls segments htext later (hmanifest q hq)

theorem usable_of_retrieves {calls : List (Upload ssl × LocalDisk)} {peers : List PeerEndpoint}
    (hpeers : ∀ call ∈ calls, call.1.cfg.peers = peers) {plan : Plan} {disk : LocalDisk}
    (hlocal : disk.files (plan.shareUri ssl) = none) {cfg : ClientConfig} {outPath content : Bytes}
    (hretrieves : Retrieves ssl cfg segments (afterCalls segments calls Cluster.empty) disk
      (plan.shareUri ssl) outPath content) : Usable ssl peers := by
  by_contra hnot
  refine not_retrieves_of_no_manifest hlocal (fun p _ => ?_) content hretrieves
  refine no_manifest_afterCalls (fun call hcall key => ?_) rfl
  rw [Upload.targets_eq_nil (hpeers call hcall ▸ hnot)]
  exact List.not_mem_nil

variable {before later : List (Upload ssl × LocalDisk)} {upload : Upload ssl} {own : LocalDisk}
  {plan : Plan} {c : Bytes} {p : PeerEndpoint}

theorem cell_afterCalls (id : Bytes) :
    ((afterCalls segments (before ++ (upload, own) :: later) Cluster.empty) p).chunks id =
      Touch.after none (callTouches before p id ++ (upload.touches p id ++
        callTouches later p id)) := by
  rw [chunks_afterCalls]
  simp only [callTouches, List.flatMap_append, List.flatMap_cons]
  rfl

def OtherKeys (upload : Upload ssl) (calls : List (Upload ssl × LocalDisk)) : Prop :=
  ∀ call ∈ calls, call.1.Encrypted → call.1.fileKey.params.key ≠ upload.fileKey.params.key ∧
    ssl.Rejects call.1.fileKey.params upload.fileKey.params

/-- What another encrypted call has left has a bad tag. -/
theorem badTag_other (hc : ssl.NoCollision c) (hshort : c.length < 2 ^ 31)
    {calls : List (Upload ssl × LocalDisk)} (hkeys : OtherKeys upload calls) {data : Bytes}
    (htouch : .overwrite data ∈ callTouches calls p (Crypto.sha256Hex ssl c)) (idx : UInt64) :
    BadTag ssl (some upload.fileKey.params) idx data := by
  obtain ⟨call, hcall, htouch⟩ := mem_callTouches.mp htouch
  obtain ⟨-, hover, plan, i, hplan, -, htouchOf⟩ := Upload.mem_touches hc htouch
  have henc := hover.mp ⟨data, rfl⟩
  obtain ⟨hkey, hreject⟩ := hkeys call hcall henc
  rw [Upload.enc_of_encrypted hplan henc] at htouchOf
  exact badTag_foreign upload.fileKey.iv_length call.1.fileKey.iv_length hshort hkey hreject
    htouchOf idx

/-- What another call has left an encrypted upload cannot open. -/
theorem not_open_other (hc : ssl.NoCollision c) (hshort : c.length < 2 ^ 31)
    {calls : List (Upload ssl × LocalDisk)} (hkeys : OtherKeys upload calls) {touch : Touch Bytes}
    (htouch : touch ∈ callTouches calls p (Crypto.sha256Hex ssl c)) (idx : UInt64) :
    openChunk ssl (some upload.fileKey.params) idx touch.data ≠ .ok c := by
  intro hopen
  obtain ⟨call, hcall, hmem⟩ := mem_callTouches.mp htouch
  by_cases henc : call.1.Encrypted
  · obtain ⟨data, rfl⟩ := (Upload.mem_touches hc hmem).2.1.mpr henc
    cases hopen.symm.trans (badTag_other hc hshort hkeys htouch idx)
  · rw [Upload.fill_of_plain hc hmem henc] at hopen
    exact absurd (Crypto.length_of_opened hopen).1 (lt_irrefl _)

def Untouched (later : List (Upload ssl × LocalDisk)) (c : Bytes) (p : PeerEndpoint) : Prop :=
  ∀ call ∈ later, call.1.Encrypted → ¬ call.1.Places c p

theorem fills_of_untouched (hc : ssl.NoCollision c) (huntouched : Untouched later c p) :
    ∀ touch ∈ callTouches later p (Crypto.sha256Hex ssl c), ¬ touch.Overwrites := by
  intro touch htouch hover
  obtain ⟨call, hcall, htouch⟩ := mem_callTouches.mp htouch
  obtain ⟨hplaces, hiff, -⟩ := Upload.mem_touches hc htouch
  exact huntouched call hcall (hiff.mp hover) hplaces

theorem overwrite_of_touched (hc : ssl.NoCollision c) (htouched : ¬ Untouched later c p) :
    ∃ touch ∈ callTouches later p (Crypto.sha256Hex ssl c), touch.Overwrites := by
  unfold Untouched at htouched
  push Not at htouched
  obtain ⟨call, hcall, henc, hplaces⟩ := htouched
  obtain ⟨touch, htouch⟩ := Upload.exists_touch_of_places hplaces
  exact ⟨touch, mem_callTouches.mpr ⟨call, hcall, htouch⟩,
    (Upload.mem_touches hc htouch).2.1.mpr henc⟩

/-- What an encrypted upload has put at a peer is there still, unless a later call has overwritten
it. -/
theorem own_stays (henc : upload.Encrypted) (hc : ssl.NoCollision c)
    (huntouched : Untouched later c p) {data : Bytes}
    (hown : Touch.after none (upload.touches p (Crypto.sha256Hex ssl c)) = some data) :
    Touch.after none (callTouches before p (Crypto.sha256Hex ssl c) ++
      (upload.touches p (Crypto.sha256Hex ssl c) ++
        callTouches later p (Crypto.sha256Hex ssl c))) = some data := by
  obtain hold | ⟨first, hfirst, -⟩ := Touch.after_mem _ hown
  · cases hold
  have hover := (Upload.mem_touches hc hfirst).2.1.mpr henc
  rw [Touch.after_append, Touch.after_append,
    Touch.after_eq_of_overwrite _ ⟨first, hfirst, hover⟩ none, hown]
  exact Touch.after_some_of_fills (fills_of_untouched hc huntouched) data

/-- **What is left of an encrypted chunk** at one peer. It opens exactly when no later encrypted
call has put the chunk there, and what the upload itself has put there last opens. -/
theorem open_encrypted_iff (hplan : upload.plan = .ok plan) (henc : upload.Encrypted)
    (hc : ssl.NoCollision c) (hkeys : OtherKeys upload (before ++ later)) (n : Nat) :
    (∃ data, ((afterCalls segments (before ++ (upload, own) :: later) Cluster.empty) p).chunks
        (Crypto.sha256Hex ssl c) = some data ∧
          openChunk ssl plan.enc (UInt64.ofNat n) data = .ok c) ↔
      Untouched later c p ∧ ∃ data,
        Touch.after none (upload.touches p (Crypto.sha256Hex ssl c)) = some data ∧
          openChunk ssl plan.enc (UInt64.ofNat n) data = .ok c := by
  have henc' := Upload.enc_of_encrypted hplan henc
  have hbefore : OtherKeys upload before := fun call hcall =>
    hkeys call (List.mem_append_left _ hcall)
  have hlater : OtherKeys upload later := fun call hcall =>
    hkeys call (List.mem_append_right _ hcall)
  rw [cell_afterCalls]
  constructor
  · rintro ⟨data, hcell, hopen⟩
    have hshort := (Crypto.length_of_opened (henc' ▸ hopen)).2
    have huntouched : Untouched later c p := by
      by_contra htouched
      have hover := overwrite_of_touched hc htouched
      rw [← List.append_assoc, Touch.after_append] at hcell
      obtain ⟨x, hx, hlast⟩ := Touch.after_of_overwrite (Touch.after none
        (callTouches before p (Crypto.sha256Hex ssl c) ++
          upload.touches p (Crypto.sha256Hex ssl c))) hover
      rw [hlast] at hcell
      cases hcell
      exact not_open_other hc hshort hlater hx _ (henc' ▸ hopen)
    refine ⟨huntouched, data, ?_, hopen⟩
    cases hown : Touch.after none (upload.touches p (Crypto.sha256Hex ssl c)) with
    | some sent =>
        rw [own_stays henc hc huntouched hown] at hcell
        exact hcell
    | none =>
        -- the upload has put nothing there, and the others' chunks do not open
        have hnil : upload.touches p (Crypto.sha256Hex ssl c) = [] := by
          by_contra hne
          simpa [hown] using Touch.after_isSome none hne
        rw [hnil, List.nil_append] at hcell
        rcases Touch.after_mem _ hcell with hold | ⟨touch, htouch, rfl⟩
        · cases hold
        · rcases List.mem_append.mp htouch with hmem | hmem
          · exact absurd (henc' ▸ hopen) (not_open_other hc hshort hbefore hmem _)
          · exact absurd (henc' ▸ hopen) (not_open_other hc hshort hlater hmem _)
  · rintro ⟨huntouched, data, hown, hopen⟩
    exact ⟨data, own_stays henc hc huntouched hown, hopen⟩

theorem own_touch (hplan : upload.plan = .ok plan) (henc : upload.Encrypted)
    (hc : ssl.NoCollision c) (hsend : ∀ c ∈ plan.chunks, Sendable plan.enc c)
    (hmem : c ∈ plan.chunks) (hp : p ∈ upload.targets (Crypto.sha256Hex ssl c)) :
    ∃ j data, plan.chunks[j]? = some c ∧
      Touch.after none (upload.touches p (Crypto.sha256Hex ssl c)) = some data ∧
        touchOf ssl plan.enc j c = .ok (.overwrite data) := by
  have hsent : c ∈ plan.chunks.takeWhile fun c => Sendable plan.enc c := by
    rwa [List.takeWhile_eq_self_iff.mpr fun c hc => by simpa using hsend c hc]
  obtain ⟨first, hfirst⟩ := Upload.exists_touch_of_places ⟨plan, hplan, hsent, hp⟩
  have hover := (Upload.mem_touches hc hfirst).2.1.mpr henc
  obtain ⟨data, hdata, hafter⟩ := Touch.after_of_overwrite none ⟨first, hfirst, hover⟩
  obtain ⟨-, -, plan', j, hplan', hj, htouchOf⟩ := Upload.mem_touches hc hdata
  rw [hplan] at hplan'
  cases hplan'
  exact ⟨j, data, hj, hafter, htouchOf⟩

theorem target_of_own (hplan : upload.plan = .ok plan) {data id : Bytes}
    (hown : Touch.after none (upload.touches p id) = some data) : p ∈ upload.targets id := by
  by_contra hnot
  rw [Upload.touches_of_plan hplan, if_neg hnot] at hown
  cases hown

/-- **The position of an encrypted chunk**: every target has the bytes of one and the same, and they
open at it and at no other, up to `2 ^ 32`. -/
theorem own_opens_iff (hplan : upload.plan = .ok plan) (henc : upload.Encrypted)
    (hc : ssl.NoCollision c) (hsend : ∀ c ∈ plan.chunks, Sendable plan.enc c)
    (hshort : c.length < 2 ^ 31)
    (hself : ssl.Rejects upload.fileKey.params upload.fileKey.params)
    (hmem : c ∈ plan.chunks) (hp : p ∈ upload.targets (Crypto.sha256Hex ssl c)) :
    ∃ j, plan.chunks[j]? = some c ∧ ∀ q ∈ upload.targets (Crypto.sha256Hex ssl c), ∀ n,
      (∃ data, Touch.after none (upload.touches q (Crypto.sha256Hex ssl c)) = some data ∧
        openChunk ssl plan.enc (UInt64.ofNat n) data = .ok c) ↔ n % 2 ^ 32 = j % 2 ^ 32 := by
  obtain ⟨j, data, hj, hown, htouch⟩ := own_touch hplan henc hc hsend hmem hp
  refine ⟨j, hj, fun q hq n => ?_⟩
  have hsame : upload.touches q (Crypto.sha256Hex ssl c) =
      upload.touches p (Crypto.sha256Hex ssl c) := by
    rw [Upload.touches_of_plan hplan, if_pos hq, Upload.touches_of_plan hplan, if_pos hp]
  rw [Upload.enc_of_encrypted hplan henc] at htouch ⊢
  have hiff := openChunk_sealed_iff upload.fileKey.iv_length hshort hself htouch n
  rw [hsame, hown]
  constructor
  · rintro ⟨data', hdata, hopen⟩
    cases hdata
    exact hiff.mp hopen
  · intro hposition
    exact ⟨data, rfl, hiff.mpr hposition⟩

/-- Where no encrypted call has put the chunk, its plaintext is all that can be there. -/
theorem cell_of_untouched {calls : List (Upload ssl × LocalDisk)} (hc : ssl.NoCollision c)
    (huntouched : Untouched calls c p) (data : Bytes) :
    ((afterCalls segments calls Cluster.empty) p).chunks (Crypto.sha256Hex ssl c) = some data ↔
      data = c ∧ ∃ call ∈ calls, call.1.Places c p := by
  have hplain : ∀ touch ∈ callTouches calls p (Crypto.sha256Hex ssl c), touch = .fill c := by
    intro touch hmem
    obtain ⟨call, -, htouch⟩ := mem_callTouches.mp hmem
    refine Upload.fill_of_plain hc htouch fun henc => ?_
    exact fills_of_untouched hc huntouched touch hmem
      ((Upload.mem_touches hc htouch).2.1.mpr henc)
  have hleft : ∀ data, ((afterCalls segments calls Cluster.empty) p).chunks
      (Crypto.sha256Hex ssl c) = some data → data = c ∧ ∃ call ∈ calls, call.1.Places c p := by
    intro data hcell
    rw [chunks_afterCalls] at hcell
    rcases Touch.after_mem _ hcell with hold | ⟨touch, hmem, rfl⟩
    · cases hold
    · obtain ⟨call, hcall, htouch⟩ := mem_callTouches.mp hmem
      exact ⟨by rw [hplain touch hmem]; rfl, call, hcall, (Upload.mem_touches hc htouch).1⟩
  refine ⟨hleft data, ?_⟩
  rintro ⟨rfl, call, hcall, hplaces⟩
  obtain ⟨first, hfirst⟩ := Upload.exists_touch_of_places hplaces
  have hne := List.ne_nil_of_mem (mem_callTouches.mpr ⟨call, hcall, hfirst⟩)
  obtain ⟨data', hdata⟩ := Option.isSome_iff_exists.mp
    (Touch.after_isSome ((Cluster.empty p).chunks (Crypto.sha256Hex ssl data)) hne)
  rw [← @chunks_afterCalls ssl segments] at hdata
  rw [hdata, (hleft data' hdata).1]

/-- **What is left of a plaintext chunk** at one peer. -/
theorem open_plain_iff {calls : List (Upload ssl × LocalDisk)} (hplan : upload.plan = .ok plan)
    (hplain : ¬ upload.Encrypted) (hc : ssl.NoCollision c) (n : Nat) :
    (∃ data, ((afterCalls segments calls Cluster.empty) p).chunks (Crypto.sha256Hex ssl c) =
        some data ∧ openChunk ssl plan.enc (UInt64.ofNat n) data = .ok c) ↔
      (∃ call ∈ calls, ¬ call.1.Encrypted ∧ call.1.Places c p) ∧ Untouched calls c p := by
  rw [Upload.enc_of_not_encrypted hplan hplain]
  constructor
  · rintro ⟨data, hcell, hopen⟩
    obtain rfl : data = c := Except.ok.inj hopen
    have huntouched : Untouched calls data p := by
      by_contra htouched
      rw [chunks_afterCalls] at hcell
      obtain ⟨x, hx, hlast⟩ := Touch.after_of_overwrite
        ((Cluster.empty p).chunks (Crypto.sha256Hex ssl data)) (overwrite_of_touched hc htouched)
      obtain rfl : x = data := Option.some.inj (hlast.symm.trans hcell)
      obtain ⟨call, -, htouch⟩ := mem_callTouches.mp hx
      have henc := (Upload.mem_touches hc htouch).2.1.mp ⟨x, rfl⟩
      exact absurd rfl (Upload.data_ne_of_encrypted hc htouch henc)
    obtain ⟨-, call, hcall, hplaces⟩ := (cell_of_untouched hc huntouched data).mp hcell
    exact ⟨⟨call, hcall, fun henc => huntouched call hcall henc hplaces, hplaces⟩, huntouched⟩
  · rintro ⟨⟨call, hcall, -, hplaces⟩, huntouched⟩
    exact ⟨c, (cell_of_untouched hc huntouched c).mpr ⟨rfl, call, hcall, hplaces⟩, rfl⟩

/-- Where another encrypted call was the last to put the chunk, its bytes have a bad tag. -/
theorem badTag_of_overwritten (hplan : upload.plan = .ok plan) (henc : upload.Encrypted)
    (hc : ssl.NoCollision c) (hshort : c.length < 2 ^ 31)
    (hkeys : OtherKeys upload (before ++ later))
    (htouched : ¬ Untouched (before ++ (upload, own) :: later) c p)
    (hnot : ¬ (p ∈ upload.targets (Crypto.sha256Hex ssl c) ∧ Untouched later c p)) (n : Nat) :
    ∃ data, ((afterCalls segments (before ++ (upload, own) :: later) Cluster.empty) p).chunks
        (Crypto.sha256Hex ssl c) = some data ∧ BadTag ssl plan.enc (UInt64.ofNat n) data := by
  rw [cell_afterCalls, Upload.enc_of_encrypted hplan henc]
  by_cases hlater : Untouched later c p
  · have hp : p ∉ upload.targets (Crypto.sha256Hex ssl c) := fun hp => hnot ⟨hp, hlater⟩
    have hothers : ¬ Untouched (before ++ later) c p := by
      refine fun huntouched => htouched fun call hcall hencrypted hplaces => ?_
      rcases List.mem_append.mp hcall with hmem | hmem
      · exact huntouched call (List.mem_append_left _ hmem) hencrypted hplaces
      · rcases List.mem_cons.mp hmem with rfl | hmem
        · obtain ⟨-, -, -, hp'⟩ := hplaces
          exact hp hp'
        · exact huntouched call (List.mem_append_right _ hmem) hencrypted hplaces
    obtain ⟨data, hdata, hlast⟩ := Touch.after_of_overwrite none (overwrite_of_touched hc hothers)
    rw [Upload.touches_of_plan hplan, if_neg hp, List.nil_append]
    refine ⟨data, ?_, badTag_other hc hshort hkeys hdata _⟩
    rw [← hlast, callTouches, callTouches, callTouches, List.flatMap_append]
  · obtain ⟨data, hdata, hlast⟩ := Touch.after_of_overwrite (Touch.after none
      (callTouches before p (Crypto.sha256Hex ssl c) ++
        upload.touches p (Crypto.sha256Hex ssl c))) (overwrite_of_touched hc hlater)
    rw [← List.append_assoc, Touch.after_append]
    exact ⟨data, hlast, badTag_other hc hshort
      (fun call hcall => hkeys call (List.mem_append_right _ hcall)) hdata _⟩

end Calls

/-! ### Encrypted notes on one peer -/

def vaultConfig : ClientConfig :=
  { peers := [⟨str "10.0.0.1", 9000⟩], chunkSize := 1, desiredReplicas := 1
    rsaPublicKeyPath := TableSsl.publicPath, rsaPrivateKeyPath := TableSsl.privatePath
    peers_fit := by decide }

def vaultKey (b : UInt8) : Crypto.FileKey :=
  ⟨⟨List.replicate 32 b, List.replicate 12 0⟩, by simp, by simp⟩

def vaultPlan (letters : Bytes) (b : UInt8) : Plan :=
  { manifest :=
      { originalName := str "note", originalSize := UInt64.ofNat letters.length, chunkSize := 1
        encrypted := true, encAlgo := str "AES-256-GCM", keyEncAlgo := str "RSA"
        encryptedKeyHex := Crypto.toHex (0 :: List.replicate 32 b ++ List.replicate 12 0)
        chunks := letters.map fun letter =>
          ⟨(if letter = 97 then str "00" else str "01") ++ List.replicate 62 48⟩ }
    enc := some (vaultKey b).params
    chunks := letters.map fun letter => [letter] }

def vaultSsl : OpenSsl :=
  tableSsl [str "a", str "b", (vaultPlan (str "a") 7).text, (vaultPlan (str "a") 8).text,
    (vaultPlan (str "aa") 7).text, (vaultPlan (str "ab") 7).text, str "10.0.0.1:9000"]

def vaultUpload (letters : Bytes) (b : UInt8)
    (hplan : Plan.of vaultSsl vaultConfig (str "/home/note") letters (vaultKey b) =
      .ok (vaultPlan letters b))
    (hfits : (vaultPlan letters b).text.length < maxSize) : Upload vaultSsl where
  cfg := vaultConfig
  filePath := str "/home/note"
  content := letters
  fileKey := vaultKey b
  text_fits := by
    intro plan hok
    rw [hplan] at hok
    cases hok
    exact hfits

theorem vaultUpload_plan {letters : Bytes} {b : UInt8} {hplan hfits} :
    (vaultUpload letters b hplan hfits).plan = .ok (vaultPlan letters b) := hplan

theorem vault_rejects {b b' : UInt8} (hb : b = 7 ∨ b = 8) (hb' : b' = 7 ∨ b' = 8) :
    vaultSsl.Rejects (vaultKey b).params (vaultKey b').params := by
  refine TableSsl.rejects _ (vaultKey b) (vaultKey b') ?_
  rcases hb with rfl | rfl <;> rcases hb' with rfl | rfl <;> decide

theorem vault_keyFor {letters : Bytes} {b : UInt8} {hplan hfits} :
    (vaultUpload letters b hplan hfits).KeyFor vaultConfig :=
  fun _ => ⟨by decide, TableSsl.keys_match _⟩

theorem vault_usable : Usable vaultSsl vaultConfig.peers :=
  ⟨⟨str "10.0.0.1", 9000⟩, by decide, by decide +kernel⟩

theorem vault_noCollision {c : Bytes} (hc : c ∈ [str "a", str "b",
    (vaultPlan (str "a") 7).text, (vaultPlan (str "a") 8).text, (vaultPlan (str "aa") 7).text,
    (vaultPlan (str "ab") 7).text, str "10.0.0.1:9000"]) : vaultSsl.NoCollision c :=
  TableSsl.noCollision (by decide) hc

theorem vault_letters {letters : Bytes} (hletters : ∀ letter ∈ letters, letter = 97 ∨ letter = 98)
    {b : UInt8} : ∀ c ∈ (vaultPlan letters b).chunks, vaultSsl.NoCollision c := by
  intro c hc
  obtain ⟨letter, hletter, rfl⟩ := List.mem_map.mp hc
  refine vault_noCollision ?_
  rcases hletters letter hletter with rfl | rfl
  · exact List.mem_cons_self
  · exact List.mem_cons_of_mem _ List.mem_cons_self

def aaUpload : Upload vaultSsl := vaultUpload (str "aa") 7 (by decide +kernel) (by decide +kernel)

def abUpload : Upload vaultSsl := vaultUpload (str "ab") 7 (by decide +kernel) (by decide +kernel)

def a7Upload : Upload vaultSsl := vaultUpload (str "a") 7 (by decide +kernel) (by decide +kernel)

def a8Upload : Upload vaultSsl := vaultUpload (str "a") 8 (by decide +kernel) (by decide +kernel)

def vaultResult (plan : Plan) : PutFileResult :=
  ⟨plan.shareUri vaultSsl, str "manifests/note.manifest.txt"⟩

theorem ab_plan : abUpload.plan = .ok (vaultPlan (str "ab") 7) := vaultUpload_plan

theorem aa_plan : aaUpload.plan = .ok (vaultPlan (str "aa") 7) := vaultUpload_plan

theorem a7_plan : a7Upload.plan = .ok (vaultPlan (str "a") 7) := vaultUpload_plan

theorem a8_plan : a8Upload.plan = .ok (vaultPlan (str "a") 8) := vaultUpload_plan

theorem ab_returned : (abUpload.putFile.run (worldHandle (Cluster.network {}))
    (Cluster.empty, {})).1 = .ok (vaultResult (vaultPlan (str "ab") 7)) := by
  rw [Upload.putFile_of_plan (by decide) ab_plan]
  decide +kernel

theorem aa_returned : (aaUpload.putFile.run (worldHandle (Cluster.network {}))
    (Cluster.empty, {})).1 = .ok (vaultResult (vaultPlan (str "aa") 7)) := by
  rw [Upload.putFile_of_plan (by decide) aa_plan]
  decide +kernel

theorem a7_returned : (a7Upload.putFile.run (worldHandle (Cluster.network {}))
    (Cluster.empty, {})).1 = .ok (vaultResult (vaultPlan (str "a") 7)) := by
  rw [Upload.putFile_of_plan (by decide) a7_plan]
  decide +kernel

theorem a8_returned : (a8Upload.putFile.run (worldHandle (Cluster.network {}))
    (afterCalls {} [(a7Upload, {})] Cluster.empty, {})).1 =
      .ok (vaultResult (vaultPlan (str "a") 8)) := by
  rw [Upload.putFile_of_plan (by decide) a8_plan]
  decide +kernel

/-! ### Downloads after uploads -/

section Readers

variable {ssl : OpenSsl} {segments : Cluster.Segments}
  {before later : List (Upload ssl × LocalDisk)} {upload : Upload ssl} {own disk : LocalDisk}
  {plan : Plan} {c outPath : Bytes} {result : PutFileResult} {peers : List PeerEndpoint}
  {cfg : ClientConfig}

theorem retrieves_afterCalls_iff (hname : upload.Named)
    (hreturned : (upload.putFile.run (worldHandle (Cluster.network segments))
      (afterCalls segments before Cluster.empty, own)).1 = .ok result)
    (hplan : upload.plan = .ok plan)
    (hpeers : ∀ call ∈ before ++ (upload, own) :: later, call.1.cfg.peers = peers)
    (hcfg : peers ⊆ cfg.peers) (htext : ssl.NoCollision plan.text)
    (hchunks : ∀ c ∈ plan.chunks, ssl.NoCollision c) (hkey : upload.KeyFor cfg)
    (hlocal : disk.files result.shareUri = none) (hwritable : disk.writable outPath = true) :
    Retrieves ssl cfg segments
        (afterCalls segments (before ++ (upload, own) :: later) Cluster.empty) disk
        result.shareUri outPath upload.content ↔
      Usable ssl peers ∧ ∀ n c, plan.chunks[n]? = some c →
        (afterCalls segments (before ++ (upload, own) :: later) Cluster.empty).Opens ssl cfg
          plan.enc n c := by
  obtain ⟨plan', hplan', huri, -, hmanifest⟩ :=
    @manifest_afterCalls ssl segments before later upload own result hreturned
  rw [hplan] at hplan'
  cases hplan'
  rw [huri] at hlocal ⊢
  have hupload : upload.cfg.peers = peers :=
    hpeers (upload, own) (List.mem_append_right _ List.mem_cons_self)
  by_cases husable : Usable ssl peers
  · rw [retrieves_iff_opens hname hplan htext hchunks (fits_afterCalls _) hkey hlocal hwritable]
    · exact ⟨fun hopens => ⟨husable, hopens⟩, And.right⟩
    · obtain ⟨q, hq⟩ := upload.exists_target (hupload ▸ husable) (str "manifest:" ++ plan.hash ssl)
      exact ⟨q, hcfg (hupload ▸ upload.targets_subset _ hq), hmanifest htext q hq⟩
  · exact ⟨fun hretrieves => absurd (usable_of_retrieves hpeers hlocal hretrieves) husable,
      fun hall => absurd hall.1 husable⟩

/-- The download goes on past a peer that no encrypted call has given the chunk, unless it takes a
plaintext there for a ciphertext with a bad tag. -/
def PassedOver (calls : List (Upload ssl × LocalDisk)) (upload : Upload ssl) (n : Nat) (c : Bytes)
    (p : PeerEndpoint) : Prop :=
  Untouched calls c p ∧ ((∃ call ∈ calls, call.1.Places c p) →
    ¬ BadTag ssl (some upload.fileKey.params) (UInt64.ofNat n) c)

/-- The upload has put the chunk there, and no later encrypted call has. -/
def StillThere (later : List (Upload ssl × LocalDisk)) (upload : Upload ssl) (c : Bytes)
    (p : PeerEndpoint) : Prop :=
  p ∈ upload.targets (Crypto.sha256Hex ssl c) ∧ Untouched later c p

/-- **Whether an encrypted chunk is had** is decided by the first candidate that is not passed
over. -/
theorem opens_encrypted_iff (hplan : upload.plan = .ok plan) (henc : upload.Encrypted)
    (hc : ssl.NoCollision c) (hkeys : OtherKeys upload (before ++ later)) {n : Nat}
    (hown : c.length < 2 ^ 31 → ∀ q ∈ upload.targets (Crypto.sha256Hex ssl c), ∃ data,
      Touch.after none (upload.touches q (Crypto.sha256Hex ssl c)) = some data ∧
        openChunk ssl plan.enc (UInt64.ofNat n) data = .ok c) :
    (afterCalls segments (before ++ (upload, own) :: later) Cluster.empty).Opens ssl cfg plan.enc
        n c ↔
      c.length < 2 ^ 31 ∧ Until (PassedOver (before ++ (upload, own) :: later) upload n c)
        (StillThere later upload c) (candidates ssl cfg (Crypto.sha256Hex ssl c)) := by
  have hopen : ∀ p, (∃ data, ((afterCalls segments (before ++ (upload, own) :: later)
      Cluster.empty) p).chunks (Crypto.sha256Hex ssl c) = some data ∧
        openChunk ssl plan.enc (UInt64.ofNat n) data = .ok c) ↔
      c.length < 2 ^ 31 ∧ StillThere later upload c p := by
    intro p
    rw [open_encrypted_iff hplan henc hc hkeys n]
    constructor
    · rintro ⟨huntouched, data, hsent, hdata⟩
      rw [Upload.enc_of_encrypted hplan henc] at hdata
      exact ⟨(Crypto.length_of_opened hdata).2, target_of_own hplan hsent, huntouched⟩
    · rintro ⟨hshort, hp, huntouched⟩
      exact ⟨huntouched, hown hshort p hp⟩
  have hpass : c.length < 2 ^ 31 → ∀ p, (∀ data, ((afterCalls segments
      (before ++ (upload, own) :: later) Cluster.empty) p).chunks (Crypto.sha256Hex ssl c) =
        some data → ¬ BadTag ssl plan.enc (UInt64.ofNat n) data) ↔
      PassedOver (before ++ (upload, own) :: later) upload n c p ∨
        StillThere later upload c p := by
    intro hshort p
    constructor
    · intro hgood
      by_cases hthere : StillThere later upload c p
      · exact Or.inr hthere
      have huntouched : Untouched (before ++ (upload, own) :: later) c p := by
        by_contra htouched
        obtain ⟨data, hcell, hbad⟩ := @badTag_of_overwritten ssl segments before later upload own
          plan c p hplan henc hc hshort hkeys htouched hthere n
        exact hgood data hcell hbad
      refine Or.inl ⟨huntouched, fun hplaces => ?_⟩
      rw [← Upload.enc_of_encrypted hplan henc]
      exact hgood c ((cell_of_untouched hc huntouched c).mpr ⟨rfl, hplaces⟩)
    · rintro (⟨huntouched, hgood⟩ | hthere) data hcell
      · obtain ⟨rfl, hplaces⟩ := (cell_of_untouched hc huntouched data).mp hcell
        rw [Upload.enc_of_encrypted hplan henc]
        exact hgood hplaces
      · obtain ⟨data', hcell', hdata⟩ := (hopen p).mpr ⟨hshort, hthere⟩
        obtain rfl := Option.some.inj (hcell.symm.trans hcell')
        exact fun hbad => by cases hdata.symm.trans hbad
  constructor
  · intro hopens
    obtain ⟨p, -, hfirst⟩ := Until.exists_hit hopens
    have hshort := ((hopen p).mp hfirst).1
    refine ⟨hshort, Until.or_hit.mp (Until.mono ?_ ?_ hopens)⟩
    · exact fun q _ => (hpass hshort q).mp
    · exact fun q _ hq => ((hopen q).mp hq).2
  · rintro ⟨hshort, huntil⟩
    refine Until.mono ?_ ?_ (Until.or_hit.mpr huntil)
    · exact fun q _ => (hpass hshort q).mpr
    · exact fun q _ hq => (hopen q).mpr ⟨hshort, hq⟩

/-- **The round trip of one encrypted file.** It works exactly when equal chunks of the file are
encrypted with one IV. -/
theorem encrypted_round_trip_iff (hname : upload.Named)
    (hreturned : (upload.putFile.run (worldHandle (Cluster.network segments))
      (Cluster.empty, own)).1 = .ok result)
    (hplan : upload.plan = .ok plan) (henc : upload.Encrypted)
    (hshort : ∀ c ∈ plan.chunks, c.length < 2 ^ 31) (htext : ssl.NoCollision plan.text)
    (hchunks : ∀ c ∈ plan.chunks, ssl.NoCollision c)
    (hreject : ssl.Rejects upload.fileKey.params upload.fileKey.params) (hkey : upload.KeyFor cfg)
    (hcfg : upload.cfg.peers ⊆ cfg.peers) (hlocal : disk.files result.shareUri = none)
    (hwritable : disk.writable outPath = true) :
    Retrieves ssl cfg segments (upload.putFile.run (worldHandle (Cluster.network segments))
        (Cluster.empty, own)).2.1 disk result.shareUri outPath upload.content ↔
      Usable ssl upload.cfg.peers ∧ ∀ i j c, plan.chunks[i]? = some c → plan.chunks[j]? = some c →
        i % 2 ^ 32 = j % 2 ^ 32 := by
  have hone : ∀ call ∈ [] ++ (upload, own) :: [], call.1.cfg.peers = upload.cfg.peers := by
    simp
  have hiff := @retrieves_afterCalls_iff ssl segments [] [] upload own disk plan outPath result
    upload.cfg.peers cfg hname hreturned hplan hone hcfg htext hchunks hkey hlocal hwritable
  obtain ⟨plan', hplan', -, hsend, -⟩ := @manifest_afterCalls ssl segments [] [] upload own result
    hreturned
  rw [hplan] at hplan'
  cases hplan'
  have hnone : OtherKeys upload ([] ++ []) := by simp [OtherKeys]
  refine hiff.trans (and_congr_right fun husable => ?_)
  constructor
  · intro hopens i j c hi hj
    have hmem := List.mem_of_getElem? hi
    obtain ⟨q, hq⟩ := upload.exists_target husable (Crypto.sha256Hex ssl c)
    obtain ⟨k, -, hposition⟩ := own_opens_iff hplan henc (hchunks c hmem) hsend (hshort c hmem)
      hreject hmem hq
    have hplace : ∀ n, plan.chunks[n]? = some c → n % 2 ^ 32 = k % 2 ^ 32 := by
      intro n hn
      obtain ⟨p, -, hopen⟩ := Until.exists_hit (hopens n c hn)
      rw [open_encrypted_iff hplan henc (hchunks c hmem) hnone n] at hopen
      obtain ⟨-, data, hown, hdata⟩ := hopen
      exact (hposition p (target_of_own hplan hown) n).mp ⟨data, hown, hdata⟩
    rw [hplace i hi, hplace j hj]
  · intro hsame n c hn
    have hmem := List.mem_of_getElem? hn
    obtain ⟨q, hq⟩ := upload.exists_target husable (Crypto.sha256Hex ssl c)
    obtain ⟨j, hj, hposition⟩ := own_opens_iff hplan henc (hchunks c hmem) hsend (hshort c hmem)
      hreject hmem hq
    refine (opens_encrypted_iff hplan henc (hchunks c hmem) hnone fun _ p hp =>
      (hposition p hp n).mpr (hsame n j c hn hj)).mpr ⟨hshort c hmem, Until.or_hit.mp ?_⟩
    refine Until.of_mem (fun p _ => ?_)
      ((mem_candidates ssl cfg _ q).mpr (hcfg (upload.targets_subset _ hq)))
      ⟨hq, by simp [Untouched]⟩
    -- a peer that is no target has nothing
    by_cases hp : p ∈ upload.targets (Crypto.sha256Hex ssl c)
    · exact Or.inr ⟨hp, by simp [Untouched]⟩
    · have hplaces : ∀ call ∈ [] ++ (upload, own) :: [], ¬ call.1.Places c p := by
        rintro call hcall ⟨-, -, -, hp'⟩
        obtain rfl : call = (upload, own) := by simpa using hcall
        exact hp hp'
      refine Or.inl ⟨fun call hcall _ => hplaces call hcall, ?_⟩
      rintro ⟨call, hcall, hput⟩
      exact absurd hput (hplaces call hcall)

theorem ab_positions : ∀ i j c, (vaultPlan (str "ab") 7).chunks[i]? = some c →
    (vaultPlan (str "ab") 7).chunks[j]? = some c → i % 2 ^ 32 = j % 2 ^ 32 := by
  intro i j c hi hj
  have hnodup : (vaultPlan (str "ab") 7).chunks.Nodup := by decide
  have hsame := (List.getElem?_inj (List.getElem?_eq_some_iff.mp hi).1 hnodup).mp (hi.trans hj.symm)
  rw [hsame]

theorem ab_round_trip : Retrieves vaultSsl vaultConfig {}
    (abUpload.putFile.run (worldHandle (Cluster.network {})) (Cluster.empty, {})).2.1 {}
    (vaultResult (vaultPlan (str "ab") 7)).shareUri (str "out") (str "ab") :=
  (@encrypted_round_trip_iff vaultSsl {} abUpload {} {} (vaultPlan (str "ab") 7) (str "out")
    (vaultResult (vaultPlan (str "ab") 7)) vaultConfig (by decide) ab_returned ab_plan (by decide)
    (by decide +kernel) (vault_noCollision (by simp)) (vault_letters (by decide))
    (vault_rejects (Or.inl rfl) (Or.inl rfl)) vault_keyFor (List.Subset.refl _) rfl rfl).mpr
    ⟨vault_usable, ab_positions⟩

/-- The same letter twice: the second takes the place of the first, under another IV. -/
theorem repeated_chunk_lost :
    ¬ ∀ (ssl : OpenSsl) (segments : Cluster.Segments) (upload : Upload ssl) (own disk : LocalDisk)
        (plan : Plan) (outPath : Bytes) (result : PutFileResult) (cfg : ClientConfig),
      upload.Named →
      (upload.putFile.run (worldHandle (Cluster.network segments)) (Cluster.empty, own)).1 =
        .ok result →
      upload.plan = .ok plan → upload.Encrypted → (∀ c ∈ plan.chunks, c.length < 2 ^ 31) →
      ssl.NoCollision plan.text → (∀ c ∈ plan.chunks, ssl.NoCollision c) →
      ssl.Rejects upload.fileKey.params upload.fileKey.params → upload.KeyFor cfg →
      Usable ssl upload.cfg.peers → upload.cfg.peers ⊆ cfg.peers →
      disk.files result.shareUri = none → disk.writable outPath = true →
      Retrieves ssl cfg segments (upload.putFile.run (worldHandle (Cluster.network segments))
        (Cluster.empty, own)).2.1 disk result.shareUri outPath upload.content := by
  intro hall
  have hretrieves := hall vaultSsl {} aaUpload {} {} (vaultPlan (str "aa") 7) (str "out")
    (vaultResult (vaultPlan (str "aa") 7)) vaultConfig (by decide) aa_returned aa_plan (by decide)
    (by decide +kernel) (vault_noCollision (by simp)) (vault_letters (by decide))
    (vault_rejects (Or.inl rfl) (Or.inl rfl)) vault_keyFor vault_usable (List.Subset.refl _) rfl rfl
  exact absurd hretrieves.1 (by decide +kernel)

/-- The chunk at position `n` is left for a download. An encrypted one is, if it is still there at
the first candidate that is not passed over; a plaintext one is, if some peer has had it from a
plaintext call and from no encrypted call at all. -/
def Survives (cfg : ClientConfig) (calls later : List (Upload ssl × LocalDisk))
    (upload : Upload ssl) (n : Nat) (c : Bytes) : Prop :=
  if upload.Encrypted then
    c.length < 2 ^ 31 ∧ Until (PassedOver calls upload n c) (StillThere later upload c)
      (candidates ssl cfg (Crypto.sha256Hex ssl c))
  else ∃ p, (∃ call ∈ calls, ¬ call.1.Encrypted ∧ call.1.Places c p) ∧ Untouched calls c p

theorem opens_iff_survives (hplan : upload.plan = .ok plan) (hc : ssl.NoCollision c)
    (hpeers : ∀ call ∈ before ++ (upload, own) :: later, call.1.cfg.peers ⊆ cfg.peers)
    (hsend : ∀ c ∈ plan.chunks, Sendable plan.enc c) (hnodup : plan.chunks.Nodup)
    (hreject : upload.Encrypted → ssl.Rejects upload.fileKey.params upload.fileKey.params ∧
      OtherKeys upload (before ++ later)) {n : Nat} (hn : plan.chunks[n]? = some c) :
    (afterCalls segments (before ++ (upload, own) :: later) Cluster.empty).Opens ssl cfg plan.enc
        n c ↔ Survives cfg (before ++ (upload, own) :: later) later upload n c := by
  have hmem := List.mem_of_getElem? hn
  unfold Survives
  by_cases henc : upload.Encrypted
  · rw [if_pos henc]
    obtain ⟨hself, hkeys⟩ := hreject henc
    refine opens_encrypted_iff hplan henc hc hkeys fun hshort q hq => ?_
    obtain ⟨j, hj, hposition⟩ := own_opens_iff hplan henc hc hsend hshort hself hmem hq
    obtain rfl : n = j := (List.getElem?_inj (List.getElem?_eq_some_iff.mp hn).1 hnodup).mp
      (hn.trans hj.symm)
    exact (hposition q hq n).mpr rfl
  · rw [if_neg henc]
    constructor
    · intro hopens
      obtain ⟨p, -, hopen⟩ := Until.exists_hit hopens
      exact ⟨p, (open_plain_iff hplan henc hc n).mp hopen⟩
    · rintro ⟨p, hput, huntouched⟩
      have hp : p ∈ cfg.peers := by
        obtain ⟨call, hcall, -, -, -, -, hp⟩ := hput
        exact hpeers call hcall (call.1.targets_subset _ hp)
      refine Until.of_mem (fun q _ data _ => ?_) ((mem_candidates ssl cfg _ p).mpr hp)
        ((open_plain_iff hplan henc hc n).mpr ⟨hput, huntouched⟩)
      rw [Upload.enc_of_not_encrypted hplan henc]
      exact not_badTag_plain data

/-- **Which uploads survive.** After any sequence of calls, the file of a call that has returned can
be downloaded exactly when each of its chunks is left. -/
theorem upload_retrievable_iff_survives (hname : upload.Named)
    (hreturned : (upload.putFile.run (worldHandle (Cluster.network segments))
      (afterCalls segments before Cluster.empty, own)).1 = .ok result)
    (hplan : upload.plan = .ok plan) (hnodup : plan.chunks.Nodup)
    (hpeers : ∀ call ∈ before ++ (upload, own) :: later, call.1.cfg.peers = peers)
    (hcfg : peers ⊆ cfg.peers) (htext : ssl.NoCollision plan.text)
    (hchunks : ∀ c ∈ plan.chunks, ssl.NoCollision c)
    (hreject : upload.Encrypted → ssl.Rejects upload.fileKey.params upload.fileKey.params ∧
      OtherKeys upload (before ++ later))
    (hkey : upload.KeyFor cfg) (hlocal : disk.files result.shareUri = none)
    (hwritable : disk.writable outPath = true) :
    Retrieves ssl cfg segments
        (afterCalls segments (before ++ (upload, own) :: later) Cluster.empty) disk
        result.shareUri outPath upload.content ↔
      Usable ssl peers ∧ ∀ n c, plan.chunks[n]? = some c →
        Survives cfg (before ++ (upload, own) :: later) later upload n c := by
  obtain ⟨plan', hplan', -, hsend, -⟩ :=
    @manifest_afterCalls ssl segments before later upload own result hreturned
  rw [hplan] at hplan'
  cases hplan'
  have hsubset : ∀ call ∈ before ++ (upload, own) :: later, call.1.cfg.peers ⊆ cfg.peers :=
    fun call hcall => (hpeers call hcall).symm ▸ hcfg
  refine (retrieves_afterCalls_iff hname hreturned hplan hpeers hcfg htext hchunks hkey hlocal
    hwritable).trans (and_congr_right fun _ => forall₃_congr fun n c hn => ?_)
  exact opens_iff_survives hplan (hchunks c (List.mem_of_getElem? hn)) hsubset hsend hnodup hreject
    hn

/-- The last of two encrypted uploads of one letter. -/
theorem second_note_retrievable : Retrieves vaultSsl vaultConfig {}
    (afterCalls {} [(a7Upload, {}), (a8Upload, {})] Cluster.empty) {}
    (vaultResult (vaultPlan (str "a") 8)).shareUri (str "out") (str "a") := by
  refine (@upload_retrievable_iff_survives vaultSsl {} [(a7Upload, {})] [] a8Upload {} {}
    (vaultPlan (str "a") 8) (str "out") (vaultResult (vaultPlan (str "a") 8)) vaultConfig.peers
    vaultConfig (by decide) a8_returned a8_plan (by decide) ?_ (List.Subset.refl _)
    (vault_noCollision (by simp)) (vault_letters (by decide)) ?_ vault_keyFor rfl rfl).mpr
      ⟨vault_usable, ?_⟩
  · simp [a7Upload, a8Upload, vaultUpload]
  · intro _
    refine ⟨vault_rejects (Or.inr rfl) (Or.inr rfl), fun call hcall _ => ?_⟩
    obtain rfl : call = (a7Upload, {}) := by simpa using hcall
    exact ⟨by decide, vault_rejects (Or.inl rfl) (Or.inr rfl)⟩
  · intro n c hn
    obtain rfl : c = str "a" := List.mem_singleton.mp (List.mem_of_getElem? hn)
    rw [Survives, if_pos (by decide)]
    have hone : candidates vaultSsl vaultConfig (Crypto.sha256Hex vaultSsl (str "a")) =
        [⟨str "10.0.0.1", 9000⟩] := by decide +kernel
    obtain ⟨p, hp⟩ := a8Upload.exists_target vault_usable (Crypto.sha256Hex vaultSsl (str "a"))
    obtain rfl : p = ⟨str "10.0.0.1", 9000⟩ :=
      List.mem_singleton.mp (a8Upload.targets_subset _ hp)
    rw [hone]
    exact ⟨by decide, Or.inl ⟨hp, by simp [Untouched]⟩⟩

/-- The first of two encrypted uploads of one letter: its chunk is stored again under another
key. -/
theorem first_note_lost :
    ¬ ∀ (ssl : OpenSsl) (segments : Cluster.Segments) (before later : List (Upload ssl × LocalDisk))
        (upload : Upload ssl) (own disk : LocalDisk) (plan : Plan) (outPath : Bytes)
        (result : PutFileResult) (peers : List PeerEndpoint) (cfg : ClientConfig),
      upload.Named →
      (upload.putFile.run (worldHandle (Cluster.network segments))
        (afterCalls segments before Cluster.empty, own)).1 = .ok result →
      upload.plan = .ok plan → plan.chunks.Nodup →
      (∀ call ∈ before ++ (upload, own) :: later, call.1.cfg.peers = peers) →
      peers ⊆ cfg.peers → Usable ssl peers → ssl.NoCollision plan.text →
      (∀ c ∈ plan.chunks, ssl.NoCollision c) →
      (upload.Encrypted → ssl.Rejects upload.fileKey.params upload.fileKey.params ∧
        OtherKeys upload (before ++ later)) →
      upload.KeyFor cfg → disk.files result.shareUri = none → disk.writable outPath = true →
      Retrieves ssl cfg segments
        (afterCalls segments (before ++ (upload, own) :: later) Cluster.empty) disk
        result.shareUri outPath upload.content := by
  intro hall
  have hretrieves := hall vaultSsl {} [] [(a8Upload, {})] a7Upload {} {}
    (vaultPlan (str "a") 7) (str "out") (vaultResult (vaultPlan (str "a") 7)) vaultConfig.peers
    vaultConfig (by decide) a7_returned a7_plan (by decide)
    (by simp [a7Upload, a8Upload, vaultUpload]) (List.Subset.refl _) vault_usable
    (vault_noCollision (by simp)) (vault_letters (by decide))
    (fun _ => ⟨vault_rejects (Or.inl rfl) (Or.inl rfl), fun call hcall _ => by
      obtain rfl : call = (a8Upload, {}) := by simpa using hcall
      exact ⟨by decide, vault_rejects (Or.inr rfl) (Or.inl rfl)⟩⟩) vault_keyFor rfl rfl
  exact absurd hretrieves.1 (by decide +kernel)

end Readers

end DecentStore
