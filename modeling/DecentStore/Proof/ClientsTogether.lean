import DecentStore.Proof.LostUploads
import DecentStore.Proof.DownloadOrder
import DecentStore.Proof.SentRequests

/-!
# Clients of all kinds together

Uploads with and without encryption and downloads run at the same time against peers with disks. A
client keeps what an upload has stored as long as it stores nothing else for a chunk of the upload
on a peer that is asked for it. A plaintext upload does so for the same bytes only, an encrypted one
always does. So uploads of which one is encrypted go together for a reader if neither places a chunk
of the other on one of the reader's peers, and then a share id that has been returned is good
whatever the other clients do.
-/

namespace DecentStore

open Bytes Posix FileSystem Interaction PeerService DssClient

section Reading

variable {cmd : Bytes}

theorem ofBytes_getRequest_cmd (hcmd : Token cmd) (id : Bytes) {r : Request}
    (hr : Request.ofBytes (PeerClient.getRequest cmd id) = some r) : r.cmd = cmd := by
  have hplain := plain_of_token hcmd
  have hline : ∃ rest, ((PeerClient.getRequest cmd id).takeWhile (!isNewline ·)).filter (· ≠ 13) =
      cmd ++ 32 :: rest := by
    rw [PeerClient.getRequest_eq, PeerClient.getLine, List.append_assoc, List.cons_append,
      List.takeWhile_append_of_pos fun b hb => by simpa [isNewline] using (hplain b hb).1,
      List.takeWhile_cons_of_pos (by decide), List.filter_append,
      List.filter_eq_self.mpr fun b hb => by simpa using (hplain b hb).2,
      List.filter_cons_of_pos (by decide)]
    exact ⟨_, rfl⟩
  obtain ⟨rest, hrest⟩ := hline
  rw [Request.ofBytes, headerLine, lineFrom, List.nil_append, hrest] at hr
  split at hr
  · rw [Option.map_some, words_cons hcmd] at hr
    cases hr
    rfl
  · cases hr

/-- Whatever is asked for. -/
theorem Cluster.network_read (segments : Cluster.Segments) (peer : PeerEndpoint)
    (hcmd : cmd = str "GET_CHUNK" ∨ cmd = str "GET_MANIFEST") (id : Bytes)
    (s : Cluster × LocalDisk) :
    (Cluster.network segments peer (PeerClient.getRequest cmd id) s).2 = s.1 := by
  have hnext : (Cluster.network segments peer (PeerClient.getRequest cmd id) s).2 =
      Function.update s.1 peer (serve IdealStore.operations
        ⟨PeerClient.getRequest cmd id, segments.request peer (PeerClient.getRequest cmd id),
          .closed⟩ (s.1 peer)).2 := by
    rw [Cluster.network]
    split <;> rename_i heq <;> rw [heq]
  rw [hnext, serve_eq, Function.update_eq_self_iff]
  cases hr : Request.ofBytes (PeerClient.getRequest cmd id) with
  | none => rfl
  | some r =>
      rcases hcmd with rfl | rfl
      · have hread := ofBytes_getRequest_cmd (by decide) id hr
        simp only [Request.reply_getChunk _ hread, IdealStore.loadChunk_after]
      · have hread := ofBytes_getRequest_cmd (by decide) id hr
        simp only [Request.reply_getManifest _ hread]

end Reading

/-! ### What is kept of an upload -/

section Kept

variable {ssl : OpenSsl}

/-- What these peers have under the ids of an upload opens to the chunks of the upload. -/
structure Kept (ssl : OpenSsl) (peers : List PeerEndpoint) (plan : Plan) (cluster : Cluster) :
    Prop where
  chunk : ∀ n c, plan.chunks[n]? = some c → ∀ p ∈ peers,
    ∀ data, (cluster p).chunks (Crypto.sha256Hex ssl c) = some data →
      data.length ≤ maxSize ∧ openChunk ssl plan.enc (UInt64.ofNat n) data = .ok c
  manifest : ∀ p text, (cluster p).manifests (plan.hash ssl) = some text → text = plan.text

/-- A step that loses nothing and keeps the upload. -/
structure Guards (ssl : OpenSsl) (peers : List PeerEndpoint) (plan : Plan) (a b : Cluster) :
    Prop where
  kept : Kept ssl peers plan a → Kept ssl peers plan b
  chunks : ∀ peer id, a.Has peer id → b.Has peer id
  manifests : ∀ peer id, a.HasManifest peer id → b.HasManifest peer id

variable {peers : List PeerEndpoint} {upload other : Upload ssl} {plan plan' : Plan}
  {a b c : Cluster}

theorem kept_empty : Kept ssl peers plan Cluster.empty where
  chunk := by
    rintro n c - p - data hdata
    cases hdata
  manifest := by
    rintro p text htext
    cases htext

theorem Guards.refl (a : Cluster) : Guards ssl peers plan a a :=
  ⟨id, fun _ _ => id, fun _ _ => id⟩

theorem Guards.trans (hab : Guards ssl peers plan a b) (hbc : Guards ssl peers plan b c) :
    Guards ssl peers plan a c :=
  ⟨hbc.kept ∘ hab.kept, fun p i hi => hbc.chunks p i (hab.chunks p i hi),
    fun p i hi => hbc.manifests p i (hab.manifests p i hi)⟩

theorem Spread.guarded (hspread : Spread other plan' a)
    (hguards : Guards ssl peers plan a b) : Spread other plan' b where
  chunks := fun c hc p hp => hguards.chunks _ _ (hspread.chunks c hc p hp)
  manifest := fun p hp => hguards.manifests _ _ (hspread.manifest p hp)

/-- These bytes open to every chunk of the upload that they are stored for. -/
def Fits (ssl : OpenSsl) (peers : List PeerEndpoint) (plan : Plan) (peer : PeerEndpoint)
    (id data : Bytes) : Prop :=
  data.length ≤ maxSize ∧ ∀ n c, plan.chunks[n]? = some c → Crypto.sha256Hex ssl c = id →
    peer ∈ peers → openChunk ssl plan.enc (UInt64.ofNat n) data = .ok c

theorem guards_putChunk {peer : PeerEndpoint} {id data : Bytes}
    (hfits : Fits ssl peers plan peer id data) :
    Guards ssl peers plan a (a.putChunk peer id data) where
  kept := by
    refine fun hkept => ⟨fun n c hc p hp data' hdata => ?_, fun p text htext => ?_⟩
    · rw [Cluster.chunks_putChunk] at hdata
      split at hdata
      · rename_i hcell
        obtain ⟨rfl, hid⟩ := hcell
        cases hdata
        exact ⟨hfits.1, hfits.2 n c hc hid hp⟩
      · exact hkept.chunk n c hc p hp data' hdata
    · rw [Cluster.manifests_putChunk] at htext
      exact hkept.manifest p text htext
  chunks := fun _ _ hhas => hhas.putChunk peer id data
  manifests := fun _ _ hhas => hhas.putChunk peer id data

theorem guards_putManifest (htext : ssl.NoCollision plan.text) (peer : PeerEndpoint)
    (text : Bytes) :
    Guards ssl peers plan a (a.putManifest peer (Crypto.sha256Hex ssl text) text) where
  kept := by
    refine fun hkept => ⟨fun n c hc p hp data hdata => ?_, fun p text' hstored => ?_⟩
    · rw [Cluster.chunks_putManifest] at hdata
      exact hkept.chunk n c hc p hp data hdata
    · rw [Cluster.manifests_putManifest] at hstored
      split at hstored
      · rename_i hcell
        cases hstored
        exact htext.eq hcell.2.symm
      · exact hkept.manifest p text' hstored
  chunks := fun _ _ hhas => hhas.putManifest peer _ text
  manifests := fun _ _ hhas => hhas.putManifest peer _ text

/-! ### What an upload stores -/

/-- The upload has this chunk. -/
def Upload.Contains (upload : Upload ssl) (c : Bytes) : Prop :=
  ∃ plan, upload.plan = .ok plan ∧ c ∈ plan.chunks

/-- The upload keeps what it stores itself: if it encrypts, its chunks can be encrypted whole, and
equal chunks have the same IV. -/
structure Upload.Coherent (upload : Upload ssl) (plan : Plan) : Prop where
  short : upload.Encrypted → ∀ c ∈ plan.chunks, c.length < 2 ^ 31
  once : upload.Encrypted → ∀ n m c, plan.chunks[n]? = some c → plan.chunks[m]? = some c →
    n % 2 ^ 32 = m % 2 ^ 32

/-- The other upload goes together with this one, for a reader with these peers: neither is
encrypted, or none of the peers is to have a chunk of this one from the other. -/
def Upload.Beside (upload other : Upload ssl) (peers : List PeerEndpoint) : Prop :=
  (¬ upload.Encrypted ∧ ¬ other.Encrypted) ∨ ∀ c, upload.Contains c → other.Contains c →
    ∀ p ∈ peers, p ∉ other.targets (Crypto.sha256Hex ssl c)

theorem length_of_touchOf (hplan : upload.plan = .ok plan) {n : Nat} {c : Bytes}
    (hc : c ∈ plan.chunks) {touch : Touch Bytes} (htouch : touchOf ssl plan.enc n c = .ok touch) :
    touch.data.length ≤ maxSize := by
  rcases @touchOf_cases ssl plan.enc (Upload.plan_wholeKey hplan) c
    (Upload.plan_fits hplan c hc) n with ⟨-, e, he⟩ | ⟨-, touch', htouch', hle, -⟩
  · rw [he] at htouch
    cases htouch
  · rw [htouch] at htouch'
    cases htouch'
    exact hle

theorem openChunk_touch (hlength : WholeKey plan.enc) {n m : Nat} {c : Bytes}
    (hshort : plan.enc ≠ none → c.length < 2 ^ 31)
    (hsame : plan.enc ≠ none → n % 2 ^ 32 = m % 2 ^ 32) {touch : Touch Bytes}
    (htouch : touchOf ssl plan.enc m c = .ok touch) :
    openChunk ssl plan.enc (UInt64.ofNat n) touch.data = .ok c := by
  cases henc : plan.enc with
  | none =>
      rw [henc] at htouch
      cases htouch
      rfl
  | some params =>
      have hne : plan.enc ≠ none := henc ▸ Option.some_ne_none params
      have hiv := hlength params henc
      have hovers : ∃ data, touch = .overwrite data := by
        rw [henc, touchOf] at htouch
        cases hseal : Crypto.aesGcmEncrypt ssl c params.key params.iv (UInt64.ofNat m) with
        | error e => simp [hseal, Except.map] at htouch
        | ok data =>
            rw [hseal] at htouch
            exact ⟨data, (Except.ok.inj htouch).symm⟩
      obtain ⟨data, rfl⟩ := hovers
      rw [henc] at htouch
      obtain ⟨iv, hderived, hdata⟩ := sealed_eq hiv (hshort hne) htouch
      have hderived' := hderived
      rw [← (Crypto.deriveChunkIv_eq_iff hiv n m).mpr (hsame hne)] at hderived'
      rw [Touch.data, hdata, openChunk, Crypto.aesGcmDecrypt_short (hshort hne) hderived',
        ssl.gcmDecrypt_gcmEncrypt]

/-- **What an upload stores fits itself**, and any upload that it goes together with. -/
theorem fits_of_chunk (hplan : upload.plan = .ok plan) (hplan' : other.plan = .ok plan')
    (hcollide : ∀ c ∈ plan.chunks, ssl.NoCollision c) (hcoherent : upload.Coherent plan)
    (hbeside : other = upload ∨ upload.Beside other peers)
    {m : Nat} {c : Bytes} (hc : plan'.chunks[m]? = some c) {touch : Touch Bytes}
    (htouch : touchOf ssl plan'.enc m c = .ok touch) {peer : PeerEndpoint}
    (hpeer : peer ∈ other.targets (Crypto.sha256Hex ssl c)) :
    Fits ssl peers plan peer (Crypto.sha256Hex ssl c) touch.data := by
  have hmem' : c ∈ plan'.chunks := List.mem_of_getElem? hc
  refine ⟨length_of_touchOf hplan' hmem' htouch, fun n d hd hid htarget => ?_⟩
  have hmem : d ∈ plan.chunks := List.mem_of_getElem? hd
  obtain rfl : c = d := (hcollide d hmem).eq hid.symm
  rcases hbeside with rfl | ⟨hplain, hplain'⟩ | hdisjoint
  · obtain rfl : plan' = plan := Except.ok.inj (hplan'.symm.trans hplan)
    have hencrypted : plan'.enc ≠ none → other.Encrypted := by
      intro hne
      by_contra hnot
      exact hne (Upload.enc_of_not_encrypted hplan hnot)
    exact openChunk_touch (Upload.plan_wholeKey hplan)
      (fun hne => hcoherent.short (hencrypted hne) c hmem)
      (fun hne => hcoherent.once (hencrypted hne) n m c hd hc) htouch
  · rw [Upload.enc_of_not_encrypted hplan' hplain'] at htouch
    rw [Upload.enc_of_not_encrypted hplan hplain]
    cases htouch
    rfl
  · exact absurd hpeer (hdisjoint c ⟨plan, hplan, hmem⟩ ⟨plan', hplan', hmem'⟩ peer htarget)

end Kept

/-! ### What a client has been told -/

section Recorded

variable {ssl : OpenSsl} {segments : Cluster.Segments} {past : List ClientEvent}
  {a b : Cluster} {peers : List PeerEndpoint} {upload other : Upload ssl} {plan plan' : Plan}

/-- What peers have acknowledged, and said that they have, is there. -/
structure Recorded (ssl : OpenSsl) (past : List ClientEvent) (cluster : Cluster) : Prop where
  chunk : ∀ peer c data, data.length ≤ maxSize →
    Acknowledged past peer (chunkRequest ssl c data) → cluster.Has peer (Crypto.sha256Hex ssl c)
  manifest : ∀ peer (plan : Plan), plan.text.length ≤ maxSize →
    Acknowledged past peer (manifestRequest ssl plan) → cluster.HasManifest peer (plan.hash ssl)
  had : ∀ peer c, SaidToHave past peer (Crypto.sha256Hex ssl c) →
    cluster.Has peer (Crypto.sha256Hex ssl c)

theorem recorded_nil (cluster : Cluster) : Recorded ssl [] cluster where
  chunk := by
    rintro peer c data - ⟨answer, hmem, -⟩
    exact absurd hmem List.not_mem_nil
  manifest := by
    rintro peer plan - ⟨answer, hmem, -⟩
    exact absurd hmem List.not_mem_nil
  had := by
    rintro peer c ⟨answer, hmem, -⟩
    exact absurd hmem List.not_mem_nil

theorem Recorded.guarded (hrecorded : Recorded ssl past a) (hguards : Guards ssl peers plan a b) :
    Recorded ssl past b where
  chunk := fun peer c data hdata hdone =>
    hguards.chunks _ _ (hrecorded.chunk peer c data hdata hdone)
  manifest := fun peer plan htext hdone =>
    hguards.manifests _ _ (hrecorded.manifest peer plan htext hdone)
  had := fun peer c hsaid => hguards.chunks _ _ (hrecorded.had peer c hsaid)

theorem has_of_saysHas {peer : PeerEndpoint} {id : Bytes} (hid : IsHashHex id)
    {s : Cluster × LocalDisk} (hanswered : (Cluster.network segments peer
      (PeerClient.getRequest (str "HAS_CHUNK") id) s).1.SaysHas) : s.1.Has peer id := by
  by_contra hnot
  have hmissing : ¬ ((s.1 peer).chunks id).isSome = true := hnot
  rw [Cluster.network_hasChunk segments peer s hid, if_neg hmissing] at hanswered
  obtain ⟨line, hline, hok⟩ := hanswered
  rw [PeerClient.recvLine_err rfl] at hline
  cases hline
  cases hok.symm.trans PeerClient.saysErr_line

/-- An exchange with an ideal peer is recorded as it is answered. -/
theorem Recorded.snoc (hrecorded : Recorded ssl past a) {peer : PeerEndpoint} {request : Bytes}
    {disk : LocalDisk}
    (hguards : Guards ssl peers plan a (Cluster.network segments peer request (a, disk)).2) :
    Recorded ssl (past ++ [⟨.exchange peer request,
        (Cluster.network segments peer request (a, disk)).1⟩])
      (Cluster.network segments peer request (a, disk)).2 where
  chunk := by
    rintro peer' c data hdata ⟨answer, hmem, hack⟩
    rcases List.mem_append.mp hmem with hmem | hmem
    · exact (hrecorded.guarded hguards).chunk peer' c data hdata ⟨answer, hmem, hack⟩
    · cases List.mem_singleton.mp hmem
      rw [chunkRequest, Cluster.network_putChunk segments peer (a, disk)
        (Crypto.sha256Hex_isHashHex ssl c) hdata]
      simp [Cluster.Has]
  manifest := by
    rintro peer' plan' htext ⟨answer, hmem, hack⟩
    rcases List.mem_append.mp hmem with hmem | hmem
    · exact (hrecorded.guarded hguards).manifest peer' plan' htext ⟨answer, hmem, hack⟩
    · cases List.mem_singleton.mp hmem
      rw [manifestRequest, Cluster.network_putManifest segments peer (a, disk)
        (Upload.hash_isHashHex plan') htext]
      simp [Cluster.HasManifest]
  had := by
    rintro peer' c ⟨answer, hmem, hanswered⟩
    rcases List.mem_append.mp hmem with hmem | hmem
    · exact (hrecorded.guarded hguards).had peer' c ⟨answer, hmem, hanswered⟩
    · cases List.mem_singleton.mp hmem
      exact hguards.chunks _ _ (has_of_saysHas (Crypto.sha256Hex_isHashHex ssl c) hanswered)

theorem recorded_local (hrecorded : Recorded ssl past a) {event : ClientEvent}
    (hlocal : ∀ peer request, event.1 ≠ .exchange peer request) :
    Recorded ssl (past ++ [event]) a := by
  have hold : ∀ peer request (answer : Exchange),
      ⟨.exchange peer request, answer⟩ ∈ past ++ [event] →
        ⟨.exchange peer request, answer⟩ ∈ past := by
    intro peer request answer hmem
    rcases List.mem_append.mp hmem with hmem | hmem
    · exact hmem
    · exact absurd (congrArg Sigma.fst (List.mem_singleton.mp hmem)).symm (hlocal peer request)
  exact
    { chunk := fun peer c data hdata ⟨answer, hmem, hack⟩ =>
        hrecorded.chunk peer c data hdata ⟨answer, hold _ _ _ hmem, hack⟩
      manifest := fun peer plan htext ⟨answer, hmem, hack⟩ =>
        hrecorded.manifest peer plan htext ⟨answer, hold _ _ _ hmem, hack⟩
      had := fun peer c ⟨answer, hmem, hanswered⟩ =>
        hrecorded.had peer c ⟨answer, hold _ _ _ hmem, hanswered⟩ }

/-- **What has been told is there.** An upload whose objects have all been placed is spread. -/
theorem Recorded.spread (hrecorded : Recorded ssl past a) (hplan : other.plan = .ok plan')
    (hplaced : AllPlaced other plan' past) (hpublished : Published other plan' past) :
    Spread other plan' a where
  chunks := by
    intro c hc p hp
    obtain ⟨n, hn⟩ := List.getElem?_of_mem hc
    rcases hplaced n c hn p hp with ⟨-, hsaid⟩ | ⟨touch, htouch, hdone⟩
    · exact hrecorded.had p c hsaid
    · exact hrecorded.chunk p c _ (length_of_touchOf hplan hc htouch) hdone
  manifest := fun p hp =>
    hrecorded.manifest p plan' (other.text_fits plan' hplan).le (hpublished p hp)

/-- One call of a client whose exchanges guard the upload. -/
theorem Recorded.call {s : Cluster × LocalDisk} (hrecorded : Recorded ssl past s.1) (c : Call)
    (hexchange : ∀ peer request, c = .exchange peer request →
      Guards ssl peers plan s.1 (Cluster.network segments peer request s).2) :
    Pool.Own (Guards ssl peers plan) s (worldHandle (Cluster.network segments) c s).2 ∧
      Recorded ssl (past ++ [⟨c, (worldHandle (Cluster.network segments) c s).1⟩])
        (worldHandle (Cluster.network segments) c s).2.1 := by
  by_cases hlocal : ∀ peer request, c ≠ .exchange peer request
  · unfold Pool.Own
    rw [worldHandle_offline _ hlocal]
    exact ⟨Guards.refl _, recorded_local hrecorded hlocal⟩
  · push Not at hlocal
    obtain ⟨peer, request, rfl⟩ := hlocal
    have hguards := hexchange peer request rfl
    exact ⟨hguards, hrecorded.snoc hguards⟩

end Recorded

/-! ### Clients -/

/-- A client of the peers. -/
inductive Client (ssl : OpenSsl) where
  | put (upload : Upload ssl)
  | get (cfg : ClientConfig) (manifestRef outPath : Bytes)

def Client.prog {ssl : OpenSsl} : Client ssl → ClientProg (Option PutFileResult)
  | .put upload => do return some (← upload.putFile)
  | .get cfg manifestRef outPath => do
      getFile ssl cfg manifestRef outPath
      return none

section Clients

variable {ssl : OpenSsl} {segments : Cluster.Segments} {peers : List PeerEndpoint}
  {upload other : Upload ssl} {plan plan' : Plan}

/-- The program guards the upload in the company of others that do. -/
abbrev Guarding (ssl : OpenSsl) (segments : Cluster.Segments) (peers : List PeerEndpoint)
    (plan : Plan) {α : Type} (prog : ClientProg α)
    (post : Except Exc α → Cluster × LocalDisk → Prop) (s : Cluster × LocalDisk) : Prop :=
  prog.Holds (worldHandle (Cluster.network segments)) (Pool.Others (Guards ssl peers plan))
    (Pool.Own (Guards ssl peers plan)) post s

section Put

variable (hplan : upload.plan = .ok plan) (htext : ssl.NoCollision plan.text)
  (hcollide : ∀ c ∈ plan.chunks, ssl.NoCollision c) (hcoherent : upload.Coherent plan)
  (hbeside : other = upload ∨ upload.Beside other peers)

include hplan htext hcollide hcoherent hbeside

theorem guards_sent (hplan' : other.plan = .ok plan') {past : List ClientEvent}
    {peer : PeerEndpoint} {request : Bytes} (hsent : Sent other plan' past peer request)
    (s : Cluster × LocalDisk) :
    Guards ssl peers plan s.1 (Cluster.network segments peer request s).2 := by
  cases hsent with
  | question c =>
      rw [Cluster.network_hasChunk segments peer s (Crypto.sha256Hex_isHashHex ssl c)]
      exact Guards.refl s.1
  | @chunk n c touch hc htouch hpeer hasked =>
      have hfits := fits_of_chunk hplan hplan' hcollide hcoherent hbeside hc htouch hpeer
      rw [chunkRequest, Cluster.network_putChunk segments peer s
        (Crypto.sha256Hex_isHashHex ssl c) hfits.1]
      exact guards_putChunk hfits
  | manifest =>
      rw [manifestRequest, Cluster.network_putManifest segments peer s
        (Upload.hash_isHashHex plan') (other.text_fits plan' hplan').le]
      exact guards_putManifest htext peer plan'.text

/-- **An upload of any mode** guards every upload that it goes together with, and when it returns
its objects are on all their targets. -/
theorem putFile_guards (s : Cluster × LocalDisk) :
    Guarding ssl segments peers plan other.putFile (SpreadBy other) s := by
  have hthrows : ∀ e, other.putFile = throw e →
      Guarding ssl segments peers plan other.putFile (SpreadBy other) s := by
    intro e he
    rw [he]
    rintro result hresult
    cases hresult
  by_cases hpeers : other.cfg.peers = []
  · exact hthrows noPeers (Upload.putFile_no_peers hpeers)
  by_cases hplanned : ∃ plan', other.plan = .ok plan'
  · obtain ⟨plan', hplan'⟩ := hplanned
    rw [Upload.putFile_of_plan hpeers hplan']
    have hboth := (@perform_orderly ssl other plan' hpeers).and perform_sending
    refine Prog.holds_mono ?_ (hboth.holds (fun past s => Recorded ssl past s.1)
      (fun past s s' hothers hrecorded => hrecorded.guarded hothers.1) ?_ (recorded_nil s.1))
    · rintro r s' ⟨past, ⟨horderly, -⟩, hrecorded⟩ result hresult
      obtain ⟨-, huri, hplaced, hpublished⟩ := horderly result hresult
      exact ⟨plan', hplan', huri, hrecorded.spread hplan' hplaced hpublished⟩
    · intro past c s hbefore hrecorded
      exact hrecorded.call c fun peer request hcall =>
        guards_sent hplan htext hcollide hcoherent hbeside hplan' (hbefore.2 peer request hcall) s
  · obtain ⟨e, he⟩ := Upload.putFile_of_error fun plan hok => hplanned ⟨plan, hok⟩
    exact hthrows e he

end Put

/-- A download guards every upload, whatever it asks for. -/
theorem getFile_guards (cfg : ClientConfig) (manifestRef outPath : Bytes)
    (s : Cluster × LocalDisk) :
    Guarding ssl segments peers plan (getFile ssl cfg manifestRef outPath) (fun _ _ => True) s := by
  by_cases hpeers : cfg.peers = []
  · rw [getFile_no_peers hpeers]
    trivial
  refine Prog.holds_mono (fun _ _ _ => trivial) ((getFile_follows hpeers).holds
    (fun past s => Recorded ssl past s.1)
    (fun past s s' hothers hrecorded => hrecorded.guarded hothers.1) ?_ (recorded_nil s.1))
  intro past c s hbefore hrecorded
  refine hrecorded.call c fun peer request hcall => ?_
  have hquery : ∃ cmd id, (cmd = str "GET_CHUNK" ∨ cmd = str "GET_MANIFEST") ∧
      request = PeerClient.getRequest cmd id := by
    rcases (hbefore.exchange peer request hcall).2 with ⟨-, rfl⟩ | ⟨entry, enc, -, rfl⟩
    · exact ⟨_, _, Or.inr rfl, rfl⟩
    · exact ⟨_, _, Or.inl rfl, rfl⟩
  obtain ⟨cmd, id, hcmd, rfl⟩ := hquery
  rw [Cluster.network_read segments peer hcmd id s]
  exact Guards.refl s.1

end Clients

/-! ### A reader of what is kept -/

section Reading

variable {ssl : OpenSsl} {cfg : ClientConfig} {segments : Cluster.Segments} {upload : Upload ssl}
  {plan : Plan} {now : Cluster}

/-- A reader who comes when the stores are as they are now, among clients that guard the upload. -/
def Reader.guarded (ssl : OpenSsl) (cfg : ClientConfig) (segments : Cluster.Segments) (plan : Plan)
    (now : Cluster) : Reader ssl Cluster where
  cfg := cfg
  net := Cluster.network segments
  move := Guards ssl cfg.peers plan
  keep := Guards ssl cfg.peers plan now
  refl := Guards.refl
  keep_of_move := fun hmove hkeep => hkeep.trans hmove
  get_moves := by
    intro peer cmd id s hcmd _ _
    rw [Cluster.network_read segments peer hcmd id s]
    exact Guards.refl s.1

theorem guarded_answers : (Reader.guarded ssl cfg segments plan now).Answers :=
  fun p _ _ _ s _ _ _ => Cluster.network_ends segments p s _

/-- What is kept has no bad tag, so one of the peers that has a chunk is enough. -/
theorem guarded_chunkServed (hkept : Kept ssl cfg.peers plan now) {n : Nat} {c : Bytes}
    (hc : plan.chunks[n]? = some c) {p : PeerEndpoint} (hp : p ∈ cfg.peers)
    (hhas : now.Has p (Crypto.sha256Hex ssl c)) :
    (Reader.guarded ssl cfg segments plan now).ChunkServed plan.enc n
      (Crypto.sha256Hex ssl c) := by
  have hid := Crypto.sha256Hex_isHashHex ssl c
  refine Reader.chunkServed_of_answers guarded_answers hid hp
    (fun q hq s hguards _ encData hreceived hbad => ?_) fun s hguards _ => ⟨c, ?_⟩
  · have hall := (hguards.kept hkept).chunk n c hc q hq
    have hstored := Cluster.stored_of_received (fun data hdata => (hall data hdata).1) hid hreceived
    cases (hall encData hstored).2.symm.trans hbad
  · obtain ⟨data, hdata⟩ := Option.isSome_iff_exists.mp (hguards.chunks _ _ hhas)
    obtain ⟨hle, hopen⟩ := (hguards.kept hkept).chunk n c hc p hp data hdata
    exact acceptChunk_delivers (Cluster.chunk_delivered segments hid hle hdata) hopen

theorem guarded_manifestServed (hkept : Kept ssl cfg.peers plan now) (hname : upload.Named)
    (hplan : upload.plan = .ok plan) {p : PeerEndpoint} (hp : p ∈ cfg.peers)
    (hhas : now.HasManifest p (plan.hash ssl)) :
    (Reader.guarded ssl cfg segments plan now).ManifestServed (plan.hash ssl) := by
  have hid : IsHashHex (plan.hash ssl) := Upload.hash_isHashHex plan
  refine Reader.manifestServed_of_answers guarded_answers hid hp
    fun s hguards => ⟨plan.manifest, ?_⟩
  obtain ⟨text, htext⟩ := Option.isSome_iff_exists.mp (hguards.manifests _ _ hhas)
  obtain rfl := (hguards.kept hkept).manifest p text htext
  exact acceptManifest_delivers hname hplan (Cluster.manifest_delivered segments hid
    (upload.text_fits plan hplan).le htext)

/-- A download of an upload that is spread and kept. -/
theorem getFile_guarded (husable : Usable ssl upload.cfg.peers) (hname : upload.Named)
    (hplan : upload.plan = .ok plan) (htext : ssl.NoCollision plan.text)
    (hcollide : ∀ c ∈ plan.chunks, ssl.NoCollision c) (hkept : Kept ssl cfg.peers plan now)
    (hspread : Spread upload plan now) (hcfg : upload.cfg.peers ⊆ cfg.peers)
    (hkey : upload.KeyFor cfg) {outPath : Bytes} {disk : LocalDisk}
    (hlocal : disk.files (plan.shareUri ssl) = none) (hwritable : disk.writable outPath = true) :
    Guarding ssl segments cfg.peers plan (getFile ssl cfg (plan.shareUri ssl) outPath)
      (fun r s => r = .ok () ∧ s.2.files outPath = some upload.content) (now, disk) := by
  have htarget : ∀ key, ∃ p ∈ cfg.peers, p ∈ upload.targets key := by
    intro key
    obtain ⟨p, hp⟩ := upload.exists_target husable key
    exact ⟨p, hcfg (upload.targets_subset key hp), hp⟩
  obtain ⟨p, hp, hmanifest⟩ := htarget (str "manifest:" ++ plan.hash ssl)
  refine @Reader.getFile_retrieves ssl Cluster (Reader.guarded ssl cfg segments plan now) upload
    plan (List.ne_nil_of_mem hp) hname hplan htext outPath (now, disk) (Guards.refl now) hlocal
    hcollide ?_ hwritable plan.enc (Upload.unwrapKey_plan hplan hkey) fun n c hc => ?_
  · exact guarded_manifestServed hkept hname hplan hp (hspread.manifest p hmanifest)
  · have hmem : c ∈ plan.chunks := List.mem_of_getElem? hc
    obtain ⟨q, hq, htargets⟩ := htarget (Crypto.sha256Hex ssl c)
    exact guarded_chunkServed hkept hc hq (hspread.chunks c hmem q htargets)

end Reading

/-! ### All together -/

abbrev ClientPool (σ ι : Type) := Pool Call.Reply Exc (Option PutFileResult) σ LocalDisk ι

section Together

variable {ssl : OpenSsl} {segments : Cluster.Segments} {ι : Type} {clients : ι → Client ssl}
  {peers : List PeerEndpoint} {i : ι} {upload : Upload ssl} {plan : Plan}

/-- The upload of one of the clients goes together with itself and, for a reader with these peers,
with the uploads of all others. -/
structure Apart (peers : List PeerEndpoint) (clients : ι → Client ssl) (i : ι)
    (upload : Upload ssl) : Prop where
  own : clients i = .put upload
  coherent : ∀ plan, upload.plan = .ok plan → upload.Coherent plan
  others : ∀ j other, j ≠ i → clients j = .put other → upload.Beside other peers

/-- If this is the client of the upload and it has returned, the upload is spread. -/
def SpreadAt (i : ι) (upload : Upload ssl) (plan : Plan) (j : ι)
    (r : Except Exc (Option PutFileResult)) (s : Cluster × LocalDisk) : Prop :=
  j = i → ∀ result, r = .ok (some result) →
    result.shareUri = plan.shareUri ssl ∧ Spread upload plan s.1

theorem client_guards (hapart : Apart peers clients i upload) (hplan : upload.plan = .ok plan)
    (htext : ssl.NoCollision plan.text) (hcollide : ∀ c ∈ plan.chunks, ssl.NoCollision c) (j : ι)
    (s : Cluster × LocalDisk) :
    Guarding ssl segments peers plan (clients j).prog (SpreadAt i upload plan j) s := by
  cases hclient : clients j with
  | get cfg manifestRef outPath =>
      have hnot : j ≠ i := by
        rintro rfl
        rw [hapart.own] at hclient
        cases hclient
      refine Prog.holds_bind (getFile_guards cfg manifestRef outPath s) ?_ ?_
      · exact fun _ _ _ hji => absurd hji hnot
      · exact fun _ _ _ hji => absurd hji hnot
  | put other =>
      have hbeside : other = upload ∨ upload.Beside other peers := by
        by_cases hji : j = i
        · subst hji
          rw [hapart.own] at hclient
          cases hclient
          exact Or.inl rfl
        · exact Or.inr (hapart.others j other hji hclient)
      have hput := @putFile_guards ssl segments peers upload other plan hplan htext hcollide
        (hapart.coherent plan hplan) hbeside s
      refine Prog.holds_bind hput ?_ ?_
      · rintro result s' hspread rfl result' hresult
        cases hresult
        rw [hapart.own] at hclient
        cases hclient
        obtain ⟨plan', hplan', huri, hspread⟩ := hspread result rfl
        obtain rfl : plan' = plan := Except.ok.inj (hplan'.symm.trans hplan)
        exact ⟨huri, hspread⟩
      · rintro e s' - rfl result hresult
        cases hresult

variable [DecidableEq ι]

/-- The clients at new ideal peers, wherever they are. -/
theorem clients_guard (hapart : Apart peers clients i upload) (hplan : upload.plan = .ok plan)
    (htext : ssl.NoCollision plan.text) (hcollide : ∀ c ∈ plan.chunks, ssl.NoCollision c)
    (own : ι → LocalDisk) {ideal : ClientPool Cluster ι}
    (hreach : Pool.Reachable (worldHandle (Cluster.network segments))
      ⟨Cluster.empty, fun j => ((clients j).prog, own j)⟩ ideal) :
    Kept ssl peers plan ideal.shared ∧ Pool.AllHold (worldHandle (Cluster.network segments))
      (Guards ssl peers plan) (SpreadAt i upload plan) ideal := by
  have hstable : ∀ j r s s', Pool.Others (Guards ssl peers plan) s s' →
      SpreadAt i upload plan j r s → SpreadAt i upload plan j r s' := by
    intro j r s s' hothers hspread hji result hresult
    obtain ⟨huri, hspread⟩ := hspread hji result hresult
    exact ⟨huri, hspread.guarded hothers.1⟩
  obtain ⟨hguards, hall⟩ := Pool.holds_of_reachable Guards.refl (fun _ _ _ => Guards.trans)
    hstable hreach fun j => client_guards hapart hplan htext hcollide j (Cluster.empty, own j)
  exact ⟨hguards.kept kept_empty, hall⟩

/-- An upload without a plan does not return. -/
theorem plan_of_returned (hown : clients i = .put upload) (start : Cluster)
    (own : ι → LocalDisk) {ideal : ClientPool Cluster ι}
    (hreach : Pool.Reachable (worldHandle (Cluster.network segments))
      ⟨start, fun j => ((clients j).prog, own j)⟩ ideal)
    {result : PutFileResult} (hreturned : (ideal.procs i).1 = .pure (some result)) :
    ∃ plan, upload.plan = .ok plan := by
  by_contra hnone
  obtain ⟨e, he⟩ := Upload.putFile_of_error fun plan hok => hnone ⟨plan, hok⟩
  obtain ⟨events, hreaches, -⟩ := hreach.history i
  have hthrows : (clients i).prog = .throw e := by
    rw [hown, Client.prog, he]
    rfl
  simp only [hreturned, hthrows] at hreaches
  cases hreaches

/-- A client that downloads what is spread and kept, in the company of others that guard it. -/
theorem download_in_company {post : ι → Except Exc (Option PutFileResult) →
      Cluster × LocalDisk → Prop} {ideal later : ClientPool Cluster ι}
    (hall : Pool.AllHold (worldHandle (Cluster.network segments)) (Guards ssl peers plan) post
      ideal)
    {cfg : ClientConfig} {manifestRef outPath content : Bytes} {j : ι}
    (hbegins : (ideal.procs j).1 = (Client.get cfg manifestRef outPath : Client ssl).prog)
    (hget : Guarding ssl segments peers plan (getFile ssl cfg manifestRef outPath)
      (fun r s => r = .ok () ∧ s.2.files outPath = some content)
      (ideal.shared, (ideal.procs j).2))
    (hlater : Pool.Reachable (worldHandle (Cluster.network segments)) ideal later)
    {r : Except Exc (Option PutFileResult)} (hdone : (later.procs j).1 = Prog.ofExcept r) :
    r = .ok none ∧ (later.procs j).2.files outPath = some content := by
  have hall' : Pool.AllHold (worldHandle (Cluster.network segments)) (Guards ssl peers plan)
      (fun k r s => k = j → r = .ok none ∧ s.2.files outPath = some content) ideal := by
    intro k
    by_cases hkj : k = j
    · subst hkj
      rw [hbegins]
      refine Prog.holds_bind hget ?_ ?_
      · rintro a s ⟨-, hfile⟩ -
        exact ⟨rfl, hfile⟩
      · rintro e s ⟨he, -⟩
        cases he
    · exact Prog.holds_mono (fun _ _ _ hsame => absurd hsame hkj) (hall k)
  have hfinal := (Pool.holds_of_reachable Guards.refl (fun _ _ _ => Guards.trans)
    (fun k r s s' hothers hpost hkj => by rw [hothers.2]; exact hpost hkj) hlater hall').2 j
  rw [hdone] at hfinal
  cases r with
  | ok a => exact hfinal rfl
  | error e => exact hfinal rfl

end Together

namespace Peers

variable {ssl : OpenSsl} {dirs : PeerEndpoint → Path} {disks : PeerEndpoint → FileSystem}
  {orders : Peers → PeerEndpoint → Bytes → Orders} {refused : Exc} {segments : Cluster.Segments}
  {ι : Type} [DecidableEq ι]

/-- **Clients of all kinds together.** Uploads with and without encryption and downloads run at the
same time against peers with disks, which are restarted between requests. A download that begins
when an upload has returned its share id ends with the file that was uploaded, whatever the others
do meanwhile, if the upload goes together with the uploads of the others as this reader meets
them. -/
theorem clients_retrieve {bases : PeerEndpoint → Bytes}
    (empty : ∀ peer, EmptyDir (bases peer) (dirs peer) (disks peer))
    (started : PeerEndpoint → Orders) (limits : PeerEndpoint → UInt64) {clients : ι → Client ssl}
    (own : ι → LocalDisk) {pool later : ClientPool Peers ι}
    (hturns : Pool.Turns (worldHandle (network orders refused segments)) Proper Restarts
      ⟨start started bases limits disks, fun i => ((clients i).prog, own i)⟩ pool)
    (hlater : Pool.Turns (worldHandle (network orders refused segments)) Proper Restarts pool later)
    {i j : ι} {upload : Upload ssl} {cfg : ClientConfig}
    (hapart : Apart cfg.peers clients i upload) (husable : Usable ssl upload.cfg.peers)
    (hname : upload.Named)
    (hcollide : ∀ plan, upload.plan = .ok plan →
      ssl.NoCollision plan.text ∧ ∀ c ∈ plan.chunks, ssl.NoCollision c)
    {result : PutFileResult} (hreturned : (pool.procs i).1 = .pure (some result))
    (hcfg : upload.cfg.peers ⊆ cfg.peers) (hkey : upload.KeyFor cfg)
    {outPath : Bytes}
    (hbegins : (pool.procs j).1 = (Client.get cfg result.shareUri outPath : Client ssl).prog)
    (hlocal : (pool.procs j).2.files result.shareUri = none)
    (hwritable : (pool.procs j).2.writable outPath = true)
    {r : Except Exc (Option PutFileResult)} (hdone : (later.procs j).1 = Prog.ofExcept r) :
    r = .ok none ∧ (later.procs j).2.files outPath = some upload.content := by
  have simulated := network_simulates orders refused segments dirs disks
  have hrestarts : ∀ s s' t, Restarts s s' → Settled dirs disks s t → Settled dirs disks s' t :=
    fun _ _ _ hrestarts settled => settled.restarts hrestarts
  have hstart : Pool.Alike (Settled dirs disks)
      ⟨start started bases limits disks, fun i => ((clients i).prog, own i)⟩
      ⟨Cluster.empty, fun i => ((clients i).prog, own i)⟩ :=
    ⟨settled_start started empty limits, rfl⟩
  obtain ⟨ideal, hreach, halike⟩ := hturns.simulated simulated hrestarts hstart
  obtain ⟨ideal', hreach', halike'⟩ := hlater.simulated simulated hrestarts halike
  rw [← halike.procs] at hreturned hbegins hlocal hwritable
  rw [← halike'.procs] at hdone ⊢
  obtain ⟨plan, hplan⟩ := plan_of_returned hapart.own Cluster.empty own hreach hreturned
  obtain ⟨htext, hnoCollision⟩ := hcollide plan hplan
  obtain ⟨hkept, hall⟩ := clients_guard hapart hplan htext hnoCollision own hreach
  have hreturns := hall i
  rw [hreturned] at hreturns
  obtain ⟨huri, hspread⟩ := hreturns rfl result rfl
  rw [huri] at hbegins hlocal
  exact download_in_company hall hbegins (getFile_guarded husable hname hplan htext hnoCollision
    hkept hspread hcfg hkey hlocal hwritable) hreach' hdone

/-! ### A run -/

def clearConfig : ClientConfig := { vaultConfig with rsaPublicKeyPath := [] }

def clearPlan : Plan :=
  { manifest :=
      { originalName := str "memo", originalSize := 1, chunkSize := 1
        chunks := [⟨str "07" ++ List.replicate 62 48⟩] }
    enc := none
    chunks := [str "c"] }

theorem clearUpload_plan : Plan.of vaultSsl clearConfig (str "/home/memo") (str "c") (vaultKey 8) =
    .ok clearPlan := by
  decide +kernel

/-- A file with another chunk, in plaintext. -/
def clearUpload : Upload vaultSsl where
  cfg := clearConfig
  filePath := str "/home/memo"
  content := str "c"
  fileKey := vaultKey 8
  text_fits := by
    intro plan hplan
    rw [clearUpload_plan] at hplan
    cases hplan
    decide +kernel

inductive Party where
  | secret
  | clear
  | reader
deriving DecidableEq

/-- Two uploads, one of them encrypted, and a download of that. -/
def mixedClients : Party → Client vaultSsl
  | .secret => .put abUpload
  | .clear => .put clearUpload
  | .reader => .get vaultConfig ((vaultPlan (str "ab") 7).shareUri vaultSsl) (str "out")

theorem mixed_apart : Apart vaultConfig.peers mixedClients .secret abUpload where
  own := rfl
  coherent := by
    intro plan hplan
    obtain rfl : plan = vaultPlan (str "ab") 7 := Except.ok.inj (hplan.symm.trans ab_plan)
    exact ⟨fun _ => by decide, fun _ => ab_positions⟩
  others := by
    intro j other hj hput
    cases j with
    | secret => exact absurd rfl hj
    | clear =>
        cases hput
        refine Or.inr ?_
        rintro c ⟨plan, hplan, hc⟩ ⟨plan', hplan', hc'⟩
        obtain rfl : plan = vaultPlan (str "ab") 7 := Except.ok.inj (hplan.symm.trans ab_plan)
        obtain rfl : plan' = clearPlan := Except.ok.inj (hplan'.symm.trans clearUpload_plan)
        exfalso
        revert c
        decide
    | reader => cases hput

def mixedStart : ClientPool Peers Party :=
  ⟨start (fun _ => default) (fun _ => str "/peer") (fun _ => 100) fun _ => bareDisk,
    fun i => ((mixedClients i).prog, {})⟩

def mixedRun : Except Exc (Option PutFileResult) × Peers × LocalDisk :=
  (mixedStart.procs .secret).1.run (worldHandle plainNetwork)
    (mixedStart.shared, (mixedStart.procs .secret).2)

/-- The encrypted upload has returned. -/
def mixedUploaded : ClientPool Peers Party :=
  { shared := mixedRun.2.1
    procs := Function.update mixedStart.procs .secret (Prog.ofExcept mixedRun.1, mixedRun.2.2) }

/-- The other upload has asked for its chunk and has sent it. -/
def mixedPool : ClientPool Peers Party := mixedUploaded.advanced (worldHandle plainNetwork) .clear 2

def mixedDownload : Except Exc (Option PutFileResult) × Peers × LocalDisk :=
  (mixedPool.procs .reader).1.run (worldHandle plainNetwork)
    (mixedPool.shared, (mixedPool.procs .reader).2)

def mixedLater : ClientPool Peers Party :=
  { shared := mixedDownload.2.1
    procs := Function.update mixedPool.procs .reader
      (Prog.ofExcept mixedDownload.1, mixedDownload.2.2) }

theorem mixedRun_allowed : (mixedStart.procs .secret).1.Allowed (worldHandle plainNetwork) Proper
    (mixedStart.shared, (mixedStart.procs .secret).2) := by
  decide +kernel

theorem mixedUploaded_allowed : (mixedUploaded.procs .clear).1.Allowed
    (worldHandle plainNetwork) Proper (mixedUploaded.shared, (mixedUploaded.procs .clear).2) := by
  decide +kernel

theorem mixedPool_turns :
    Pool.Turns (worldHandle plainNetwork) Proper Restarts mixedStart mixedPool := by
  have hupload : Pool.Turns (worldHandle plainNetwork) Proper Restarts mixedStart
      mixedUploaded := by
    unfold mixedUploaded mixedRun
    exact Pool.turns_run mixedStart .secret mixedRun_allowed
  exact hupload.trans (Pool.turns_advanced mixedUploaded .clear 2 mixedUploaded_allowed)

theorem mixedLater_turns :
    Pool.Turns (worldHandle plainNetwork) Proper Restarts mixedPool mixedLater := by
  unfold mixedLater mixedDownload
  refine Pool.turns_run mixedPool .reader ?_
  decide +kernel

theorem mixedRun_returns : mixedRun.1 = .ok (some (vaultResult (vaultPlan (str "ab") 7))) := by
  decide +kernel

theorem mixedPool_returned :
    (mixedPool.procs .secret).1 = .pure (some (vaultResult (vaultPlan (str "ab") 7))) := by
  have hother : Party.secret ≠ .clear := by decide
  simp only [mixedPool, Pool.advanced, Function.update_of_ne hother, mixedUploaded,
    Function.update_self, mixedRun_returns]
  rfl

theorem mixedPool_begins : mixedPool.procs .reader = mixedStart.procs .reader := by
  have hother : Party.reader ≠ .clear := by decide
  have hother' : Party.reader ≠ .secret := by decide
  simp only [mixedPool, Pool.advanced, Function.update_of_ne hother, mixedUploaded,
    Function.update_of_ne hother']

theorem mixed_retrieved : mixedDownload.1 = .ok none ∧
    (mixedLater.procs .reader).2.files (str "out") = some (str "ab") :=
  @clients_retrieve vaultSsl (fun _ => [str "peer"]) (fun _ => bareDisk) _ _ {} Party _
    (fun _ => str "/peer") (fun _ => bareDisk_empty) (fun _ => default) (fun _ => 100) mixedClients
    (fun _ => {}) mixedPool mixedLater mixedPool_turns mixedLater_turns .secret .reader abUpload
    vaultConfig mixed_apart vault_usable (by decide)
    (fun plan hplan => by
      obtain rfl : plan = vaultPlan (str "ab") 7 := Except.ok.inj (hplan.symm.trans ab_plan)
      exact ⟨vault_noCollision (by simp), vault_letters (by decide)⟩)
    _ mixedPool_returned (List.Subset.refl _) vault_keyFor (str "out")
    (by rw [mixedPool_begins]; rfl) (by rw [mixedPool_begins]; rfl)
    (by rw [mixedPool_begins]; rfl) mixedDownload.1
    (by simp only [mixedLater, Function.update_self])

end Peers

end DecentStore
