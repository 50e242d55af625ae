import DecentStore.Proof.DiskUploads
import DecentStore.Proof.UploadOrder

/-!
# What an upload sends

Whatever it is answered, an upload sends three kinds of requests: it asks a peer whether it has one
of its chunks, it sends a chunk, as it is or encrypted, to one of the chunk's targets, and it sends
its manifest. In plaintext mode a chunk goes to those of its targets only that have been asked and
have not said that they have it.
-/

namespace DecentStore

open Bytes Interaction DssClient

section Sent

variable {ssl : OpenSsl} {upload : Upload ssl} {plan : Plan} {past past' : List ClientEvent}
  {α β : Type} {n : Nat} {c : Bytes}

/-- The peer has been asked whether it has the chunk, and has not said so. -/
def AskedInVain (past : List ClientEvent) (peer : PeerEndpoint) (id : Bytes) : Prop :=
  ∃ answer : Exchange,
    ⟨.exchange peer (PeerClient.getRequest (str "HAS_CHUNK") id), answer⟩ ∈ past ∧ ¬ answer.SaysHas

/-- **The requests of an upload.** -/
inductive Sent (upload : Upload ssl) (plan : Plan) (past : List ClientEvent)
    (peer : PeerEndpoint) : Bytes → Prop where
  | question (c : Bytes) : Sent upload plan past peer
      (PeerClient.getRequest (str "HAS_CHUNK") (Crypto.sha256Hex ssl c))
  | chunk {n : Nat} {c : Bytes} {touch : Touch Bytes} (hc : plan.chunks[n]? = some c)
      (htouch : touchOf ssl plan.enc n c = .ok touch)
      (hpeer : peer ∈ upload.targets (Crypto.sha256Hex ssl c))
      (hasked : plan.enc = none → AskedInVain past peer (Crypto.sha256Hex ssl c)) :
      Sent upload plan past peer (chunkRequest ssl c touch.data)
  | manifest : Sent upload plan past peer (manifestRequest ssl plan)

def SendsOnly (upload : Upload ssl) (plan : Plan) (past : List ClientEvent) (c : Call) : Prop :=
  ∀ peer request, c = .exchange peer request → Sent upload plan past peer request

/-- The program sends such requests only, and when it returns, this is so. -/
abbrev Sending (upload : Upload ssl) (plan : Plan) (p : ClientProg α)
    (post : List ClientEvent → α → Prop) (past : List ClientEvent) : Prop :=
  p.Follows (SendsOnly upload plan) (fun past' r => ∀ a, r = .ok a → post past' a) past

theorem AskedInVain.mono (hpast : past <+: past') {peer : PeerEndpoint} {id : Bytes}
    (hasked : AskedInVain past peer id) : AskedInVain past' peer id := by
  obtain ⟨answer, hmem, hnot⟩ := hasked
  exact ⟨answer, hpast.subset hmem, hnot⟩

theorem Sending.bind {p : ClientProg α} {f : α → ClientProg β} {mid : List ClientEvent → α → Prop}
    {post : List ClientEvent → β → Prop} (hp : Sending upload plan p mid past)
    (hf : ∀ past' a, past <+: past' → mid past' a → Sending upload plan (f a) post past') :
    Sending upload plan (p >>= f) post past := by
  refine Prog.Follows.bind hp.grows ?_ ?_
  · rintro past' a ⟨hmid, hpast⟩
    exact hf past' a hpast (hmid a rfl)
  · rintro past' e - a ha
    cases ha

theorem sending_pure {a : α} {post : List ClientEvent → α → Prop} (hpost : post past a) :
    Sending upload plan (pure a) post past := by
  rintro b hb
  cases hb
  exact hpost

theorem sending_throw (e : Exc) (post : List ClientEvent → α → Prop) :
    Sending upload plan (throw e) post past := by
  rintro a ha
  cases ha

theorem sendsOnly_exchange {peer : PeerEndpoint} {request : Bytes}
    (hsent : Sent upload plan past peer request) :
    SendsOnly upload plan past (.exchange peer request) := by
  rintro peer' request' hcall
  cases hcall
  exact hsent

theorem Offline.sending {p : ClientProg α} (hp : Offline p) :
    Sending upload plan p (fun _ _ => True) past := by
  induction p generalizing past with
  | pure a => exact fun _ _ => trivial
  | throw e => exact fun _ _ => trivial
  | call c next ih =>
      exact ⟨fun peer request hcall => absurd hcall (hp.1 peer request), fun r => ih r (hp.2 r)⟩

theorem put_sending {cmd id data : Bytes} {peer : PeerEndpoint}
    (hsent : Sent upload plan past peer (PeerClient.putRequest cmd id data)) :
    Sending upload plan (PeerClient.put cmd peer id data) (fun _ _ => True) past := by
  refine ⟨sendsOnly_exchange hsent, fun answer => ?_⟩
  cases answer with
  | refused e => exact sending_throw e _
  | sendFailed e => exact sending_throw e _
  | brokenPipe => exact sending_throw .killed _
  | silent => exact sending_throw .stuck _
  | answered sock =>
      change Sending upload plan (Prog.ofExcept (recvAllText sock) >>= _) _ _
      cases recvAllText sock with
      | error e => exact sending_throw e _
      | ok text =>
          rw [Prog.ofExcept_ok_bind]
          split
          · exact sending_pure trivial
          · exact sending_throw _ _

theorem hasChunk_sending (peer : PeerEndpoint) (c : Bytes) :
    Sending upload plan (PeerClient.hasChunk peer (Crypto.sha256Hex ssl c))
      (fun past' present => present = false →
        AskedInVain past' peer (Crypto.sha256Hex ssl c)) past := by
  refine ⟨sendsOnly_exchange (.question c), fun answer => ?_⟩
  have hvain : ¬ Exchange.SaysHas answer → AskedInVain (past ++ [⟨.exchange peer
      (PeerClient.getRequest (str "HAS_CHUNK") (Crypto.sha256Hex ssl c)), answer⟩]) peer
        (Crypto.sha256Hex ssl c) :=
    fun hnot => ⟨answer, List.mem_append_right _ List.mem_cons_self, hnot⟩
  cases answer with
  | refused e => exact sending_throw e _
  | sendFailed e => exact sending_pure fun _ => hvain not_false
  | brokenPipe => exact sending_throw .killed _
  | silent => exact sending_throw .stuck _
  | answered sock =>
      rcases hline : recvLine sock with ⟨line | line, rest⟩
      · dsimp only [Prog.bind]
        rw [hline]
        refine sending_pure fun _ => hvain ?_
        rintro ⟨line, hsome, -⟩
        rw [hline] at hsome
        cases hsome
      · dsimp only [Prog.bind]
        rw [hline]
        refine sending_pure fun hnot => hvain ?_
        rintro ⟨line', hsome, hok⟩
        rw [hline] at hsome
        cases hsome
        rw [hnot] at hok
        cases hok

theorem putAll_sending {put : PeerEndpoint → ClientProg Unit} (targets : List PeerEndpoint)
    (hput : ∀ p ∈ targets, ∀ past', Sending upload plan (put p) (fun _ _ => True) past') :
    Sending upload plan (putAll put targets) (fun _ _ => True) past := by
  induction targets generalizing past with
  | nil => exact sending_pure trivial
  | cons p targets ih =>
      unfold putAll
      exact (hput p List.mem_cons_self past).bind fun past₁ _ _ _ =>
        ih fun q hq => hput q (List.mem_cons_of_mem p hq)

theorem probe_sending (c : Bytes) (targets : List PeerEndpoint) :
    Sending upload plan (probe (Crypto.sha256Hex ssl c) targets)
      (fun past' found => ∀ p ∈ found.2, p ∈ targets ∧
        AskedInVain past' p (Crypto.sha256Hex ssl c)) past := by
  induction targets generalizing past with
  | nil => exact sending_pure (by simp)
  | cons p targets ih =>
      unfold probe
      refine (hasChunk_sending p c).bind fun past₁ present _ hpresent => ?_
      refine ih.bind fun past₂ found hgrown hfound => ?_
      obtain ⟨already, missing⟩ := found
      have hlater : ∀ q ∈ missing, q ∈ p :: targets ∧
          AskedInVain past₂ q (Crypto.sha256Hex ssl c) := fun q hq =>
        ⟨List.mem_cons_of_mem p (hfound q hq).1, (hfound q hq).2⟩
      cases present with
      | true => exact sending_pure hlater
      | false =>
          refine sending_pure fun q hq => ?_
          rcases List.mem_cons.mp hq with rfl | hq
          · exact ⟨List.mem_cons_self, (hpresent rfl).mono hgrown⟩
          · exact hlater q hq

theorem putMissing_sending (hc : plan.chunks[n]? = some c) (hplain : plan.enc = none)
    (missing : List PeerEndpoint)
    (hmissing : ∀ p ∈ missing, p ∈ upload.targets (Crypto.sha256Hex ssl c) ∧
      AskedInVain past p (Crypto.sha256Hex ssl c)) (needed : Int) :
    Sending upload plan (putMissing (Crypto.sha256Hex ssl c) c needed missing) (fun _ _ => True)
      past := by
  induction missing generalizing past needed with
  | nil => exact sending_pure trivial
  | cons p missing ih =>
      unfold putMissing
      obtain ⟨hpeer, hasked⟩ := hmissing p List.mem_cons_self
      have htouch : touchOf ssl plan.enc n c = .ok (.fill c) := by rw [hplain]; rfl
      refine (put_sending (.chunk hc htouch hpeer fun _ => hasked)).bind
        fun past₁ _ hgrown _ => ?_
      split
      · exact sending_pure trivial
      · refine ih (fun q hq => ?_) _
        obtain ⟨hpeer, hasked⟩ := hmissing q (List.mem_cons_of_mem p hq)
        exact ⟨hpeer, hasked.mono hgrown⟩

theorem uploadChunk_sending (hc : plan.chunks[n]? = some c) :
    Sending upload plan (uploadChunk ssl ⟨DhtNode.tableOf ssl upload.cfg.peers⟩
      (clampReplicas upload.cfg) plan.enc (UInt64.ofNat n) c) (fun _ _ => True) past := by
  cases henc : plan.enc with
  | none =>
      unfold uploadChunk
      simp only [Upload.store_targets, Prog.ofExcept_ok_bind]
      refine (probe_sending c _).bind fun past₁ found _ hfound => ?_
      obtain ⟨already, missing⟩ := found
      by_cases hneeded : 0 < clampReplicas upload.cfg - already
      · simp only [if_pos hneeded]
        exact putMissing_sending hc henc missing hfound _
      · simp only [if_neg hneeded]
        exact sending_pure trivial
  | some params =>
      unfold uploadChunk
      cases hseal : Crypto.aesGcmEncrypt ssl c params.key params.iv (UInt64.ofNat n) with
      | error e =>
          simp only [hseal, Prog.ofExcept_error_bind]
          exact sending_throw e _
      | ok toSend =>
          simp only [hseal, Upload.store_targets, Prog.ofExcept_ok_bind]
          have htouch : touchOf ssl plan.enc n c = .ok (.overwrite toSend) := by
            rw [henc, touchOf, hseal]
            rfl
          exact putAll_sending _ fun p hp past' =>
            put_sending (.chunk hc htouch hp (by simp [henc]))

/-- The chunks from position `n` on. -/
theorem uploadChunks_sending {chunks : List Bytes} (hchunks : plan.chunks.drop n = chunks) :
    Sending upload plan (uploadChunks ssl ⟨DhtNode.tableOf ssl upload.cfg.peers⟩
      (clampReplicas upload.cfg) plan.enc (UInt64.ofNat n) chunks) (fun _ _ => True) past := by
  induction chunks generalizing past n with
  | nil => exact sending_pure trivial
  | cons c chunks ih =>
      obtain ⟨hc, hrest⟩ := of_drop_eq_cons hchunks
      unfold uploadChunks
      refine (uploadChunk_sending hc).bind fun past₁ _ _ _ => ?_
      rw [ofNat_succ]
      exact ih hrest

theorem perform_sending : Sending upload plan (upload.perform plan) (fun _ _ => True) [] := by
  unfold Upload.perform
  refine (uploadChunks_sending (n := 0) List.drop_zero).bind fun past₁ _ _ _ => ?_
  rw [Upload.store_targets, Prog.ofExcept_ok_bind]
  refine (putAll_sending _ fun p _ past' => put_sending .manifest).bind fun past₂ _ _ _ => ?_
  exact (writeLocalManifest_offline upload.cfg plan.manifest).sending.bind
    fun past₃ _ _ _ => sending_pure trivial

/-- **What an upload sends**, whatever it has been answered. -/
theorem putFile_sends {events : List ClientEvent} {call : Call}
    {next : Call.Reply call → ClientProg PutFileResult}
    (hreaches : upload.putFile.Reaches events (.call call next)) :
    ∃ plan, upload.plan = .ok plan ∧ SendsOnly upload plan events call := by
  have hthrown : ∀ e, upload.putFile ≠ throw e := by
    intro e he
    rw [he] at hreaches
    cases hreaches
  by_cases hpeers : upload.cfg.peers = []
  · exact absurd (Upload.putFile_no_peers hpeers) (hthrown noPeers)
  by_cases hplan : ∃ plan, upload.plan = .ok plan
  · obtain ⟨plan, hplan⟩ := hplan
    rw [Upload.putFile_of_plan hpeers hplan] at hreaches
    exact ⟨plan, hplan, (perform_sending.reaches hreaches).1⟩
  · obtain ⟨e, he⟩ := Upload.putFile_of_error fun plan hok => hplan ⟨plan, hok⟩
    exact absurd he (hthrown e)

end Sent

end DecentStore
