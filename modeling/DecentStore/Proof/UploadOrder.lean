import DecentStore.Lib.Transcript
import DecentStore.Proof.Integrity
import DecentStore.Proof.SequentialUploads

/-!
# The order of an upload

Whatever the peers answer, and wherever the upload is stopped: no `PUT` follows one that was not
acknowledged, no manifest is sent before every target of every chunk has acknowledged the chunk or
said that it has it, and the local manifest is not written before every target of the manifest has
acknowledged that. So a share id that anyone can have seen names an upload that is complete.
-/

namespace DecentStore

open Bytes Interaction DssClient

abbrev ClientEvent := Event Call.Reply

/-- The list from one position on, from the next position on. -/
theorem of_drop_eq_cons {α : Type} {l rest : List α} {n : Nat} {a : α}
    (hdrop : l.drop n = a :: rest) : l[n]? = some a ∧ l.drop (n + 1) = rest := by
  rw [← List.head?_drop, ← List.tail_drop, hdrop]
  exact ⟨rfl, rfl⟩

/-! ### Acknowledgements -/

/-- The reply begins with `OK`. -/
def Exchange.Acknowledges : Exchange → Prop
  | .answered sock => ∃ text, recvAllText sock = .ok text ∧ PeerClient.saysOk text = true
  | _ => False

/-- The first line of the reply begins with `OK`. -/
def Exchange.SaysHas : Exchange → Prop
  | .answered sock => ∃ line, (recvLine sock).1 = some line ∧ PeerClient.saysOk line = true
  | _ => False

def Acknowledged (past : List ClientEvent) (peer : PeerEndpoint) (request : Bytes) : Prop :=
  ∃ answer : Exchange, ⟨.exchange peer request, answer⟩ ∈ past ∧ answer.Acknowledges

def SaidToHave (past : List ClientEvent) (peer : PeerEndpoint) (id : Bytes) : Prop :=
  ∃ answer : Exchange,
    ⟨.exchange peer (PeerClient.getRequest (str "HAS_CHUNK") id), answer⟩ ∈ past ∧ answer.SaysHas

/-- No `PUT` has gone unacknowledged. -/
def Unfailing (past : List ClientEvent) : Prop :=
  ∀ peer request (answer : Exchange), ⟨.exchange peer request, answer⟩ ∈ past →
    str "PUT_" <+: request → answer.Acknowledges

theorem Acknowledged.mono {past past' : List ClientEvent} (hpast : past <+: past')
    {peer : PeerEndpoint} {request : Bytes} (hdone : Acknowledged past peer request) :
    Acknowledged past' peer request := by
  obtain ⟨answer, hmem, hok⟩ := hdone
  exact ⟨answer, hpast.subset hmem, hok⟩

theorem SaidToHave.mono {past past' : List ClientEvent} (hpast : past <+: past')
    {peer : PeerEndpoint} {id : Bytes} (hdone : SaidToHave past peer id) :
    SaidToHave past' peer id := by
  obtain ⟨answer, hmem, hok⟩ := hdone
  exact ⟨answer, hpast.subset hmem, hok⟩

theorem Unfailing.snoc {past : List ClientEvent} (hpast : Unfailing past) {event : ClientEvent}
    (hevent : ∀ peer request (answer : Exchange), event = ⟨.exchange peer request, answer⟩ →
      str "PUT_" <+: request → answer.Acknowledges) : Unfailing (past ++ [event]) := by
  intro peer request answer hmem hput
  rcases List.mem_append.mp hmem with hmem | hmem
  · exact hpast peer request answer hmem hput
  · exact hevent peer request answer (List.mem_singleton.mp hmem).symm hput

section Placed

variable (ssl : OpenSsl) (upload : Upload ssl) (plan : Plan) (past : List ClientEvent)

def chunkRequest (c data : Bytes) : Bytes :=
  PeerClient.putRequest (str "PUT_CHUNK") (Crypto.sha256Hex ssl c) data

/-- The peer has acknowledged what is sent for the chunk at position `n`, or, if nothing is
encrypted, has said that it has the chunk. -/
def Placed (enc : Encryption) (n : Nat) (c : Bytes) (peer : PeerEndpoint) : Prop :=
  (enc = none ∧ SaidToHave past peer (Crypto.sha256Hex ssl c)) ∨
    ∃ touch, touchOf ssl enc n c = .ok touch ∧
      Acknowledged past peer (chunkRequest ssl c touch.data)

def manifestRequest : Bytes :=
  PeerClient.putRequest (str "PUT_MANIFEST") (plan.hash ssl) plan.text

variable {ssl}

/-- Every chunk is on all its targets. -/
def AllPlaced : Prop :=
  ∀ n c, plan.chunks[n]? = some c → ∀ p ∈ upload.targets (Crypto.sha256Hex ssl c),
    Placed ssl past plan.enc n c p

/-- The manifest is on all its targets. -/
def Published : Prop :=
  ∀ p ∈ upload.targets (str "manifest:" ++ plan.hash ssl),
    Acknowledged past p (manifestRequest ssl plan)

/-- **A call at its time.** -/
structure InOrder (c : Call) : Prop where
  unfailing : Unfailing past
  manifest : ∀ peer request, c = .exchange peer request → str "PUT_MANIFEST" <+: request →
    request = manifestRequest ssl plan ∧
      peer ∈ upload.targets (str "manifest:" ++ plan.hash ssl) ∧ AllPlaced upload plan past
  written : ∀ path text, c = .writeFile path text →
    text = plan.text ∧ AllPlaced upload plan past ∧ Published upload plan past

end Placed

theorem Placed.mono {ssl : OpenSsl} {past past' : List ClientEvent} (hpast : past <+: past')
    {enc : Encryption} {n : Nat} {c : Bytes} {peer : PeerEndpoint}
    (hplaced : Placed ssl past enc n c peer) : Placed ssl past' enc n c peer := by
  rcases hplaced with ⟨henc, hhas⟩ | ⟨touch, htouch, hdone⟩
  · exact Or.inl ⟨henc, hhas.mono hpast⟩
  · exact Or.inr ⟨touch, htouch, hdone.mono hpast⟩

theorem AllPlaced.mono {ssl : OpenSsl} {upload : Upload ssl} {plan : Plan}
    {past past' : List ClientEvent} (hpast : past <+: past')
    (hplaced : AllPlaced upload plan past) : AllPlaced upload plan past' :=
  fun n c hc p hp => (hplaced n c hc p hp).mono hpast

/-! ### Orderly programs -/

section Orderly

variable {ssl : OpenSsl} {upload : Upload ssl} {plan : Plan} {past : List ClientEvent}
  {α β : Type}

/-- The program makes every call at its time, and when it returns no `PUT` has failed. -/
abbrev Orderly (upload : Upload ssl) (plan : Plan) (p : ClientProg α)
    (post : List ClientEvent → α → Prop) (past : List ClientEvent) : Prop :=
  p.Follows (InOrder upload plan)
    (fun past' r => ∀ a, r = .ok a → Unfailing past' ∧ post past' a) past

theorem Orderly.bind {p : ClientProg α} {f : α → ClientProg β}
    {mid : List ClientEvent → α → Prop} {post : List ClientEvent → β → Prop}
    (hp : Orderly upload plan p mid past)
    (hf : ∀ past' a, past <+: past' → Unfailing past' → mid past' a →
      Orderly upload plan (f a) post past') : Orderly upload plan (p >>= f) post past := by
  refine Prog.Follows.bind hp.grows ?_ ?_
  · rintro past' a ⟨hmid, hpast⟩
    obtain ⟨hunfailing, hmid⟩ := hmid a rfl
    exact hf past' a hpast hunfailing hmid
  · rintro past' e - a ha
    cases ha

theorem orderly_pure {a : α} {post : List ClientEvent → α → Prop} (hpast : Unfailing past)
    (hpost : post past a) : Orderly upload plan (pure a) post past := by
  rintro b hb
  cases hb
  exact ⟨hpast, hpost⟩

theorem orderly_throw (e : Exc) (post : List ClientEvent → α → Prop) :
    Orderly upload plan (throw e) post past := by
  rintro b hb
  cases hb

/-- A `PUT` that returns has been acknowledged. -/
theorem put_orderly {peer : PeerEndpoint} {cmd id data : Bytes} (hpast : Unfailing past)
    (hbefore : InOrder upload plan past (.exchange peer (PeerClient.putRequest cmd id data))) :
    Orderly upload plan (PeerClient.put cmd peer id data)
      (fun past' _ => Acknowledged past' peer (PeerClient.putRequest cmd id data)) past := by
  refine ⟨hbefore, fun answer => ?_⟩
  have hdone : Exchange.Acknowledges answer → Unfailing (past ++ [⟨_, answer⟩]) ∧
      Acknowledged (past ++ [⟨_, answer⟩]) peer (PeerClient.putRequest cmd id data) := by
    intro hack
    refine ⟨hpast.snoc ?_, answer, List.mem_append_right _ List.mem_cons_self, hack⟩
    rintro peer' request' answer' hevent -
    cases hevent
    exact hack
  cases answer with
  | refused e => exact orderly_throw e _
  | sendFailed e => exact orderly_throw e _
  | brokenPipe => exact orderly_throw _ _
  | silent => exact orderly_throw _ _
  | answered sock =>
      change Orderly upload plan (Prog.ofExcept (recvAllText sock) >>= _) _ _
      cases hresp : recvAllText sock with
      | error e => exact orderly_throw e _
      | ok text =>
          rw [Prog.ofExcept_ok_bind]
          by_cases hok : PeerClient.saysOk text = true
          · rw [if_pos hok]
            obtain ⟨hunfailing, hacknowledged⟩ := hdone ⟨text, hresp, hok⟩
            exact orderly_pure hunfailing hacknowledged
          · rw [if_neg hok]
            exact orderly_throw _ _

theorem not_begins {a b request : Bytes} (hrequest : a <+: request) (hab : ¬ a <+: b)
    (hba : ¬ b <+: a) : ¬ b <+: request := fun hb =>
  (List.prefix_or_prefix_of_prefix hrequest hb).elim hab hba

theorem begins_put (cmd id data : Bytes) : cmd <+: PeerClient.putRequest cmd id data := by
  simp [PeerClient.putRequest]

theorem begins_get (cmd id : Bytes) : cmd <+: PeerClient.getRequest cmd id := by
  simp [PeerClient.getRequest]

/-- A request other than for a manifest may be made at any time. -/
theorem inOrder_request (hpast : Unfailing past) {peer : PeerEndpoint} {request : Bytes}
    (hother : ¬ str "PUT_MANIFEST" <+: request) :
    InOrder upload plan past (.exchange peer request) where
  unfailing := hpast
  manifest := by
    rintro peer' request' hcall hmanifest
    cases hcall
    exact absurd hmanifest hother
  written := by
    rintro path text hcall
    cases hcall

theorem putChunk_orderly (hpast : Unfailing past) (peer : PeerEndpoint) (id data : Bytes) :
    Orderly upload plan (PeerClient.putChunk peer id data)
      (fun past' _ => Acknowledged past' peer (PeerClient.putRequest (str "PUT_CHUNK") id data))
      past :=
  put_orderly hpast (inOrder_request hpast
    (not_begins (begins_put _ id data) (by decide) (by decide)))

theorem putManifest_orderly (hpast : Unfailing past) (hplaced : AllPlaced upload plan past)
    {peer : PeerEndpoint} (hpeer : peer ∈ upload.targets (str "manifest:" ++ plan.hash ssl)) :
    Orderly upload plan (PeerClient.putManifest peer (plan.hash ssl) plan.text)
      (fun past' _ => Acknowledged past' peer (manifestRequest ssl plan)) past := by
  refine put_orderly hpast ⟨hpast, ?_, ?_⟩
  · rintro peer' request hcall -
    cases hcall
    exact ⟨rfl, hpeer, hplaced⟩
  · rintro path text hcall
    cases hcall

theorem hasChunk_orderly (hpast : Unfailing past) (peer : PeerEndpoint) (id : Bytes) :
    Orderly upload plan (PeerClient.hasChunk peer id)
      (fun past' present => present = true → SaidToHave past' peer id) past := by
  have hother : ¬ str "PUT_MANIFEST" <+: PeerClient.getRequest (str "HAS_CHUNK") id :=
    not_begins (begins_get _ id) (by decide) (by decide)
  refine ⟨inOrder_request hpast hother, fun answer => ?_⟩
  have hunfailing : Unfailing (past ++
      [⟨.exchange peer (PeerClient.getRequest (str "HAS_CHUNK") id), answer⟩]) := by
    refine hpast.snoc ?_
    rintro peer' request' answer' hevent hput
    cases hevent
    exact absurd hput (not_begins (begins_get _ id) (by decide) (by decide))
  cases answer with
  | refused e => exact orderly_throw e _
  | sendFailed e => exact orderly_pure hunfailing (by simp)
  | brokenPipe => exact orderly_throw _ _
  | silent => exact orderly_throw _ _
  | answered sock =>
      rcases hline : recvLine sock with ⟨line | line, rest⟩
      · dsimp only [Prog.bind]
        rw [hline]
        exact orderly_pure hunfailing (by simp)
      · dsimp only [Prog.bind]
        rw [hline]
        refine orderly_pure hunfailing fun hok => ⟨.answered sock,
          List.mem_append_right _ List.mem_cons_self, line, by rw [hline], hok⟩

/-! ### One chunk -/

/-- After the probe every target says that it has the chunk or is among the missing, and no target
is counted twice. -/
theorem probe_orderly (hpast : Unfailing past) (cid : Bytes) (targets : List PeerEndpoint) :
    Orderly upload plan (probe cid targets)
      (fun past' found => found.1 + found.2.length = targets.length ∧
        ∀ p ∈ targets, p ∈ found.2 ∨ SaidToHave past' p cid) past := by
  induction targets generalizing past with
  | nil => exact orderly_pure hpast ⟨rfl, by simp⟩
  | cons p targets ih =>
      unfold probe
      refine (hasChunk_orderly hpast p cid).bind fun past₁ present _ hunfailing hpresent => ?_
      refine (ih hunfailing).bind fun past₂ found hgrown hunfailing hfound => ?_
      obtain ⟨already, missing⟩ := found
      obtain ⟨hcount, htargets⟩ := hfound
      simp only at hcount
      refine orderly_pure hunfailing ?_
      cases present with
      | true =>
          refine ⟨?_, fun q hq => ?_⟩
          · simp only [↓reduceIte, List.length_cons]
            push_cast
            omega
          · rcases List.mem_cons.mp hq with rfl | hq
            · exact Or.inr ((hpresent rfl).mono hgrown)
            · exact htargets q hq
      | false =>
          refine ⟨?_, fun q hq => ?_⟩
          · simp only [Bool.false_eq_true, ↓reduceIte, List.length_cons]
            push_cast
            omega
          · rcases List.mem_cons.mp hq with rfl | hq
            · exact Or.inl List.mem_cons_self
            · exact (htargets q hq).imp (List.mem_cons_of_mem p) id

/-- The count never ends the loop before the last of the missing. -/
theorem putMissing_orderly (hpast : Unfailing past) (cid data : Bytes)
    (missing : List PeerEndpoint) {needed : Int} (hneeded : missing.length ≤ needed) :
    Orderly upload plan (putMissing cid data needed missing)
      (fun past' _ => ∀ p ∈ missing,
        Acknowledged past' p (PeerClient.putRequest (str "PUT_CHUNK") cid data)) past := by
  induction missing generalizing past needed with
  | nil => exact orderly_pure hpast (by simp)
  | cons p missing ih =>
      rw [List.length_cons] at hneeded
      push_cast at hneeded
      unfold putMissing
      refine (putChunk_orderly hpast p cid data).bind fun past₁ _ _ hunfailing hput => ?_
      by_cases hlast : needed - 1 ≤ 0
      · have hnil : missing = [] := List.eq_nil_of_length_eq_zero (by omega)
        rw [if_pos hlast, hnil]
        exact orderly_pure hunfailing (by simpa using hput)
      · rw [if_neg hlast]
        have hrest := @ih _ hunfailing (needed - 1) (by omega)
        refine hrest.grows.mono ?_
        rintro past₂ r ⟨hrest, hgrown⟩ ⟨⟩ hr
        obtain ⟨hunfailing, hrest⟩ := hrest () hr
        refine ⟨hunfailing, fun q hq => ?_⟩
        rcases List.mem_cons.mp hq with rfl | hq
        · exact hput.mono hgrown
        · exact hrest q hq

theorem putAll_orderly {put : PeerEndpoint → ClientProg Unit} {request : Bytes}
    (targets : List PeerEndpoint)
    (hput : ∀ p ∈ targets, ∀ past', past <+: past' → Unfailing past' →
      Orderly upload plan (put p) (fun past'' _ => Acknowledged past'' p request) past')
    (hpast : Unfailing past) :
    Orderly upload plan (putAll put targets)
      (fun past' _ => ∀ p ∈ targets, Acknowledged past' p request) past := by
  induction targets generalizing past with
  | nil => exact orderly_pure hpast (by simp)
  | cons p targets ih =>
      unfold putAll
      refine (hput p List.mem_cons_self past List.prefix_rfl hpast).bind
        fun past₁ _ hgrown₁ hunfailing hfirst => ?_
      have hrest := ih (fun q hq past' hpast' => hput q (List.mem_cons_of_mem p hq) past'
        (hgrown₁.trans hpast')) hunfailing
      refine hrest.grows.mono ?_
      rintro past₂ r ⟨hrest, hgrown⟩ ⟨⟩ hr
      obtain ⟨hunfailing, hrest⟩ := hrest () hr
      refine ⟨hunfailing, fun q hq => ?_⟩
      rcases List.mem_cons.mp hq with rfl | hq
      · exact hfirst.mono hgrown
      · exact hrest q hq

theorem uploadChunk_orderly (hpeers : upload.cfg.peers ≠ []) (hpast : Unfailing past)
    (enc : Encryption) (n : Nat) (c : Bytes) :
    Orderly upload plan (uploadChunk ssl ⟨DhtNode.tableOf ssl upload.cfg.peers⟩
        (clampReplicas upload.cfg) enc (UInt64.ofNat n) c)
      (fun past' _ => ∀ p ∈ upload.targets (Crypto.sha256Hex ssl c), Placed ssl past' enc n c p)
      past := by
  have hlength := Upload.length_targets_le hpeers (Crypto.sha256Hex ssl c)
  cases enc with
  | none =>
      unfold uploadChunk
      simp only [Upload.store_targets, Prog.ofExcept_ok_bind]
      refine (probe_orderly hpast _ _).bind fun past₁ found _ hunfailing hfound => ?_
      obtain ⟨already, missing⟩ := found
      obtain ⟨hcount, htargets⟩ := hfound
      simp only at hcount htargets
      by_cases hneeded : 0 < clampReplicas upload.cfg - already
      · simp only [if_pos hneeded]
        have hput := @putMissing_orderly ssl upload plan past₁ hunfailing
          (Crypto.sha256Hex ssl c) c missing (clampReplicas upload.cfg - already) (by omega)
        refine hput.grows.mono ?_
        rintro past₂ r ⟨hput, hgrown⟩ ⟨⟩ hr
        obtain ⟨hunfailing, hput⟩ := hput () hr
        refine ⟨hunfailing, fun p hp => ?_⟩
        rcases htargets p hp with hmissing | hhas
        · exact Or.inr ⟨.fill c, rfl, hput p hmissing⟩
        · exact Or.inl ⟨rfl, hhas.mono hgrown⟩
      · simp only [if_neg hneeded]
        have hnil : missing = [] := List.eq_nil_of_length_eq_zero (by omega)
        refine orderly_pure hunfailing fun p hp => ?_
        rcases htargets p hp with hmissing | hhas
        · rw [hnil] at hmissing
          exact absurd hmissing List.not_mem_nil
        · exact Or.inl ⟨rfl, hhas⟩
  | some params =>
      unfold uploadChunk
      cases hseal : Crypto.aesGcmEncrypt ssl c params.key params.iv (UInt64.ofNat n) with
      | error e =>
          simp only [hseal, Prog.ofExcept_error_bind]
          exact orderly_throw e _
      | ok toSend =>
          simp only [hseal, Upload.store_targets, Prog.ofExcept_ok_bind]
          refine (putAll_orderly _ (fun p _ past' _ hunfailing =>
            putChunk_orderly hunfailing p _ toSend) hpast).mono ?_
          rintro past₁ r hput ⟨⟩ hr
          obtain ⟨hunfailing, hput⟩ := hput () hr
          refine ⟨hunfailing, fun p hp => Or.inr ⟨.overwrite toSend, ?_, hput p hp⟩⟩
          rw [touchOf, hseal]
          rfl

/-- The chunks from position `n` on. -/
theorem uploadChunks_orderly (hpeers : upload.cfg.peers ≠ []) (hpast : Unfailing past)
    (enc : Encryption) (n : Nat) (chunks : List Bytes) :
    Orderly upload plan (uploadChunks ssl ⟨DhtNode.tableOf ssl upload.cfg.peers⟩
        (clampReplicas upload.cfg) enc (UInt64.ofNat n) chunks)
      (fun past' _ => ∀ i c, chunks[i]? = some c →
        ∀ p ∈ upload.targets (Crypto.sha256Hex ssl c), Placed ssl past' enc (n + i) c p) past := by
  induction chunks generalizing past n with
  | nil => exact orderly_pure hpast (by simp)
  | cons c chunks ih =>
      unfold uploadChunks
      refine (uploadChunk_orderly hpeers hpast enc n c).bind
        fun past₁ _ _ hunfailing hfirst => ?_
      rw [ofNat_succ]
      refine (ih hunfailing (n + 1)).grows.mono ?_
      rintro past₂ r ⟨hrest, hgrown⟩ ⟨⟩ hr
      obtain ⟨hunfailing, hrest⟩ := hrest () hr
      refine ⟨hunfailing, fun i d hd p hp => ?_⟩
      cases i with
      | zero =>
          cases hd
          exact (hfirst p hp).mono hgrown
      | succ i =>
          have hlater := hrest i d hd p hp
          rwa [Nat.add_assoc, Nat.add_comm 1 i] at hlater

/-! ### The manifest -/

theorem inOrder_local (hpast : Unfailing past) {c : Call}
    (hexchange : ∀ peer request, c ≠ .exchange peer request)
    (hwrite : ∀ path text, c ≠ .writeFile path text) : InOrder upload plan past c :=
  ⟨hpast, fun peer request hcall => absurd hcall (hexchange peer request),
    fun path text hcall => absurd hcall (hwrite path text)⟩

theorem snoc_local (hpast : Unfailing past) {c : Call} (r : Call.Reply c)
    (hexchange : ∀ peer request, c ≠ .exchange peer request) : Unfailing (past ++ [⟨c, r⟩]) := by
  refine hpast.snoc ?_
  rintro peer request answer hevent
  exact absurd (congrArg Sigma.fst hevent) (hexchange peer request)

theorem writeLocalManifest_orderly (hpast : Unfailing past) (hplaced : AllPlaced upload plan past)
    (hpublished : Published upload plan past) :
    Orderly upload plan (writeLocalManifest upload.cfg plan.manifest) (fun _ _ => True) past := by
  refine ⟨inOrder_local hpast (by simp) (by simp), fun manifestDir => ?_⟩
  have hpast₁ := snoc_local hpast (c := .absolute _) manifestDir (by simp)
  refine ⟨inOrder_local hpast₁ (by simp) (by simp), fun mkEc => ?_⟩
  have hpast₂ := snoc_local hpast₁ (c := .createDirectories manifestDir) mkEc (by simp)
  have hgrown : past <+: past ++ [⟨_, manifestDir⟩] ++ [⟨.createDirectories manifestDir, mkEc⟩] :=
    (List.prefix_append past _).trans (List.prefix_append _ _)
  cases mkEc with
  | some message => exact orderly_throw _ _
  | none =>
      refine ⟨⟨hpast₂, by simp, ?_⟩, fun opened => ?_⟩
      · rintro path text hcall
        cases hcall
        exact ⟨rfl, hplaced.mono hgrown, fun p hp => (hpublished p hp).mono hgrown⟩
      · have hpast₃ := snoc_local hpast₂ (c := .writeFile _ _) opened (by simp)
        cases opened with
        | true => exact orderly_pure hpast₃ trivial
        | false => exact orderly_throw _ _

/-- **One upload, whatever is answered.** -/
theorem perform_orderly (hpeers : upload.cfg.peers ≠ []) :
    Orderly upload plan (upload.perform plan)
      (fun past result => result.shareUri = plan.shareUri ssl ∧ AllPlaced upload plan past ∧
        Published upload plan past) [] := by
  have hnone : Unfailing [] := fun _ _ _ hmem => absurd hmem List.not_mem_nil
  unfold Upload.perform
  refine (uploadChunks_orderly hpeers hnone plan.enc 0 plan.chunks).bind
    fun past₁ _ _ hunfailing hchunks => ?_
  have hplaced : AllPlaced upload plan past₁ := by
    intro n c hc p hp
    have hchunk := hchunks n c hc p hp
    rwa [Nat.zero_add] at hchunk
  rw [Upload.store_targets, Prog.ofExcept_ok_bind]
  refine (putAll_orderly _ (fun p hp past' hgrown hunfailing =>
    putManifest_orderly hunfailing (hplaced.mono hgrown) hp) hunfailing).bind
    fun past₂ _ hgrown₂ hunfailing hpublished => ?_
  refine (writeLocalManifest_orderly hunfailing (hplaced.mono hgrown₂) hpublished).bind
    fun past₃ path hgrown₃ hunfailing _ => ?_
  exact orderly_pure hunfailing ⟨rfl, hplaced.mono (hgrown₂.trans hgrown₃),
    fun p hp => (hpublished p hp).mono hgrown₃⟩

end Orderly

/-- **A manifest is published last.** At every point that an upload can reach, whatever it has been
answered: the call it makes next is in order, and if it has returned, everything it names has been
acknowledged. -/
theorem upload_in_order {ssl : OpenSsl} {upload : Upload ssl} {events : List ClientEvent}
    {rest : ClientProg PutFileResult} (hreaches : upload.putFile.Reaches events rest) :
    (∀ c next, rest = .call c next →
      ∃ plan, upload.plan = .ok plan ∧ InOrder upload plan events c) ∧
    ∀ result, rest = .pure result → ∃ plan, upload.plan = .ok plan ∧
      result.shareUri = plan.shareUri ssl ∧ Unfailing events ∧ AllPlaced upload plan events ∧
        Published upload plan events := by
  have hthrown : ∀ e, upload.putFile = throw e → rest = .throw e := by
    intro e he
    rw [he] at hreaches
    cases hreaches
    rfl
  by_cases hpeers : upload.cfg.peers = []
  · have hrest := hthrown noPeers (Upload.putFile_no_peers hpeers)
    exact ⟨fun c next h => by simp [hrest] at h, fun result h => by simp [hrest] at h⟩
  by_cases hplan : ∃ plan, upload.plan = .ok plan
  · obtain ⟨plan, hplan⟩ := hplan
    rw [Upload.putFile_of_plan hpeers hplan] at hreaches
    have hfollows := (perform_orderly hpeers).reaches hreaches
    rw [List.nil_append] at hfollows
    constructor
    · rintro c next rfl
      exact ⟨plan, hplan, hfollows.1⟩
    · rintro result rfl
      obtain ⟨hunfailing, huri, hplaced, hpublished⟩ := hfollows result rfl
      exact ⟨plan, hplan, huri, hunfailing, hplaced, hpublished⟩
  · obtain ⟨e, he⟩ := Upload.putFile_of_error fun plan hok => hplan ⟨plan, hok⟩
    have hrest := hthrown e he
    exact ⟨fun c next h => by simp [hrest] at h, fun result h => by simp [hrest] at h⟩

/-- What happens when the note is uploaded to new peers. -/
def noteEvents : List ClientEvent :=
  noteUpload.putFile.transcript (worldHandle (Cluster.network {})) (Cluster.empty, {})

theorem noteUpload_returns :
    (noteUpload.putFile.run (worldHandle (Cluster.network {})) (Cluster.empty, {})).1 =
      .ok ⟨notePlan.shareUri noteSsl, str "manifests/note.manifest.txt"⟩ := by
  decide +kernel

theorem note_in_order : ∃ plan, noteUpload.plan = .ok plan ∧
    notePlan.shareUri noteSsl = plan.shareUri noteSsl ∧ Unfailing noteEvents ∧
      AllPlaced noteUpload plan noteEvents ∧ Published noteUpload plan noteEvents :=
  (upload_in_order (Prog.reaches_transcript (worldHandle (Cluster.network {})) noteUpload.putFile
    (Cluster.empty, {}))).2 _ (by rw [noteUpload_returns]; rfl)

end DecentStore
