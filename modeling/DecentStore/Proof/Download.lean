import DecentStore.Lib.Until
import DecentStore.Proof.Requests
import DecentStore.Proof.UploadPlan
import DecentStore.World

/-!
# A download, step by step

A download asks one candidate after another, and what a candidate answers is either accepted or the
next one is asked. The judgements of this module say what a download has when it returns, and what
must have been missing when it throws. They hold for any network that keeps some property of its
state while others move it along and the download only reads.
-/

namespace DecentStore

open Bytes Interaction

/-! ### What is made of an answer -/

namespace PeerClient

def getResult (cmd : Bytes) (most : Nat) (tooLong : Exc) : Exchange → Except Exc Bytes
  | .refused e => .error e
  | .sendFailed e => .error e
  | .brokenPipe => .error .killed
  | .silent => .error .stuck
  | .answered sock => readReply cmd most tooLong sock

theorem get_eq (cmd : Bytes) (most : Nat) (tooLong : Exc) (peer : PeerEndpoint) (id : Bytes) :
    get cmd most tooLong peer id = .call (.exchange peer (getRequest cmd id)) fun answer =>
      Prog.ofExcept (getResult cmd most tooLong answer) := by
  change Prog.call _ _ = Prog.call _ _
  congr 1
  funext answer
  cases answer <;> rfl

def manifestResult : Exchange → Except Exc Bytes :=
  getResult (str "GET_MANIFEST") (maxSize - 1) (.lengthError (str "basic_string::_M_replace_aux"))

def chunkResult : Exchange → Except Exc Bytes :=
  getResult (str "GET_CHUNK") maxSize vectorTooLong

end PeerClient

namespace DssClient

variable (ssl : OpenSsl)

/-- What the loop makes of an answer to `GET_MANIFEST`: the manifest, if its text has the right hash
and can be read, else the next candidate, unless the process ends. -/
def acceptManifest (manifestId : Bytes) (answer : Exchange) : Except Exc (Option Manifest) :=
  Prog.handled Exc.caught none do
    let text ← PeerClient.manifestResult answer
    if Crypto.sha256Hex ssl text ≠ manifestId then .ok none
    else do
      let manifest ← parseManifestText text
      .ok (some manifest)

/-- The plaintext of an answer, if it has the right hash. -/
def acceptChunk (enc : Encryption) (chunkIndex : UInt64) (chunkId : Bytes) (answer : Exchange) :
    Except Exc (Option Bytes) :=
  Prog.handled Exc.caught none do
    let encData ← PeerClient.chunkResult answer
    let plain ← openChunk ssl enc chunkIndex encData
    if Crypto.sha256Hex ssl plain ≠ chunkId then .ok none else .ok (some plain)

theorem tryManifest_eq (manifestId : Bytes) (peer : PeerEndpoint) :
    (Prog.catching Exc.caught (attemptManifest ssl manifestId peer) fun _ => pure none) =
      .call (.exchange peer (PeerClient.getRequest (str "GET_MANIFEST") manifestId)) fun answer =>
        Prog.ofExcept (acceptManifest ssl manifestId answer) := by
  unfold attemptManifest PeerClient.getManifest
  rw [PeerClient.get_eq]
  change Prog.call _ _ = Prog.call _ _
  congr 1
  funext answer
  refine Eq.trans ?_ (Prog.catching_ofExcept Exc.caught _ none)
  change Prog.catching Exc.caught (Prog.ofExcept (PeerClient.manifestResult answer) >>= fun text =>
    if Crypto.sha256Hex ssl text ≠ manifestId then pure none
    else do
      let manifest ← Prog.ofExcept (parseManifestText text)
      pure (some manifest)) (fun _ => pure none) = Prog.catching Exc.caught _ _
  congr 1
  cases PeerClient.manifestResult answer with
  | error e => rfl
  | ok text =>
      simp only [Prog.ofExcept_ok_bind]
      change _ = Prog.ofExcept (if Crypto.sha256Hex ssl text ≠ manifestId then .ok none
        else parseManifestText text >>= fun manifest => .ok (some manifest))
      split
      · rfl
      · cases parseManifestText text <;> rfl

def writeAccepted : Option Bytes → ClientProg (Option Unit)
  | none => pure none
  | some plain => .call (.write plain) fun _ => pure (some ())

theorem tryChunk_eq (enc : Encryption) (chunkIndex : UInt64) (chunkId : Bytes)
    (peer : PeerEndpoint) :
    (Prog.catching Exc.caught (attemptChunk ssl enc chunkIndex chunkId peer) fun _ => pure none) =
      .call (.exchange peer (PeerClient.getRequest (str "GET_CHUNK") chunkId)) fun answer =>
        Prog.ofExcept (acceptChunk ssl enc chunkIndex chunkId answer) >>= writeAccepted := by
  unfold attemptChunk PeerClient.getChunk
  rw [PeerClient.get_eq]
  change Prog.call _ _ = Prog.call _ _
  congr 1
  funext answer
  change Prog.catching Exc.caught
    (Prog.ofExcept (PeerClient.chunkResult answer) >>= fun encData => do
      let plain ← Prog.ofExcept (openChunk ssl enc chunkIndex encData)
      if Crypto.sha256Hex ssl plain ≠ chunkId then pure none
      else do
        (Prog.ask (Call.write plain) : ClientProg Unit)
        pure (some ())) (fun _ => pure none) = _
  unfold acceptChunk
  cases PeerClient.chunkResult answer with
  | error e => exact (Prog.ofExcept_handled_bind Exc.caught none e writeAccepted).symm
  | ok encData =>
      change _ = Prog.ofExcept (Prog.handled Exc.caught none
        (openChunk ssl enc chunkIndex encData >>= fun plain =>
          if Crypto.sha256Hex ssl plain ≠ chunkId then .ok none else .ok (some plain))) >>= _
      simp only [Prog.ofExcept_ok_bind]
      cases openChunk ssl enc chunkIndex encData with
      | error e => exact (Prog.ofExcept_handled_bind Exc.caught none e writeAccepted).symm
      | ok plain =>
          change _ = Prog.ofExcept (Prog.handled Exc.caught none
            (if Crypto.sha256Hex ssl plain ≠ chunkId then .ok none else .ok (some plain))) >>= _
          simp only [Prog.ofExcept_ok_bind]
          split <;> rfl

end DssClient

/-! ### What an attempt throws -/

theorem readLabelled_catchable {α : Type} (get : IStream → α → α × IStream) (old : α)
    (expected : Bytes) (is : IStream) : Catchable (readLabelled get old expected is) := by
  unfold readLabelled
  dsimp only
  split
  · exact .error rfl
  · exact .ok _

theorem readChunkIds_catchable (n : Nat) (is : IStream) : Catchable (readChunkIds n is) := by
  induction n generalizing is with
  | zero => exact .ok _
  | succ n ih =>
      unfold readChunkIds
      dsimp only
      split
      · exact .error rfl
      · exact .bind (ih _) fun _ => .ok _

theorem readEncryption_catchable (m : Manifest) (is : IStream) :
    Catchable (readEncryption m is) := by
  unfold readEncryption
  dsimp only
  split
  · exact .bind (readLabelled_catchable _ _ _ _) fun _ =>
      .bind (readLabelled_catchable _ _ _ _) fun _ =>
        .bind (readLabelled_catchable _ _ _ _) fun _ => .ok _
  · exact .ok _

theorem parseManifestText_catchable (text : Bytes) : Catchable (parseManifestText text) := by
  unfold parseManifestText
  refine .bind (readLabelled_catchable _ _ _ _) fun _ => ?_
  refine .bind (readLabelled_catchable _ _ _ _) fun _ => ?_
  refine .bind (readLabelled_catchable _ _ _ _) fun _ => ?_
  refine .bind (readLabelled_catchable _ _ _ _) fun _ => ?_
  dsimp only
  split
  · exact .error rfl
  · exact .bind (readChunkIds_catchable _ _) fun _ => readEncryption_catchable _ _

namespace Exchange

theorem Ends.getResult {answer : Exchange} (hends : answer.Ends) (cmd : Bytes) (most : Nat)
    {tooLong : Exc} (hlong : tooLong.caught = true) :
    Catchable (PeerClient.getResult cmd most tooLong answer) := by
  cases answer with
  | refused e => exact .error hends
  | sendFailed e => exact .error hends
  | brokenPipe => exact hends.elim
  | silent => exact hends.elim
  | answered sock => exact PeerClient.readReply_catchable cmd most hlong sock

/-- An answer with this payload: a good header and the bytes, whatever follows them and however the
connection ends. -/
def Delivers (answer : Exchange) (data : Bytes) : Prop :=
  data.length ≤ maxSize ∧ ∃ sock extra, answer = .answered sock ∧
    sock.bytes = PeerService.okPayload data ++ extra

end Exchange

namespace DssClient

variable {ssl : OpenSsl} {enc : Encryption} {chunkIndex : UInt64}

/-- A ciphertext whose tag does not verify. -/
def BadTag (ssl : OpenSsl) (enc : Encryption) (chunkIndex : UInt64) (encData : Bytes) : Prop :=
  openChunk ssl enc chunkIndex encData = .error .killed

instance (ssl : OpenSsl) (enc : Encryption) (chunkIndex : UInt64) (encData : Bytes) :
    Decidable (BadTag ssl enc chunkIndex encData) :=
  inferInstanceAs (Decidable (_ = _))

theorem not_badTag_plain (encData : Bytes) : ¬ BadTag ssl none chunkIndex encData := by
  rintro hbad
  cases hbad

theorem deriveChunkIv_catchable (iv : Bytes) : Catchable (Crypto.deriveChunkIv iv chunkIndex) := by
  unfold Crypto.deriveChunkIv
  split
  · exact .error rfl
  · exact .ok _

theorem aesGcmDecrypt_throws {c key iv : Bytes} {e : Exc}
    (he : Crypto.aesGcmDecrypt ssl c key iv chunkIndex = .error e) :
    e.caught = true ∨ e = .killed := by
  unfold Crypto.aesGcmDecrypt at he
  split at he
  · cases he
    exact Or.inl rfl
  · cases hiv : Crypto.deriveChunkIv iv chunkIndex with
    | error e' =>
        simp only [hiv, Bind.bind, Except.bind, Except.error.injEq] at he
        exact Or.inl (he ▸ deriveChunkIv_catchable iv _ hiv)
    | ok iv' =>
        simp only [hiv, Bind.bind, Except.bind] at he
        split at he
        · cases he
          exact Or.inl rfl
        · split at he
          · cases he
            exact Or.inr rfl
          · cases he

theorem openChunk_catchable {encData : Bytes} (hgood : ¬ BadTag ssl enc chunkIndex encData) :
    Catchable (openChunk ssl enc chunkIndex encData) := by
  intro e he
  cases enc with
  | none => cases he
  | some params =>
      rcases aesGcmDecrypt_throws he with hcaught | rfl
      · exact hcaught
      · exact absurd he hgood

/-- An exchange that ends is judged, and the loop goes on unless a tag is bad. -/
theorem acceptManifest_ends {answer : Exchange} (hends : answer.Ends) (manifestId : Bytes) :
    ∃ found, acceptManifest ssl manifestId answer = .ok found := by
  refine Catchable.handled (.bind (hends.getResult _ _ rfl) fun text => ?_) none
  split
  · exact .ok _
  · exact .bind (parseManifestText_catchable text) fun _ => .ok _

theorem acceptChunk_ends {answer : Exchange} (hends : answer.Ends)
    (hgood : ∀ encData, PeerClient.chunkResult answer = .ok encData →
      ¬ BadTag ssl enc chunkIndex encData) (chunkId : Bytes) :
    ∃ found, acceptChunk ssl enc chunkIndex chunkId answer = .ok found := by
  have hresult := @Exchange.Ends.getResult answer hends (str "GET_CHUNK") maxSize vectorTooLong rfl
  unfold acceptChunk
  change Catchable (PeerClient.chunkResult answer) at hresult
  cases hreceived : PeerClient.chunkResult answer with
  | error e => exact Catchable.handled (.error (hresult e hreceived)) none
  | ok encData =>
      refine Catchable.handled (.bind (openChunk_catchable (hgood encData hreceived)) fun _ => ?_)
        none
      split <;> exact .ok _

theorem acceptManifest_ne_brokenPipe {manifestId : Bytes} {answer : Exchange}
    {found : Option Manifest} (haccept : acceptManifest ssl manifestId answer = .ok found) :
    answer ≠ .brokenPipe := by
  rintro rfl
  cases haccept

/-- An answer that is judged has not ended the process. -/
theorem acceptChunk_spares {chunkId : Bytes} {answer : Exchange} {found : Option Bytes}
    (haccept : acceptChunk ssl enc chunkIndex chunkId answer = .ok found) :
    answer ≠ .brokenPipe ∧ ∀ encData, PeerClient.chunkResult answer = .ok encData →
      ¬ BadTag ssl enc chunkIndex encData := by
  constructor
  · rintro rfl
    cases haccept
  · intro encData hresult hbad
    rw [acceptChunk, hresult] at haccept
    unfold BadTag at hbad
    simp [hbad, Bind.bind, Except.bind, Prog.handled, Exc.caught] at haccept

end DssClient

theorem chunkResult_delivers {answer : Exchange} {data : Bytes} (hdata : answer.Delivers data) :
    PeerClient.chunkResult answer = .ok data := by
  obtain ⟨hlength, sock, extra, rfl, hbytes⟩ := hdata
  exact PeerClient.readReply_okPayload hlength (by decide) hbytes

theorem manifestResult_delivers {answer : Exchange} {text : Bytes} (htext : answer.Delivers text)
    (hlength : text.length < maxSize) : PeerClient.manifestResult answer = .ok text := by
  obtain ⟨-, sock, extra, rfl, hbytes⟩ := htext
  exact PeerClient.readReply_okPayload (by omega) (by decide) hbytes

theorem DssClient.acceptManifest_delivers {ssl : OpenSsl} {upload : Upload ssl} {plan : Plan}
    (hname : upload.Named) (hplan : upload.plan = .ok plan) {answer : Exchange}
    (hanswer : answer.Delivers plan.text) :
    acceptManifest ssl (plan.hash ssl) answer = .ok (some plan.manifest) := by
  rw [acceptManifest, manifestResult_delivers hanswer (upload.text_fits plan hplan)]
  simp [Plan.hash, Upload.parse_text hname hplan, Bind.bind, Except.bind, Prog.handled]

theorem DssClient.acceptChunk_delivers {ssl : OpenSsl} {enc : Encryption} {chunkIndex : UInt64}
    {answer : Exchange} {encData plain : Bytes} (hanswer : answer.Delivers encData)
    (hopen : openChunk ssl enc chunkIndex encData = .ok plain) :
    acceptChunk ssl enc chunkIndex (Crypto.sha256Hex ssl plain) answer = .ok (some plain) := by
  rw [acceptChunk, chunkResult_delivers hanswer]
  simp [hopen, Bind.bind, Except.bind, Prog.handled]

theorem DssClient.acceptChunk_badTag {ssl : OpenSsl} {enc : Encryption} {chunkIndex : UInt64}
    {answer : Exchange} {encData chunkId : Bytes} (hanswer : answer.Delivers encData)
    (hbad : BadTag ssl enc chunkIndex encData) :
    acceptChunk ssl enc chunkIndex chunkId answer = .error .killed := by
  rw [acceptChunk, chunkResult_delivers hanswer]
  unfold BadTag at hbad
  simp [hbad, Bind.bind, Except.bind, Prog.handled, Exc.caught]

namespace DssClient

variable (ssl : OpenSsl)

/-! ### The candidates -/

theorem subset_withFallback (candidates peers : List PeerEndpoint) :
    candidates ⊆ withFallback candidates peers := by
  induction peers generalizing candidates with
  | nil => exact List.Subset.refl _
  | cons p peers ih =>
      unfold withFallback
      rw [List.foldl_cons]
      refine List.Subset.trans ?_ (ih _)
      split
      · exact List.Subset.refl _
      · exact List.subset_append_left _ _

/-- **Every configured peer is a candidate.** -/
theorem peers_subset_withFallback (candidates peers : List PeerEndpoint) :
    peers ⊆ withFallback candidates peers := by
  induction peers generalizing candidates with
  | nil => exact List.nil_subset _
  | cons p peers ih =>
      unfold withFallback
      rw [List.foldl_cons]
      refine List.cons_subset.mpr ⟨?_, ih _⟩
      refine subset_withFallback _ peers ?_
      split
      · rename_i hany
        obtain ⟨c, hc, hsame⟩ := List.any_eq_true.mp hany
        simp only [Bool.and_eq_true, decide_eq_true_eq] at hsame
        obtain ⟨ip, port⟩ := c
        obtain ⟨rfl, rfl⟩ := hsame
        exact hc
      · exact List.mem_append_right _ (List.mem_singleton_self p)

theorem withFallback_subset {candidates peers : List PeerEndpoint}
    (hcandidates : candidates ⊆ peers) : withFallback candidates peers ⊆ peers := by
  suffices hgen : ∀ (rest c : List PeerEndpoint), c ⊆ peers → rest ⊆ peers →
      withFallback c rest ⊆ peers from hgen peers candidates hcandidates (List.Subset.refl _)
  intro rest
  induction rest with
  | nil => exact fun c hc _ => hc
  | cons p rest ih =>
      intro c hc hrest
      obtain ⟨hp, hrest⟩ := List.cons_subset.mp hrest
      unfold withFallback
      rw [List.foldl_cons]
      refine ih _ ?_ hrest
      split
      · exact hc
      · exact List.append_subset.mpr ⟨hc, List.cons_subset.mpr ⟨hp, List.nil_subset _⟩⟩

/-- Whom a download asks for an object, in this order. -/
def candidates (cfg : ClientConfig) (key : Bytes) : List PeerEndpoint :=
  withFallback ((DhtNode.ranked ssl cfg.peers key).take
    (DhtNode.reach ssl cfg.peers (askedReplicas cfg))) cfg.peers

theorem mem_candidates (cfg : ClientConfig) (key : Bytes) (p : PeerEndpoint) :
    p ∈ candidates ssl cfg key ↔ p ∈ cfg.peers :=
  ⟨fun hp => withFallback_subset
      (fun _ hq => DhtNode.ranked_subset ssl cfg.peers key (List.mem_of_mem_take hq)) hp,
    fun hp => peers_subset_withFallback _ _ hp⟩

/-- The end of an attempt or of a search: something was found, nothing was, or the process ended. -/
def Searched {α S : Type} (keep : S → Prop) (found : α → S → Prop) (stopped : Exc → S → Prop) :
    Except Exc (Option α) → S → Prop
  | .ok (some a), s => found a s
  | .ok none, s => keep s
  | .error e, s => stopped e s

/-- The search goes through the candidates until one has what is asked for or ends it. -/
theorem firstOf_holds {α S : Type} {h : Handler Call.Reply S} {rely guar : S → S → Prop}
    {attempt : PeerEndpoint → ClientProg (Option α)} {keep : S → Prop}
    {passed : PeerEndpoint → Prop} {found : PeerEndpoint → α → S → Prop}
    {stopped : PeerEndpoint → Exc → S → Prop} {candidates : List PeerEndpoint}
    (hattempt : ∀ p ∈ candidates, ∀ s, keep s →
      (Prog.catching Exc.caught (attempt p) fun _ => pure none).Holds h rely guar
        (Searched (fun s => keep s ∧ passed p) (found p) (stopped p)) s) {s : S} (hs : keep s) :
    (firstOf attempt candidates).Holds h rely guar
      (Searched (fun s => keep s ∧ ∀ p ∈ candidates, passed p)
        (fun a s => Until passed (found · a s) candidates)
        (fun e s => Until passed (stopped · e s) candidates)) s := by
  induction candidates generalizing s with
  | nil => exact ⟨hs, by simp⟩
  | cons p candidates ih =>
      unfold firstOf
      refine Prog.holds_bind (hattempt p List.mem_cons_self s hs) ?_ fun e s' => Or.inl
      intro r s' hr
      cases r with
      | some a => exact Or.inl hr
      | none =>
          obtain ⟨hkeep, hpassed⟩ := hr
          refine Prog.holds_mono ?_
            (ih (fun q hq => hattempt q (List.mem_cons_of_mem p hq)) hkeep)
          rintro (e | _ | a) s'' hrest
          · exact Or.inr ⟨hpassed, hrest⟩
          · exact ⟨hrest.1, List.forall_mem_cons.mpr ⟨hpassed, hrest.2⟩⟩
          · exact Or.inr ⟨hpassed, hrest⟩

section Answers

variable {α : Type} (may : PeerEndpoint → Except Exc (Option α) → Prop)
  (candidates : List PeerEndpoint)

/-- One of the candidates can give this, and those asked before it can all be passed. -/
def Yields (a : α) : Prop := Until (may · (.ok none)) (may · (.ok (some a))) candidates

/-- Something is found whatever becomes of the answers: one of the candidates always gives it, and
those asked before it never end the process. -/
def Serves : Prop :=
  Until (fun p => ∀ result, may p result → ∃ found, result = .ok found)
    (fun p => ∀ result, may p result → ∃ a, result = .ok (some a)) candidates

variable {may candidates}

theorem Yields.exists_candidate {a : α} (hyields : Yields may candidates a) :
    ∃ p ∈ candidates, may p (.ok (some a)) := Until.exists_hit hyields

theorem not_serves_of_passed (hpassed : ∀ p ∈ candidates, may p (.ok none)) :
    ¬ Serves may candidates := by
  intro hserves
  obtain ⟨p, hp, hgood⟩ := Until.exists_hit hserves
  obtain ⟨a, ha⟩ := hgood _ (hpassed p hp)
  cases ha

theorem not_serves_of_stopped {e : Exc}
    (hstopped : Until (may · (.ok none)) (may · (.error e)) candidates) :
    ¬ Serves may candidates := by
  refine Until.not_of_until hstopped (fun p _ hpassed hgood => ?_) fun p _ hend => ⟨?_, ?_⟩
  · obtain ⟨a, ha⟩ := hgood _ hpassed
    cases ha
  · intro hgoes
    obtain ⟨found, hfound⟩ := hgoes _ hend
    cases hfound
  · intro hgood
    obtain ⟨a, ha⟩ := hgood _ hend
    cases ha

end Answers

end DssClient

/-! ### Readers -/

theorem ofNat_succ (n : Nat) : UInt64.ofNat n + 1 = UInt64.ofNat (n + 1) := by
  simp [UInt64.ofNat_add]

/-- A client that downloads, and what it relies on: others move the network's state along `move`,
which keeps `keep`, and reading under a hash is such a move. -/
structure Reader (ssl : OpenSsl) (σ : Type) where
  cfg : ClientConfig
  net : Network σ
  move : σ → σ → Prop
  keep : σ → Prop
  refl : ∀ a, move a a
  keep_of_move : ∀ {a b}, move a b → keep a → keep b
  get_moves : ∀ peer cmd id s, cmd = str "GET_CHUNK" ∨ cmd = str "GET_MANIFEST" → IsHashHex id →
    keep s.1 → move s.1 (net peer (PeerClient.getRequest cmd id) s).2

namespace Reader

open DssClient

variable {ssl : OpenSsl} {σ : Type} (reader : Reader ssl σ)

abbrev Judges {α : Type} (prog : ClientProg α) (post : Except Exc α → σ × LocalDisk → Prop)
    (s : σ × LocalDisk) : Prop :=
  prog.Holds (worldHandle reader.net) (Pool.Others reader.move) (Pool.Own reader.move) post s

def chunkAnswer (peer : PeerEndpoint) (chunkId : Bytes) (s : σ × LocalDisk) : Exchange :=
  (reader.net peer (PeerClient.getRequest (str "GET_CHUNK") chunkId) s).1

def manifestAnswer (peer : PeerEndpoint) (manifestId : Bytes) (s : σ × LocalDisk) : Exchange :=
  (reader.net peer (PeerClient.getRequest (str "GET_MANIFEST") manifestId) s).1

/-- What can become of a peer's answer when it is asked for the chunk at position `n`. -/
def ChunkMay (enc : Encryption) (n : Nat) (chunkId : Bytes) (peer : PeerEndpoint)
    (result : Except Exc (Option Bytes)) : Prop :=
  ∃ s, reader.keep s.1 ∧ s.2.writes = n ∧
    acceptChunk ssl enc (UInt64.ofNat n) chunkId (reader.chunkAnswer peer chunkId s) = result

def ManifestMay (manifestId : Bytes) (peer : PeerEndpoint)
    (result : Except Exc (Option Manifest)) : Prop :=
  ∃ s, reader.keep s.1 ∧
    acceptManifest ssl manifestId (reader.manifestAnswer peer manifestId s) = result

/-- The peers can give this plaintext for the chunk at position `n`. -/
def ChunkYields (enc : Encryption) (n : Nat) (chunkId plain : Bytes) : Prop :=
  Yields (reader.ChunkMay enc n chunkId) (candidates ssl reader.cfg chunkId) plain

/-- The chunk at position `n` is had whenever it is asked for. -/
def ChunkServed (enc : Encryption) (n : Nat) (chunkId : Bytes) : Prop :=
  Serves (reader.ChunkMay enc n chunkId) (candidates ssl reader.cfg chunkId)

def ManifestYields (manifestId : Bytes) (manifest : Manifest) : Prop :=
  Yields (reader.ManifestMay manifestId)
    (candidates ssl reader.cfg (str "manifest:" ++ manifestId)) manifest

def ManifestServed (manifestId : Bytes) : Prop :=
  Serves (reader.ManifestMay manifestId)
    (candidates ssl reader.cfg (str "manifest:" ++ manifestId))

/-- Every exchange of the reader with one of its peers comes to an end. -/
def Answers : Prop :=
  ∀ p ∈ reader.cfg.peers, ∀ cmd id s, cmd = str "GET_CHUNK" ∨ cmd = str "GET_MANIFEST" →
    IsHashHex id → reader.keep s.1 → (reader.net p (PeerClient.getRequest cmd id) s).1.Ends

variable {reader}

/-- Where the others can only answer and no tag is bad, one good peer is enough. -/
theorem chunkServed_of_answers (hanswers : reader.Answers) {enc : Encryption} {n : Nat}
    {chunkId : Bytes} (hid : IsHashHex chunkId) {p : PeerEndpoint} (hp : p ∈ reader.cfg.peers)
    (hgood : ∀ q ∈ reader.cfg.peers, ∀ s, reader.keep s.1 → s.2.writes = n → ∀ encData,
      PeerClient.chunkResult (reader.chunkAnswer q chunkId s) = .ok encData →
        ¬ BadTag ssl enc (UInt64.ofNat n) encData)
    (hserved : ∀ s, reader.keep s.1 → s.2.writes = n → ∃ plain,
      acceptChunk ssl enc (UInt64.ofNat n) chunkId (reader.chunkAnswer p chunkId s) =
        .ok (some plain)) :
    reader.ChunkServed enc n chunkId := by
  refine Until.of_mem ?_ ((mem_candidates ssl reader.cfg _ p).mpr hp) ?_
  · rintro q hq _ ⟨s, hkeep, hwrites, rfl⟩
    have hq := (mem_candidates ssl reader.cfg _ q).mp hq
    exact acceptChunk_ends (hanswers q hq _ _ s (Or.inl rfl) hid hkeep)
      (hgood q hq s hkeep hwrites) chunkId
  · rintro _ ⟨s, hkeep, hwrites, rfl⟩
    exact hserved s hkeep hwrites

theorem manifestServed_of_answers (hanswers : reader.Answers) {manifestId : Bytes}
    (hid : IsHashHex manifestId) {p : PeerEndpoint} (hp : p ∈ reader.cfg.peers)
    (hserved : ∀ s, reader.keep s.1 → ∃ manifest,
      acceptManifest ssl manifestId (reader.manifestAnswer p manifestId s) = .ok (some manifest)) :
    reader.ManifestServed manifestId := by
  refine Until.of_mem ?_ ((mem_candidates ssl reader.cfg _ p).mpr hp) ?_
  · rintro q hq _ ⟨s, hkeep, rfl⟩
    have hq := (mem_candidates ssl reader.cfg _ q).mp hq
    exact acceptManifest_ends (hanswers q hq _ _ s (Or.inr rfl) hid hkeep) manifestId
  · rintro _ ⟨s, hkeep, rfl⟩
    exact hserved s hkeep

theorem tryChunk_holds {enc : Encryption} {chunkId : Bytes} (hid : IsHashHex chunkId)
    {disk : LocalDisk} (p : PeerEndpoint) {s : σ × LocalDisk}
    (hs : reader.keep s.1 ∧ s.2 = disk) :
    reader.Judges
      (Prog.catching Exc.caught (attemptChunk ssl enc (UInt64.ofNat disk.writes) chunkId p)
        fun _ => pure none)
      (Searched
        (fun s => (reader.keep s.1 ∧ s.2 = disk) ∧
          reader.ChunkMay enc disk.writes chunkId p (.ok none))
        (fun _ s => ∃ w, reader.ChunkMay enc disk.writes chunkId p (.ok (some w)) ∧
          reader.keep s.1 ∧ s.2 = disk.write w)
        (fun e _ => reader.ChunkMay enc disk.writes chunkId p (.error e))) s := by
  obtain ⟨hkeep, rfl⟩ := hs
  rw [tryChunk_eq]
  intro s' hothers
  have hkeep' : reader.keep s'.1 := reader.keep_of_move hothers.1 hkeep
  have hmoves := reader.get_moves p _ chunkId s' (Or.inl rfl) hid hkeep'
  have hmay : reader.ChunkMay enc s.2.writes chunkId p (acceptChunk ssl enc
      (UInt64.ofNat s.2.writes) chunkId (reader.chunkAnswer p chunkId s')) :=
    ⟨s', hkeep', congrArg LocalDisk.writes hothers.2, rfl⟩
  refine ⟨hmoves, ?_⟩
  change reader.Judges (Prog.ofExcept (acceptChunk ssl enc (UInt64.ofNat s.2.writes) chunkId
    (reader.chunkAnswer p chunkId s')) >>= writeAccepted) _ _
  rcases hresult : acceptChunk ssl enc (UInt64.ofNat s.2.writes) chunkId
      (reader.chunkAnswer p chunkId s') with e | _ | plain <;> rw [hresult] at hmay
  · exact hmay
  · exact ⟨⟨reader.keep_of_move hmoves hkeep', hothers.2⟩, hmay⟩
  · intro s'' hothers'
    refine ⟨reader.refl _, plain, hmay, ?_, ?_⟩
    · exact reader.keep_of_move hothers'.1 (reader.keep_of_move hmoves hkeep')
    · exact congrArg (LocalDisk.write · plain) (hothers'.2.trans hothers.2)

/-- **One chunk.** It is there when the call returns, and was not served when it throws. -/
theorem downloadChunk_holds {enc : Encryption} {chunkId : Bytes} (hid : IsHashHex chunkId)
    {s : σ × LocalDisk} (hkeep : reader.keep s.1) :
    reader.Judges (downloadChunk ssl reader.cfg ⟨DhtNode.tableOf ssl reader.cfg.peers⟩ enc
        (UInt64.ofNat s.2.writes) chunkId)
      (fun
        | .ok (), s' => reader.keep s'.1 ∧
            ∃ w, reader.ChunkYields enc s.2.writes chunkId w ∧ s'.2 = s.2.write w
        | .error _, _ => ¬ reader.ChunkServed enc s.2.writes chunkId) s := by
  unfold downloadChunk DhtNode.findValue
  rw [DhtNode.store_eq, Prog.ofExcept_ok_bind]
  refine Prog.holds_bind (firstOf_holds (fun p _ _ hs => tryChunk_holds hid p hs) ⟨hkeep, rfl⟩) ?_
    fun _ _ => not_serves_of_stopped
  intro found s' hfound
  cases found with
  | some _ =>
      obtain ⟨w, hyields⟩ := Until.choose hfound
      obtain ⟨p, -, -, hkeep', hdisk⟩ := Until.exists_hit hyields
      exact ⟨hkeep', w, Until.mono (fun _ _ => id) (fun _ _ => And.left) hyields, hdisk⟩
  | none => exact not_serves_of_passed hfound.2

variable (reader)

/-- The plaintexts of the chunks from position `n` on. -/
inductive Fetched (enc : Encryption) : Nat → List ManifestEntry → List Bytes → Prop where
  | nil (n : Nat) : Fetched enc n [] []
  | cons {n : Nat} {entry : ManifestEntry} {plain : Bytes} {entries : List ManifestEntry}
      {plains : List Bytes} (hplain : reader.ChunkYields enc n entry.chunkId plain)
      (hrest : Fetched enc (n + 1) entries plains) :
      Fetched enc n (entry :: entries) (plain :: plains)

/-- Every position from `n` on has a good peer. -/
def AllServed (enc : Encryption) : Nat → List ManifestEntry → Prop
  | _, [] => True
  | n, entry :: entries => reader.ChunkServed enc n entry.chunkId ∧ AllServed enc (n + 1) entries

variable {reader}

theorem downloadChunks_holds (enc : Encryption) {entries : List ManifestEntry}
    (hids : ∀ e ∈ entries, IsHashHex e.chunkId) {s : σ × LocalDisk} (hkeep : reader.keep s.1) :
    reader.Judges (downloadChunks ssl reader.cfg ⟨DhtNode.tableOf ssl reader.cfg.peers⟩ enc
        (UInt64.ofNat s.2.writes) entries)
      (fun
        | .ok (), s' => reader.keep s'.1 ∧
            ∃ plains, reader.Fetched enc s.2.writes entries plains ∧ s'.2 = s.2.writeAll plains
        | .error _, _ => ¬ reader.AllServed enc s.2.writes entries) s := by
  induction entries generalizing s with
  | nil => exact ⟨hkeep, [], .nil _, rfl⟩
  | cons entry entries ih =>
      unfold downloadChunks
      refine Prog.holds_bind (downloadChunk_holds (hids entry List.mem_cons_self) hkeep) ?_
        fun e s' hbad hserved => hbad hserved.1
      rintro ⟨⟩ s' ⟨hkeep', plain, hplain, hdisk⟩
      have hindex : UInt64.ofNat s.2.writes + 1 = UInt64.ofNat s'.2.writes := by
        rw [ofNat_succ, hdisk]
        rfl
      have hwrites : s'.2.writes = s.2.writes + 1 := by
        rw [hdisk]
        rfl
      have hrest := ih (fun e he => hids e (List.mem_cons_of_mem entry he)) hkeep'
      rw [hindex]
      refine Prog.holds_mono ?_ hrest
      rintro (e | ⟨⟩) s'' hpost
      · intro hserved
        exact hpost (hwrites ▸ hserved.2)
      · obtain ⟨hkeep'', plains, hfetched, hdisk'⟩ := hpost
        rw [hwrites] at hfetched
        exact ⟨hkeep'', plain :: plains, .cons hplain hfetched, by rw [hdisk', hdisk]; rfl⟩

/-! ### The manifest and the whole download -/

theorem tryManifest_holds {manifestId : Bytes} (hid : IsHashHex manifestId) {disk : LocalDisk}
    (p : PeerEndpoint) {s : σ × LocalDisk} (hs : reader.keep s.1 ∧ s.2 = disk) :
    reader.Judges
      (Prog.catching Exc.caught (attemptManifest ssl manifestId p) fun _ => pure none)
      (Searched
        (fun s => (reader.keep s.1 ∧ s.2 = disk) ∧ reader.ManifestMay manifestId p (.ok none))
        (fun manifest s => (reader.keep s.1 ∧ s.2 = disk) ∧
          reader.ManifestMay manifestId p (.ok (some manifest)))
        (fun e _ => reader.ManifestMay manifestId p (.error e))) s := by
  rw [tryManifest_eq]
  intro s' hothers
  have hkeep' : reader.keep s'.1 := reader.keep_of_move hothers.1 hs.1
  have hmoves := reader.get_moves p _ manifestId s' (Or.inr rfl) hid hkeep'
  have hmay : reader.ManifestMay manifestId p
      (acceptManifest ssl manifestId (reader.manifestAnswer p manifestId s')) :=
    ⟨s', hkeep', rfl⟩
  have hnow := And.intro (reader.keep_of_move hmoves hkeep') (hothers.2.trans hs.2)
  refine ⟨hmoves, ?_⟩
  change reader.Judges (Prog.ofExcept (acceptManifest ssl manifestId
    (reader.manifestAnswer p manifestId s'))) _ _
  rcases hresult : acceptManifest ssl manifestId (reader.manifestAnswer p manifestId s')
      with e | _ | manifest <;> rw [hresult] at hmay
  · exact hmay
  · exact ⟨hnow, hmay⟩
  · exact ⟨hnow, hmay⟩

theorem fetchManifest_holds {manifestId : Bytes} (hid : IsHashHex manifestId) {s : σ × LocalDisk}
    (hkeep : reader.keep s.1) :
    reader.Judges (fetchManifest ssl reader.cfg ⟨DhtNode.tableOf ssl reader.cfg.peers⟩ manifestId)
      (fun
        | .ok manifest, s' => (reader.keep s'.1 ∧ s'.2 = s.2) ∧
            reader.ManifestYields manifestId manifest
        | .error _, _ => ¬ reader.ManifestServed manifestId) s := by
  unfold fetchManifest DhtNode.findValue
  rw [DhtNode.store_eq, Prog.ofExcept_ok_bind]
  refine Prog.holds_bind (firstOf_holds (fun p _ _ hs => tryManifest_holds hid p hs) ⟨hkeep, rfl⟩)
    ?_ fun _ _ => not_serves_of_stopped
  intro found s' hfound
  cases found with
  | some manifest =>
      obtain ⟨p, -, hnow, -⟩ := Until.exists_hit hfound
      exact ⟨hnow, Until.mono (fun _ _ => id) (fun _ _ => And.right) hfound⟩
  | none => exact not_serves_of_passed hfound.2

/-- What is left of a download once it has the manifest. -/
def saveChunks (ssl : OpenSsl) (cfg : ClientConfig) (outPath : Bytes) (manifest : Manifest) :
    ClientProg Unit := do
  let enc ← Prog.ofExcept (unwrapKey ssl cfg manifest)
  let opened : Bool ← Prog.ask (Call.openOut outPath)
  if opened then
    downloadChunks ssl cfg ⟨DhtNode.tableOf ssl cfg.peers⟩ enc 0 manifest.chunks
  else throw (.runtimeError (str "Cannot open output file: " ++ outPath))

theorem getFile_eq {cfg : ClientConfig} (hpeers : cfg.peers ≠ []) (manifestRef outPath : Bytes) :
    getFile ssl cfg manifestRef outPath = .call (.fileExists manifestRef) fun answer =>
      Prog.ofExcept answer >>= fun isLocal =>
        if isLocal then readManifest manifestRef >>= saveChunks ssl cfg outPath
        else fetchManifest ssl cfg ⟨DhtNode.tableOf ssl cfg.peers⟩
          (normalizeManifestId manifestRef) >>= saveChunks ssl cfg outPath := by
  unfold getFile getFileBy
  rw [if_neg hpeers, DhtNode.ofPeers_eq, Prog.ofExcept_ok_bind]
  change Prog.call _ _ = Prog.call _ _
  congr 1
  funext answer
  rcases answer with e | _ | _ <;> rfl

theorem saveChunks_holds (outPath : Bytes) {manifest : Manifest}
    (hids : ∀ e ∈ manifest.chunks, IsHashHex e.chunkId) {s : σ × LocalDisk}
    (hkeep : reader.keep s.1) :
    reader.Judges (saveChunks ssl reader.cfg outPath manifest)
      (fun
        | .ok (), s' => reader.keep s'.1 ∧ ∃ enc plains,
            unwrapKey ssl reader.cfg manifest = .ok enc ∧
              reader.Fetched enc 0 manifest.chunks plains ∧
              s'.2 = (s.2.openOut outPath).writeAll plains
        | .error _, _ => ¬ (s.2.writable outPath = true ∧ ∃ enc,
            unwrapKey ssl reader.cfg manifest = .ok enc ∧
              reader.AllServed enc 0 manifest.chunks)) s := by
  unfold saveChunks
  cases hunwrap : unwrapKey ssl reader.cfg manifest with
  | error e =>
      rintro ⟨-, enc, henc, -⟩
      cases henc
  | ok enc =>
      rw [Prog.ofExcept_ok_bind]
      rintro s' ⟨hmove, hdisk⟩
      have hkeep' := reader.keep_of_move hmove hkeep
      cases hwritable : s.2.writable outPath with
      | false =>
          have hopen : worldHandle reader.net (.openOut outPath) s' = (false, s') := by
            simp [worldHandle, hdisk, hwritable]
          rw [hopen]
          exact ⟨reader.refl _, fun hserved => by simp at hserved⟩
      | true =>
          have hopen : worldHandle reader.net (.openOut outPath) s' =
              (true, s'.1, s.2.openOut outPath) := by
            simp [worldHandle, hdisk, hwritable]
          rw [hopen]
          refine ⟨reader.refl _, ?_⟩
          have hchunks := downloadChunks_holds enc hids
            (show reader.keep (s'.1, s.2.openOut outPath).1 from hkeep')
          refine Prog.holds_mono ?_ hchunks
          rintro (e | ⟨⟩) s'' hpost
          · rintro ⟨-, enc', henc', hall⟩
            cases henc'
            exact hpost hall
          · obtain ⟨hkeep'', plains, hfetched, hdisk'⟩ := hpost
            exact ⟨hkeep'', enc, plains, rfl, hfetched, hdisk'⟩

/-- **A download of a hash.** When it returns, it has written the plaintexts of the chunks of
some manifest with the id; when it throws, something was not served, the file key could not be had
or the output file could not be opened. -/
theorem getFile_holds (hpeers : reader.cfg.peers ≠ []) {manifestRef : Bytes}
    (hid : IsHashHex (normalizeManifestId manifestRef))
    (hids : ∀ manifest, reader.ManifestYields (normalizeManifestId manifestRef) manifest →
      ∀ e ∈ manifest.chunks, IsHashHex e.chunkId) (outPath : Bytes) {s : σ × LocalDisk}
    (hkeep : reader.keep s.1) (hlocal : s.2.files manifestRef = none) :
    reader.Judges (getFile ssl reader.cfg manifestRef outPath)
      (fun
        | .ok (), s' => reader.keep s'.1 ∧ ∃ manifest enc plains,
            reader.ManifestYields (normalizeManifestId manifestRef) manifest ∧
              unwrapKey ssl reader.cfg manifest = .ok enc ∧
              reader.Fetched enc 0 manifest.chunks plains ∧
              s'.2 = (s.2.openOut outPath).writeAll plains
        | .error _, _ => ¬ (reader.ManifestServed (normalizeManifestId manifestRef) ∧
            s.2.writable outPath = true ∧
            ∀ manifest, reader.ManifestYields (normalizeManifestId manifestRef) manifest →
              ∃ enc, unwrapKey ssl reader.cfg manifest = .ok enc ∧
                reader.AllServed enc 0 manifest.chunks)) s := by
  rw [getFile_eq hpeers]
  rintro s₁ ⟨hmove, hdisk⟩
  have hmissing : worldHandle reader.net (.fileExists manifestRef) s₁ = (.ok false, s₁) := by
    simp [worldHandle, hdisk, hlocal]
  rw [hmissing]
  have hkeep₁ := reader.keep_of_move hmove hkeep
  refine ⟨reader.refl _, ?_⟩
  change reader.Judges (fetchManifest ssl reader.cfg ⟨DhtNode.tableOf ssl reader.cfg.peers⟩
    (normalizeManifestId manifestRef) >>= saveChunks ssl reader.cfg outPath) _ s₁
  refine Prog.holds_bind (fetchManifest_holds hid hkeep₁) ?_ fun e s' hbad hserved =>
    hbad hserved.1
  rintro manifest s₂ ⟨⟨hkeep₂, hdisk₂⟩, hyields⟩
  have hdisk' : s₂.2 = s.2 := hdisk₂.trans hdisk
  refine Prog.holds_mono ?_ (saveChunks_holds outPath (hids manifest hyields) hkeep₂)
  rw [hdisk']
  rintro (e | ⟨⟩) s' hpost
  · intro hserved
    exact hpost ⟨hserved.2.1, hserved.2.2 manifest hyields⟩
  · obtain ⟨hkeep', enc, plains, hunwrap, hfetched, hwritten⟩ := hpost
    exact ⟨hkeep', manifest, enc, plains, hyields, hunwrap, hfetched, hwritten⟩

end Reader

end DecentStore
