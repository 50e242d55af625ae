import DecentStore.Proof.LostUploads
import DecentStore.Proof.SearchOrder

/-!
# Availability despite bad peers

One good peer for the manifest and one for each chunk are enough for a download, whatever the others
answer, as long as no answer ends the process. Two do. A request into a connection that the peer has
closed brings a signal that nothing handles, and a ciphertext whose tag does not verify makes the
client free its cipher context twice. Everything else that a peer can say is passed over.
-/

namespace DecentStore

open Bytes Interaction DssClient

/-- The exchange comes to an end, if only with the process. -/
def Exchange.Finite (answer : Exchange) : Prop :=
  answer.Ends ∨ answer = .brokenPipe

/-- A download that is attended to: no local file has the name of the share id, the output file can
be opened, every exchange is finite, one of the peers answers with the manifest, and for each
position one of them answers with bytes that open to the chunk while the download is there. -/
structure Attended (ssl : OpenSsl) (plan : Plan) (cfg : ClientConfig) (events : List ClientEvent) :
    Prop where
  remote : ∀ answer, ⟨.fileExists (plan.shareUri ssl), answer⟩ ∈ events → answer = .ok false
  writable : ∀ path opened, ⟨.openOut path, opened⟩ ∈ events → opened = true
  finite : ∀ peer request answer, ⟨.exchange peer request, answer⟩ ∈ events → answer.Finite
  manifest : ∃ p ∈ cfg.peers, ∀ answer,
    ⟨.exchange p (PeerClient.getRequest (str "GET_MANIFEST") (plan.hash ssl)), answer⟩ ∈ events →
      answer.Delivers plan.text
  chunks : ∀ n c, plan.chunks[n]? = some c → ∃ p ∈ cfg.peers, ∀ before answer,
    before ++ [⟨.exchange p (PeerClient.getRequest (str "GET_CHUNK") (Crypto.sha256Hex ssl c)),
        answer⟩] <+: events → (writes before).length = n →
      ∃ encData, answer.Delivers encData ∧
        openChunk ssl plan.enc (UInt64.ofNat n) encData = .ok c

section Survival

variable {ssl : OpenSsl} {upload : Upload ssl} {plan : Plan} {cfg : ClientConfig}
  {events : List ClientEvent}

theorem manifestQuery_shareUri (plan : Plan) : manifestQuery (plan.shareUri ssl) =
    PeerClient.getRequest (str "GET_MANIFEST") (plan.hash ssl) := by
  rw [manifestQuery, Upload.normalizeManifestId_shareUri]

theorem Attended.peers_ne (hattended : Attended ssl plan cfg events) : cfg.peers ≠ [] := by
  obtain ⟨p, hp, -⟩ := hattended.manifest
  exact List.ne_nil_of_mem hp

theorem Attended.not_local (hattended : Attended ssl plan cfg events) {answer : Except Exc Bool}
    (hanswer : answer ≠ .ok false) : ⟨.fileExists (plan.shareUri ssl), answer⟩ ∉ events :=
  fun hlooked => hanswer (hattended.remote answer hlooked)

/-- The only manifest that a download of a share id gets to know. -/
theorem Attended.known_manifest (hattended : Attended ssl plan cfg events) (hname : upload.Named)
    (hplan : upload.plan = .ok plan) (htext : ssl.NoCollision plan.text) {manifest : Manifest}
    (hknown : Known ssl cfg (plan.shareUri ssl) events manifest) : manifest = plan.manifest := by
  rcases hknown with ⟨text, hlocal, -, -⟩ | ⟨answer, -, haccept⟩
  · exact absurd hlocal (hattended.not_local (by simp))
  · rw [Upload.normalizeManifestId_shareUri] at haccept
    exact acceptManifest_plan hname hplan htext haccept

theorem exists_asked_of_exhausted {search : Search} (hall : search.Exhausted ssl cfg events)
    {p : PeerEndpoint} (hp : p ∈ cfg.peers) :
    ∃ before answer, before ++ [⟨.exchange p search.request, answer⟩] <+: events ∧
      writes before = writes events ∧ search.rejects answer := by
  obtain ⟨ask, hask, rfl⟩ := List.mem_map.mp (hall.everyone p hp)
  obtain ⟨hrequest, hrejects⟩ := hall.all.failed ask hask
  obtain ⟨before, hbefore, hwrites⟩ := exists_of_mem_trail hask
  exact ⟨before, ask.answer, hrequest ▸ hbefore, hwrites, hrejects⟩

theorem mem_of_prefix_snoc {before : List ClientEvent} {event : ClientEvent}
    (hbegins : before ++ [event] <+: events) : event ∈ events :=
  hbegins.subset (List.mem_append_right _ List.mem_cons_self)

/-- The good peer gives the manifest when it is asked. -/
theorem Attended.manifest_found (hattended : Attended ssl plan cfg events) (hname : upload.Named)
    (hplan : upload.plan = .ok plan) :
    ¬ (Search.manifest ssl (plan.shareUri ssl)).Exhausted ssl cfg events := by
  intro hall
  obtain ⟨p, hp, hdelivers⟩ := hattended.manifest
  obtain ⟨before, answer, hbefore, -, hrejects⟩ := exists_asked_of_exhausted hall hp
  change acceptManifest ssl (normalizeManifestId (plan.shareUri ssl)) answer = .ok none at hrejects
  rw [Upload.normalizeManifestId_shareUri, acceptManifest_delivers hname hplan
    (hdelivers answer (manifestQuery_shareUri plan ▸ mem_of_prefix_snoc hbefore))] at hrejects
  cases hrejects

/-- The good peer for a position gives the chunk when it is asked. -/
theorem Attended.chunk_found (hattended : Attended ssl plan cfg events) {c : Bytes}
    (hc : plan.chunks[(writes events).length]? = some c) :
    ¬ (Search.chunk ssl plan.enc (writes events).length ⟨Crypto.sha256Hex ssl c⟩).Exhausted ssl cfg
      events := by
  intro hall
  obtain ⟨p, hp, hdelivers⟩ := hattended.chunks _ c hc
  obtain ⟨before, answer, hbefore, hwrites, hrejects⟩ := exists_asked_of_exhausted hall hp
  obtain ⟨encData, hanswer, hopen⟩ := hdelivers before answer hbefore (congrArg List.length hwrites)
  cases hrejects.symm.trans (acceptChunk_delivers hanswer hopen)

/-- A download that is spared is not ended by an answer. -/
theorem Attended.not_ended (hattended : Attended ssl plan cfg events) {search : Search}
    {manifestRef : Bytes} (hsought : Sought ssl cfg manifestRef events search)
    (hspares : ∀ manifest enc, Known ssl cfg manifestRef events manifest →
      unwrapKey ssl cfg manifest = .ok enc → Spares ssl events enc)
    (hpipe : ∀ peer request, ⟨.exchange peer request, .brokenPipe⟩ ∉ events) (e : Exc) :
    ¬ search.Ended ssl cfg events e := by
  rintro ⟨⟨before, peer, answer, hlast, -, hstops⟩, -⟩
  have hbegins : before ++ [⟨.exchange peer search.request, answer⟩] <+: events :=
    hlast ▸ List.prefix_rfl
  have hends : answer.Ends :=
    (hattended.finite peer _ answer (mem_of_prefix_snoc hbegins)).resolve_right (by
      rintro rfl
      exact hpipe peer _ (mem_of_prefix_snoc hbegins))
  have hwrites : writes events = writes before := by
    rw [hlast]
    exact writes_snoc_other before (c := .exchange peer search.request) (by simp) answer
  cases hsought with
  | manifest hnone =>
      obtain ⟨found, hfound⟩ := acceptManifest_ends hends (normalizeManifestId manifestRef)
      cases hstops.symm.trans hfound
  | @chunk manifest enc entry hknown hkey hentry =>
      obtain ⟨-, hgood⟩ := hspares manifest enc hknown hkey before peer _ answer hbegins
      rw [← hwrites] at hgood
      obtain ⟨found, hfound⟩ := @acceptChunk_ends ssl enc (UInt64.ofNat (writes events).length)
        answer hends (fun encData => hgood entry encData rfl) entry.chunkId
      cases hstops.symm.trans hfound

variable {outPath : Bytes}

/-- Nothing else goes wrong in a download that is attended to. -/
theorem Attended.not_failed (hattended : Attended ssl plan cfg events) (hname : upload.Named)
    (hplan : upload.plan = .ok plan) (htext : ssl.NoCollision plan.text)
    (hkey : upload.KeyFor cfg) (hspares : Spares ssl events plan.enc) (e : Exc) :
    ¬ Failed ssl cfg (plan.shareUri ssl) outPath events e := by
  have hunwrap := Upload.unwrapKey_plan hplan hkey
  have hknows : ∀ manifest enc, Known ssl cfg (plan.shareUri ssl) events manifest →
      unwrapKey ssl cfg manifest = .ok enc → manifest = plan.manifest ∧ enc = plan.enc := by
    intro manifest enc hknown hkey
    obtain rfl := hattended.known_manifest hname hplan htext hknown
    exact ⟨rfl, Except.ok.inj (hkey.symm.trans hunwrap)⟩
  intro hfailed
  cases hfailed with
  | noPeers hpeers => exact hattended.peers_ne hpeers
  | unseen hlooked => exact hattended.not_local (by simp) hlooked
  | unreadable hlocal => exact hattended.not_local (by simp) hlocal
  | malformed hlocal => exact hattended.not_local (by simp) hlocal
  | missing hsought hall =>
      cases hsought with
      | manifest => exact hattended.manifest_found hname hplan hall
      | chunk hknown hkey hentry =>
          obtain ⟨rfl, rfl⟩ := hknows _ _ hknown hkey
          rw [Upload.plan_chunks hplan, List.getElem?_map] at hentry
          obtain ⟨c, hc, rfl⟩ := Option.map_eq_some_iff.mp hentry
          exact hattended.chunk_found hc hall
  | ended hsought hended =>
      refine hattended.not_ended hsought (fun manifest enc hknown hkey => ?_) ?_ e hended
      · obtain ⟨-, rfl⟩ := hknows manifest enc hknown hkey
        exact hspares
      · intro peer request hmem
        obtain ⟨before, later, rfl⟩ := List.append_of_mem hmem
        have hbegins : before ++ [⟨.exchange peer request, .brokenPipe⟩] <+:
            before ++ ⟨.exchange peer request, .brokenPipe⟩ :: later := ⟨later, by simp⟩
        exact (hspares before peer request .brokenPipe hbegins).1 rfl
  | locked hknown hlocked =>
      obtain rfl := hattended.known_manifest hname hplan htext hknown
      cases hlocked.symm.trans hunwrap
  | unwritable hopen => cases hattended.writable outPath false hopen

/-- **Availability despite bad peers.** However the other peers behave, a download that is attended
to returns exactly when no answer ends the process: no request goes into a closed connection, and no
peer gives a ciphertext with a bad tag for the chunk that is due. -/
theorem getFile_returns_iff_spared (hname : upload.Named) (hplan : upload.plan = .ok plan)
    (htext : ssl.NoCollision plan.text) (hkey : upload.KeyFor cfg) {r : Except Exc Unit}
    (hreaches : (getFile ssl cfg (plan.shareUri ssl) outPath).Reaches events (Prog.ofExcept r))
    (hattended : Attended ssl plan cfg events) : r = .ok () ↔ Spares ssl events plan.enc := by
  have hfollows := (getFile_searches hattended.peers_ne).reaches hreaches
  rw [List.nil_append] at hfollows
  cases r with
  | error e =>
      have hfailed := Completed.error hfollows e rfl
      constructor
      · intro hr
        cases hr
      · intro hspares
        exact absurd hfailed (hattended.not_failed hname hplan htext hkey hspares e)
  | ok _ =>
      refine ⟨fun _ => ?_, fun _ => rfl⟩
      obtain ⟨manifest, enc, hdone⟩ := Completed.ok hfollows rfl
      obtain rfl := hattended.known_manifest hname hplan htext hdone.known
      obtain rfl : enc = plan.enc :=
        Except.ok.inj (hdone.key.symm.trans (Upload.unwrapKey_plan hplan hkey))
      exact hdone.spares

end Survival

/-- A peer that is asked first, and an honest one. -/
def twinConfig : ClientConfig :=
  { vaultConfig with peers := notePeers, peers_fit := noteConfig.peers_fit }

def twinPlan : Plan := vaultPlan (str "a") 7

def twinSsl : OpenSsl :=
  tableSsl [str "a", twinPlan.text, str "10.0.0.1:9000", str "10.0.0.2:9000"]

theorem twinUpload_plan :
    Plan.of twinSsl twinConfig (str "/home/note") (str "a") (vaultKey 7) = .ok twinPlan := by
  decide +kernel

def twinUpload : Upload twinSsl where
  cfg := twinConfig
  filePath := str "/home/note"
  content := str "a"
  fileKey := vaultKey 7
  text_fits := by
    intro plan hplan
    rw [twinUpload_plan] at hplan
    cases hplan
    decide +kernel

/-- The chunk as the upload stores it, with this last byte. -/
def storedNote (last : UInt8) : Bytes :=
  97 :: List.replicate 4 7 ++ List.replicate 11 0 ++ [last]

/-- The first peer gives these bytes for the chunk, the second what was stored. -/
def twinNetwork (first : Bytes) : Network Unit := fun peer request _ =>
  (.answered ⟨if request = PeerClient.getRequest (str "GET_MANIFEST") (twinPlan.hash twinSsl) then
      PeerService.okPayload twinPlan.text
    else PeerService.okPayload (if peer.ip = str "10.0.0.1" then first else storedNote 0),
    [], .closed⟩, ())

def twinReads (first : Bytes) : List ClientEvent :=
  (getFile twinSsl twinConfig (twinPlan.shareUri twinSsl) (str "out")).transcript
    (worldHandle (twinNetwork first)) ((), {})

def twinDownload (first : Bytes) : Except Exc Unit :=
  ((getFile twinSsl twinConfig (twinPlan.shareUri twinSsl) (str "out")).run
    (worldHandle (twinNetwork first)) ((), {})).1

theorem twin_reaches (first : Bytes) :
    (getFile twinSsl twinConfig (twinPlan.shareUri twinSsl) (str "out")).Reaches (twinReads first)
      (Prog.ofExcept (twinDownload first)) :=
  Prog.reaches_transcript _ _ _

theorem twin_keyFor : twinUpload.KeyFor twinConfig :=
  fun _ => ⟨by decide, TableSsl.keys_match _⟩

/-- The client's own disk is in no one's way. -/
def undisturbed : ClientEvent → Bool
  | ⟨.fileExists _, answer⟩ => answer = .ok false
  | ⟨.openOut _, opened⟩ => opened
  | _ => true

theorem twin_answer {first : Bytes} {peer : PeerEndpoint} {request : Bytes} {answer : Exchange}
    (hmem : ⟨.exchange peer request, answer⟩ ∈ twinReads first) :
    answer = (twinNetwork first peer request ((), {})).1 := by
  obtain ⟨s, hanswer⟩ := Prog.exists_of_mem_transcript hmem
  exact hanswer

theorem twin_attended {first : Bytes} (hlocal : ∀ event ∈ twinReads first, undisturbed event) :
    Attended twinSsl twinPlan twinConfig (twinReads first) where
  remote := fun answer hlooked => by simpa [undisturbed] using hlocal _ hlooked
  writable := fun path opened hopen => by simpa [undisturbed] using hlocal _ hopen
  finite := by
    intro peer request answer hmem
    obtain rfl := twin_answer hmem
    exact Or.inl trivial
  manifest := by
    refine ⟨⟨str "10.0.0.2", 9000⟩, by decide, fun answer hmem => ?_⟩
    obtain rfl := twin_answer hmem
    exact ⟨by decide +kernel, _, [], rfl, by simp only [↓reduceIte, List.append_nil]⟩
  chunks := by
    intro n c hc
    obtain rfl : c = str "a" := List.mem_singleton.mp (List.mem_of_getElem? hc)
    obtain ⟨hn, -⟩ := List.getElem?_eq_some_iff.mp hc
    obtain rfl : n = 0 := Nat.lt_one_iff.mp hn
    refine ⟨⟨str "10.0.0.2", 9000⟩, by decide, fun before answer hbefore _ => ?_⟩
    obtain rfl := twin_answer (mem_of_prefix_snoc hbefore)
    have hquery : PeerClient.getRequest (str "GET_CHUNK") (Crypto.sha256Hex twinSsl (str "a")) ≠
        PeerClient.getRequest (str "GET_MANIFEST") (twinPlan.hash twinSsl) := by
      decide +kernel
    have hpeer : str "10.0.0.2" ≠ str "10.0.0.1" := by decide
    exact ⟨storedNote 0, ⟨by decide, _, [], rfl, by
      simp only [hquery, hpeer, ↓reduceIte, List.append_nil]⟩, by decide +kernel⟩

/-- The last answer is no ciphertext with a bad tag. -/
def unharmed (past : List ClientEvent) : Bool :=
  match past.getLast? with
  | some ⟨.exchange _ request, answer⟩ =>
      request = manifestQuery (twinPlan.shareUri twinSsl) ||
        match PeerClient.chunkResult answer with
        | .ok encData =>
            ¬ BadTag twinSsl twinPlan.enc (UInt64.ofNat (writes past).length) encData
        | .error _ => true
  | _ => true

theorem twin_spares {first : Bytes} (hall : ∀ past ∈ (twinReads first).inits, unharmed past) :
    Spares twinSsl (twinReads first) twinPlan.enc := by
  intro before peer request answer hbegins
  constructor
  · rw [twin_answer (mem_of_prefix_snoc hbegins)]
    exact fun hpipe => by cases hpipe
  · rintro entry encData rfl hreceived
    have hlast := hall _ ((List.mem_inits _ _).mpr hbegins)
    have hother := (@manifestQuery_ne_chunkQuery (twinPlan.shareUri twinSsl) entry).symm
    rw [← writes_snoc_other before (c := .exchange peer (chunkQuery entry)) (by simp) answer]
    simpa [unharmed, hother, hreceived] using hlast

/-- The first peer gives something that is no ciphertext at all, and the second is asked. -/
theorem twin_survives : twinDownload (str "lies") = .ok () :=
  (@getFile_returns_iff_spared twinSsl twinUpload twinPlan twinConfig (twinReads (str "lies"))
    (str "out") (by decide) twinUpload_plan (TableSsl.noCollision (by decide) (by simp)) twin_keyFor
    _ (twin_reaches _) (twin_attended (by decide +kernel))).mpr (twin_spares (by decide +kernel))

/-- One bit of the nearest peer's ciphertext is flipped, and the download ends with the process,
although an honest peer has the chunk. -/
theorem tampered_copy_ends_download :
    ¬ ∀ (ssl : OpenSsl) (upload : Upload ssl) (plan : Plan) (cfg : ClientConfig) (outPath : Bytes)
        (events : List ClientEvent) (r : Except Exc Unit), upload.Named →
      upload.plan = .ok plan → ssl.NoCollision plan.text → upload.KeyFor cfg →
      (getFile ssl cfg (plan.shareUri ssl) outPath).Reaches events (Prog.ofExcept r) →
      Attended ssl plan cfg events → r = .ok () := by
  intro hall
  have hreturns := hall twinSsl twinUpload twinPlan twinConfig (str "out")
    (twinReads (storedNote 1)) (twinDownload (storedNote 1)) (by decide) twinUpload_plan
    (TableSsl.noCollision (by decide) (by simp)) twin_keyFor (twin_reaches _)
    (twin_attended (by decide +kernel))
  exact absurd hreturns (by decide +kernel)

end DecentStore
