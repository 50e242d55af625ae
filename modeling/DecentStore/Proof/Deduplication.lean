import DecentStore.Proof.SentRequests

/-!
# What is not uploaded again

A plaintext upload asks each target of a chunk whether it has the chunk, and sends it to those only
that have not said so. Peers that keep what they have say so as long as they run, so a chunk goes to
no peer that had it when the upload began, and of a file that shares chunks with an earlier one only
the others are sent.
-/

namespace DecentStore

open Bytes Posix FileSystem Interaction PeerService DssClient

namespace Peers

variable {ssl : OpenSsl} {dirs : PeerEndpoint → Path} {disks : PeerEndpoint → FileSystem}
  {orders : Peers → PeerEndpoint → Bytes → Orders} {refused : Exc} {segments : Cluster.Segments}
  {ι : Type} [DecidableEq ι] {uploads : ι → Upload ssl}

theorem saysHas_of_has {s : Cluster × LocalDisk} {peer : PeerEndpoint} {id : Bytes}
    (hid : IsHashHex id) (hhas : s.1.Has peer id) :
    (Cluster.network segments peer (PeerClient.getRequest (str "HAS_CHUNK") id) s).1.SaysHas := by
  have hfound : ((s.1 peer).chunks id).isSome = true := hhas
  rw [Cluster.network_hasChunk segments peer s hid, if_pos hfound]
  exact ⟨_, PeerClient.recvLine_ok rfl, PeerClient.saysOk_line⟩

theorem Settled.hasChunk {peers : Peers} {cluster : Cluster}
    (settled : Settled dirs disks peers cluster) (peer : PeerEndpoint) (id : Bytes) :
    (peers peer).store.sm.hasChunk id = ((cluster peer).chunks id).isSome := by
  obtain ⟨past, mirrors⟩ := (settled peer).mirrors
  rw [StorageManager.hasChunk, Bool.eq_iff_iff, AList.lookup_isSome]
  exact mirrors.resident id

section Ideal

variable {ideal later : Pool Call.Reply Exc PutFileResult Cluster LocalDisk ι}
  (hall : Pool.AllHold (worldHandle (Cluster.network segments)) (Cluster.Grows ssl)
    (fun i => SpreadBy (uploads i)) ideal)

include hall

/-- No peer is asked in vain for what it had before. -/
theorem not_has_of_asked {i : ι} {events : List ClientEvent}
    (hmet : ∀ event ∈ events,
      Pool.Met (worldHandle (Cluster.network segments)) ideal later i event)
    {peer : PeerEndpoint} {id : Bytes} (hid : IsHashHex id)
    (hasked : AskedInVain events peer id) : ¬ ideal.shared.Has peer id := by
  intro hhas
  obtain ⟨answer, hevent, hnot⟩ := hasked
  obtain ⟨mid, hbefore, -, hanswer⟩ := hmet _ hevent
  have hstable : ∀ i r s s', Pool.Others (Cluster.Grows ssl) s s' → SpreadBy (uploads i) r s →
      SpreadBy (uploads i) r s' := fun _ _ _ _ hothers hspread => hspread.stable hothers
  have hgrows := (Pool.holds_of_reachable Cluster.Grows.refl (fun _ _ _ => Cluster.Grows.trans)
    hstable hbefore hall).1
  change answer = (Cluster.network segments peer _ _).1 at hanswer
  rw [hanswer] at hnot
  exact hnot (saysHas_of_has hid (hgrows.chunks peer id hhas))

/-- What an upload sends was missing when it began. -/
theorem sent_was_missing {j : ι} (hplain : (uploads j).cfg.rsaPublicKeyPath = [])
    (hbegins : (ideal.procs j).1 = (uploads j).putFile)
    (hlater : Pool.Reachable (worldHandle (Cluster.network segments)) ideal later)
    {peer : PeerEndpoint} {request : Bytes}
    (hcall : (later.procs j).1.nextCall = some (.exchange peer request))
    (hput : str "PUT_CHUNK" <+: request) :
    ∃ plan, (uploads j).plan = .ok plan ∧ ∃ data ∈ plan.chunks,
      request = chunkRequest ssl data data ∧
      peer ∈ (uploads j).targets (Crypto.sha256Hex ssl data) ∧
      ¬ ideal.shared.Has peer (Crypto.sha256Hex ssl data) := by
  obtain ⟨events, hreaches, hmet⟩ := hlater.history j
  obtain ⟨next, hnext⟩ := Prog.call_of_nextCall hcall
  rw [hbegins, hnext] at hreaches
  obtain ⟨plan, hplan, hsends⟩ := putFile_sends hreaches
  have henc := Upload.plan_plaintext hplan hplain
  cases hsends peer request rfl with
  | question c => exact absurd hput (not_begins (begins_get _ _) (by decide) (by decide))
  | manifest => exact absurd hput (not_begins (begins_put _ _ _) (by decide) (by decide))
  | @chunk n data touch hdata htouch hpeer hasked =>
      rw [henc] at htouch
      obtain rfl : Touch.fill data = touch := Except.ok.inj htouch
      exact ⟨plan, hplan, data, List.mem_of_getElem? hdata, rfl, hpeer,
        not_has_of_asked hall hmet (Crypto.sha256Hex_isHashHex ssl data) (hasked henc)⟩

end Ideal

section Turns

variable {bases : PeerEndpoint → Bytes}
  (empty : ∀ peer, EmptyDir (bases peer) (dirs peer) (disks peer))
  (started : PeerEndpoint → Orders) (limits : PeerEndpoint → UInt64)
  (hplain : ∀ i, (uploads i).cfg.rsaPublicKeyPath = []) (own : ι → LocalDisk)
  {pool later : Pool Call.Reply Exc PutFileResult Peers LocalDisk ι}
  (hturns : Pool.Turns (worldHandle (network orders refused segments)) Proper Restarts
    ⟨start started bases limits disks, fun i => ((uploads i).putFile, own i)⟩ pool)
  (hlater : Pool.Turns (worldHandle (network orders refused segments)) Proper Restarts pool later)
  {j : ι} (hbegins : (pool.procs j).1 = (uploads j).putFile)
  {peer : PeerEndpoint} {request : Bytes}
  (hcall : (later.procs j).1.nextCall = some (.exchange peer request))
  (hput : str "PUT_CHUNK" <+: request)

include empty hturns hlater in
/-- The peers are ideal ones in both states. -/
theorem ideal_of_later :
    ∃ ideal ideal', Pool.Reachable (worldHandle (Cluster.network segments))
        (uploadPool uploads own) ideal ∧
      Pool.Alike (Settled dirs disks) pool ideal ∧
      Pool.Reachable (worldHandle (Cluster.network segments)) ideal ideal' ∧
      ideal'.procs = later.procs := by
  obtain ⟨ideal, hreach, halike⟩ := ideal_of_turns empty started limits own hturns
  obtain ⟨ideal', hreach', -, hprocs⟩ := Pool.Turns.simulated
    (network_simulates orders refused segments dirs disks)
    (fun _ _ _ hrestarts settled => settled.restarts hrestarts) hlater halike
  exact ⟨ideal, ideal', hreach, halike, hreach', hprocs⟩

include empty hplain hturns hlater hbegins hcall hput

/-- **A chunk is sent only to peers that lack it.** Clients upload in plaintext to peers with disks,
all at the same time, and peers are restarted. When an upload that begins in some state of that has
come to send a chunk, it is a chunk of its file, for one of its targets, and in that state the peer
did not have it. -/
theorem uploads_send_what_is_missing :
    ∃ plan, (uploads j).plan = .ok plan ∧ ∃ data ∈ plan.chunks,
      request = chunkRequest ssl data data ∧
      peer ∈ (uploads j).targets (Crypto.sha256Hex ssl data) ∧
      (pool.shared peer).store.sm.hasChunk (Crypto.sha256Hex ssl data) = false := by
  obtain ⟨ideal, ideal', hreach, halike, hreach', hprocs⟩ :=
    ideal_of_later empty started limits own hturns hlater
  rw [← halike.procs] at hbegins
  rw [← hprocs] at hcall
  obtain ⟨plan, hplan, data, hdata, hrequest, hpeer, hmissing⟩ :=
    sent_was_missing (uploadPool_spreads hplain own hreach).2 (hplain j) hbegins hreach' hcall hput
  refine ⟨plan, hplan, data, hdata, hrequest, hpeer, ?_⟩
  rw [halike.shared.hasChunk]
  exact Bool.eq_false_iff.mpr hmissing

/-- **Chunks that two files share are sent once.** When an upload begins after another one with the
same peers and as many replicas has returned, it sends only chunks that the other file does not
have. -/
theorem shared_chunks_stay {i : ι} {result : PutFileResult}
    (hreturned : (pool.procs i).1 = .pure result)
    (hpeers : (uploads j).cfg.peers = (uploads i).cfg.peers)
    (hreplicas : (uploads j).cfg.desiredReplicas = (uploads i).cfg.desiredReplicas) :
    ∃ plan plan', (uploads i).plan = .ok plan ∧ (uploads j).plan = .ok plan' ∧
      ∃ data ∈ plan'.chunks, data ∉ plan.chunks ∧ request = chunkRequest ssl data data := by
  obtain ⟨ideal, ideal', hreach, halike, hreach', hprocs⟩ :=
    ideal_of_later empty started limits own hturns hlater
  rw [← halike.procs] at hbegins hreturned
  rw [← hprocs] at hcall
  have hall := (uploadPool_spreads hplain own hreach).2
  obtain ⟨plan', hplan', data, hdata, hrequest, hpeer, hmissing⟩ :=
    sent_was_missing hall (hplain j) hbegins hreach' hcall hput
  have hdone := hall i
  rw [hreturned] at hdone
  obtain ⟨plan, hplan, -, hspread⟩ := hdone result rfl
  refine ⟨plan, plan', hplan, hplan', data, hdata, fun hshared => hmissing ?_, hrequest⟩
  refine hspread.chunks data hshared peer ?_
  have htargets : (uploads j).targets = (uploads i).targets := by
    funext key
    simp only [Upload.targets, clampReplicas, hpeers, hreplicas]
  rwa [htargets] at hpeer

end Turns

def editedPlan : Plan :=
  { manifest :=
      { originalName := str "note", originalSize := 3, chunkSize := 2
        chunks := [⟨List.replicate 64 48⟩, ⟨str "05" ++ List.replicate 62 48⟩] }
    enc := none
    chunks := [str "hi", str "?"] }

theorem editedUpload_plan :
    Plan.of spareSsl spareConfig (str "/home/note") (str "hi?") noteKey = .ok editedPlan := by
  decide +kernel

/-- The note with another ending. -/
def editedUpload : Upload spareSsl where
  cfg := spareConfig
  filePath := str "/home/note"
  content := str "hi?"
  fileKey := noteKey
  text_fits := by
    intro plan hplan
    rw [editedUpload_plan] at hplan
    cases hplan
    decide +kernel

def editedUploads (first : Bool) : Upload spareSsl := if first then spareUpload else editedUpload

def editedStart : Pool Call.Reply Exc PutFileResult Peers LocalDisk Bool :=
  ⟨spareStart.shared, fun first => ((editedUploads first).putFile, {})⟩

/-- The note is uploaded, and the other upload has not begun. -/
def editedPool : Pool Call.Reply Exc PutFileResult Peers LocalDisk Bool :=
  { shared := spareRun.2.1
    procs := Function.update editedStart.procs true (Prog.ofExcept spareRun.1, spareRun.2.2) }

/-- The other upload has asked both peers for both of its chunks. -/
def editedLater : Pool Call.Reply Exc PutFileResult Peers LocalDisk Bool :=
  editedPool.advanced (worldHandle plainNetwork) false 4

theorem editedPool_turns :
    Pool.Turns (worldHandle plainNetwork) Proper Restarts editedStart editedPool := by
  have hproc : editedStart.procs true = spareStart.procs true := rfl
  have hshared : editedStart.shared = spareStart.shared := rfl
  have hturns := @Pool.turns_run _ _ _ _ _ _ _ _ (worldHandle plainNetwork) Proper Restarts
    editedStart true (by rw [hproc]; exact spareRun_allowed)
  rw [hproc, hshared] at hturns
  unfold editedPool spareRun
  exact hturns

theorem editedRun_allowed : (editedPool.procs false).1.Allowed (worldHandle plainNetwork) Proper
    (editedPool.shared, (editedPool.procs false).2) := by
  decide +kernel

theorem editedLater_turns :
    Pool.Turns (worldHandle plainNetwork) Proper Restarts editedPool editedLater :=
  Pool.turns_advanced editedPool false 4 editedRun_allowed

theorem editedPool_returned : (editedPool.procs true).1 = .pure ⟨notePlan.shareUri spareSsl,
    str "manifests/note.manifest.txt"⟩ := by
  simp only [editedPool, Function.update_self, spareRun_returns]
  rfl

theorem editedPool_begins : (editedPool.procs false).1 = (editedUploads false).putFile := by
  simp only [editedPool, Function.update_of_ne Bool.false_ne_true]
  rfl

deriving instance DecidableEq for Call

theorem editedLater_sends : (editedLater.procs false).1.nextCall =
    some (.exchange ⟨str "10.0.0.1", 9000⟩ (chunkRequest spareSsl (str "?") (str "?"))) := by
  decide +kernel

theorem edited_sends_missing : ∃ plan, editedUpload.plan = .ok plan ∧ ∃ data ∈ plan.chunks,
    chunkRequest spareSsl (str "?") (str "?") = chunkRequest spareSsl data data ∧
      ⟨str "10.0.0.1", 9000⟩ ∈ editedUpload.targets (Crypto.sha256Hex spareSsl data) ∧
      (editedPool.shared ⟨str "10.0.0.1", 9000⟩).store.sm.hasChunk
        (Crypto.sha256Hex spareSsl data) = false :=
  @uploads_send_what_is_missing spareSsl (fun _ => [str "peer"]) (fun _ => bareDisk) _ _ {} Bool _
    editedUploads (fun _ => str "/peer") (fun _ => bareDisk_empty) (fun _ => default)
    (fun _ => 100) (fun first => by cases first <;> rfl) (fun _ => {}) editedPool editedLater
    editedPool_turns editedLater_turns false editedPool_begins _ _ editedLater_sends
    (by decide +kernel)

theorem edited_shares : ∃ plan plan', spareUpload.plan = .ok plan ∧ editedUpload.plan = .ok plan' ∧
    ∃ data ∈ plan'.chunks, data ∉ plan.chunks ∧
      chunkRequest spareSsl (str "?") (str "?") = chunkRequest spareSsl data data :=
  @shared_chunks_stay spareSsl (fun _ => [str "peer"]) (fun _ => bareDisk) _ _ {} Bool _
    editedUploads (fun _ => str "/peer") (fun _ => bareDisk_empty) (fun _ => default)
    (fun _ => 100) (fun first => by cases first <;> rfl) (fun _ => {}) editedPool editedLater
    editedPool_turns editedLater_turns false editedPool_begins _ _ editedLater_sends
    (by decide +kernel) true _ editedPool_returned rfl rfl

end Peers

end DecentStore
