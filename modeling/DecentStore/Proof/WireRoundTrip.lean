import DecentStore.Proof.HarmlessRequests
import DecentStore.Proof.Requests
import DecentStore.Proof.StorePaths
import DecentStore.World

/-!
# Round trips over the wire

A client stores data under an id and reads it back, against the service over a socket that cuts the
bytes at will. The id may be any word without a slash that leaves room on the line, the data any
bytes; what the store behind the service does is taken as it is, as long as it accepts the data and
evicts nothing.
-/

namespace DecentStore

open Bytes Posix FileSystem Interaction PeerService

namespace PeerClient

variable {σ : Type} {net : Network σ} {cmd id data : Bytes} {peer : PeerEndpoint} {s s' : σ}
  {disk : LocalDisk} {cuts : List Nat}

theorem run_put_ok
    (hnet : net peer (putRequest cmd id data) (s, disk) = (.answered ⟨ok, cuts, .closed⟩, s')) :
    (put cmd peer id data).run (worldHandle net) (s, disk) = (.ok (), s', disk) := by
  have hexchange : (exchange peer (putRequest cmd id data)).run (worldHandle net) (s, disk) =
      (.ok ⟨ok, cuts, .closed⟩, s', disk) := by
    unfold exchange
    rw [Prog.run_bind, Prog.run_ask]
    simp only [worldHandle, hnet]
    rfl
  unfold put
  rw [Prog.run_bind_of_ok hexchange, recvAllText_closed rfl, Prog.ofExcept_ok_bind, saysOk_ok]
  rfl

theorem run_get_ok {most : Nat} {tooLong : Exc} (hdata : data.length ≤ most)
    (hmost : most < 2 ^ 64)
    (hnet : net peer (getRequest cmd id) (s, disk) =
      (.answered ⟨okPayload data, cuts, .closed⟩, s')) :
    (get cmd most tooLong peer id).run (worldHandle net) (s, disk) = (.ok data, s', disk) := by
  have hexchange : (exchange peer (getRequest cmd id)).run (worldHandle net) (s, disk) =
      (.ok ⟨okPayload data, cuts, .closed⟩, s', disk) := by
    unfold exchange
    rw [Prog.run_bind, Prog.run_ask]
    simp only [worldHandle, hnet]
    rfl
  have hreply : readReply cmd most tooLong ⟨okPayload data, cuts, .closed⟩ = .ok data :=
    readReply_okPayload hdata hmost (List.append_nil _).symm
  unfold get
  rw [Prog.run_bind_of_ok hexchange, hreply]
  rfl

end PeerClient

section Peer

variable {o : Orders} {cuts : Cuts} {s s' : Store} {disk : LocalDisk} {cmd id data : Bytes}
  {peer : PeerEndpoint}

theorem peerNetwork_put (hcmd : Token cmd) (hid : Token id)
    (hlen : (PeerClient.putLine cmd id data).length ≤ 8192)
    (hreply : Request.reply (managed o) ⟨cmd, id, some (decimal data.length), data⟩ s =
      (.ok ok, s')) :
    peerNetwork o cuts peer (PeerClient.putRequest cmd id data) (s, disk) =
      (.answered ⟨ok, cuts.replyReceived, .closed⟩, s') := by
  unfold peerNetwork
  rw [Socket.sent_eq, serve_put (managed o) s hcmd hid hlen rfl, hreply]
  simp only [Socket.sent_eq]

theorem peerNetwork_get {reply : Bytes} (hcmd : Token cmd) (hid : Token id)
    (hlen : (PeerClient.getLine cmd id).length ≤ 8192)
    (hreply : Request.reply (managed o) ⟨cmd, id, none, []⟩ s = (.ok reply, s')) :
    peerNetwork o cuts peer (PeerClient.getRequest cmd id) (s, disk) =
      (.answered ⟨reply, cuts.replyReceived, .closed⟩, s') := by
  unfold peerNetwork
  rw [Socket.sent_eq, serve_get (managed o) s hcmd hid hlen rfl, hreply]
  simp only [Socket.sent_eq]

theorem length_getLine_le_putLine {get put : Bytes} (hcmd : get.length ≤ put.length)
    (hlen : (PeerClient.putLine put id data).length ≤ 8192) :
    (PeerClient.getLine get id).length ≤ 8192 := by
  simp only [PeerClient.putLine, PeerClient.getLine, List.length_append, List.length_cons] at hlen ⊢
  omega

end Peer

section Stored

variable {o : Orders} {s s' : Store} {id data : Bytes}

theorem baseDir_stored (sm : StorageManager) (id data : Bytes) :
    (sm.stored id data).baseDir = sm.baseDir := by
  unfold StorageManager.stored StorageManager.record
  exact StorageManager.baseDir_release sm id

/-- A chunk that is stored within the limit is recorded and is in its file. -/
theorem stored_within (hbase : (0 : UInt8) ∉ s.sm.baseDir) (hslash : (47 : UInt8) ∉ id)
    (haccepts : (managed o).storeChunk id data s = (.ok (), s'))
    (hwithin : (s.sm.stored id data).Within) :
    s'.sm = s.sm.stored id data ∧ s'.fs.read (s'.sm.chunkPath id) = .file data := by
  have hne : id ≠ [] := by
    rintro rfl
    cases haccepts
  have hpath : (s.sm.stored id data).chunkPath id = s.sm.chunkPath id := by
    simp only [StorageManager.chunkPath, StorageManager.chunksDir, baseDir_stored]
  have hmeta : (s.sm.stored id data).metaPath = s.sm.metaPath := by
    rw [StorageManager.metaPath, baseDir_stored]
    rfl
  rw [managed_storeChunk_within o hne hwithin] at haccepts
  cases htmp : s.fs.fileAt (s.sm.tmpPath id) with
  | none =>
      rw [htmp] at haccepts
      cases haccepts
  | some tmp =>
      cases htarget : s.fs.fileAt (s.sm.chunkPath id) with
      | none =>
          rw [htmp, htarget] at haccepts
          cases haccepts
      | some target =>
          rw [htmp, htarget] at haccepts
          obtain rfl : _ = s' := (Prod.mk.inj haccepts).2
          refine ⟨rfl, ?_⟩
          obtain ⟨files, hfiles, hsame⟩ := StorageManager.exists_files_afterLimit o
            (s.sm.stored id data)
            { s.fs with files := StorageManager.written s.fs.files tmp target data }
          have hother : FileSystem.fileAt
              { s.fs with files := StorageManager.written s.fs.files tmp target data }
              (s.sm.stored id data).metaPath ≠ some target := by
            rw [fileAt_files, hmeta]
            exact fun hplace => chunk_ne_metadata hbase hslash htarget hplace rfl
          have hlookup : files.lookup target = some data := by
            rw [hsame target hother, StorageManager.lookup_written, if_pos rfl]
          have htarget' := (fileAt_files s.fs files (s.sm.chunkPath id)).trans htarget
          simp only [hfiles, hpath]
          calc FileSystem.read { s.fs with files := files } (s.sm.chunkPath id)
              = (files.lookup target).elim .absent .file := read_of_fileAt htarget'
            _ = .file data := by rw [hlookup]; rfl

theorem readManifest_written (haccepts : (managed o).writeManifest id data s = (true, s')) :
    s'.sm = s.sm ∧ ∀ o', (managed o').readManifest id s' = .ok (some data) := by
  rw [managed_writeManifest] at haccepts
  cases hpath : s.fs.fileAt (manifestPath s id) with
  | none =>
      rw [hpath] at haccepts
      cases haccepts
  | some path =>
      rw [hpath] at haccepts
      obtain rfl : _ = s' := (Prod.mk.inj haccepts).2
      have hpath' := (fileAt_files s.fs (s.fs.files.insert path data) _).trans hpath
      have hread : FileSystem.read { s.fs with files := s.fs.files.insert path data }
          (manifestPath s id) = .file data :=
        calc FileSystem.read { s.fs with files := s.fs.files.insert path data } (manifestPath s id)
            = ((s.fs.files.insert path data).lookup path).elim .absent .file :=
              read_of_fileAt hpath'
          _ = .file data := by rw [AList.lookup_insert]; rfl
      refine ⟨rfl, fun o' => ?_⟩
      change StorageManager.fileBuffer _ _ (FileSystem.read _ (manifestPath s id)) = _
      rw [hread]
      rfl

end Stored

section RoundTrip

variable {o o' : Orders} {cuts cuts' : Cuts} {s s' : Store} {disk : LocalDisk} {id data : Bytes}
  (peer : PeerEndpoint)

theorem chunk_round_trip (hbase : (0 : UInt8) ∉ s.sm.baseDir) (hid : Token id)
    (hslash : (47 : UInt8) ∉ id)
    (hlen : (PeerClient.putLine (str "PUT_CHUNK") id data).length ≤ 8192)
    (hdata : data.length ≤ maxSize)
    (haccepts : (managed o).storeChunk id data s = (.ok (), s'))
    (hwithin : (s.sm.stored id data).Within) :
    (PeerClient.putChunk peer id data).run (worldHandle (peerNetwork o cuts)) (s, disk) =
        (.ok (), s', disk) ∧
      s'.fs.read (s'.sm.chunkPath id) = .file data ∧ s'.sm = s.sm.stored id data ∧
      ((PeerClient.getChunk peer id).run (worldHandle (peerNetwork o' cuts')) (s', disk)).1 =
        .ok data := by
  obtain ⟨hbooks, hread⟩ := stored_within hbase hslash haccepts hwithin
  refine ⟨PeerClient.run_put_ok (peerNetwork_put (by decide) hid hlen ?_), hread, hbooks, ?_⟩
  · have hstores : Request.stores (managed o) id data s = (true, s') := by
      rw [Request.stores, haccepts]
    rw [Request.reply_putChunk _ rfl, Request.putReply_of_payload (payload_put hdata), hstores]
    rfl
  · have hload := managed_loadChunk_of_file o' hread
    have hreply : Request.reply (managed o') ⟨str "GET_CHUNK", id, none, []⟩ s' =
        (.ok (okPayload data), ⟨s'.sm.touch id, (s'.sm.touch id).saved o' s'.fs⟩) := by
      rw [Request.reply_getChunk _ rfl, hload]
      rfl
    have hline := length_getLine_le_putLine (by decide : (str "GET_CHUNK").length ≤ _) hlen
    rw [PeerClient.getChunk, PeerClient.run_get_ok hdata (by decide)
      (peerNetwork_get (by decide) hid hline hreply)]

theorem manifest_round_trip (hid : Token id)
    (hlen : (PeerClient.putLine (str "PUT_MANIFEST") id data).length ≤ 8192)
    (hdata : data.length < maxSize)
    (haccepts : (managed o).writeManifest id data s = (true, s')) :
    (PeerClient.putManifest peer id data).run (worldHandle (peerNetwork o cuts)) (s, disk) =
        (.ok (), s', disk) ∧
      (managed o).readManifest id s' = .ok (some data) ∧ s'.sm = s.sm ∧
      ((PeerClient.getManifest peer id).run (worldHandle (peerNetwork o' cuts')) (s', disk)).1 =
        .ok data := by
  obtain ⟨hbooks, hread⟩ := readManifest_written haccepts
  refine ⟨PeerClient.run_put_ok (peerNetwork_put (by decide) hid hlen ?_), hread o, hbooks, ?_⟩
  · rw [Request.reply_putManifest _ rfl, Request.putReply_of_payload (payload_put hdata.le),
      haccepts]
    rfl
  · have hreply : Request.reply (managed o') ⟨str "GET_MANIFEST", id, none, []⟩ s' =
        (.ok (okPayload data), s') := by
      rw [Request.reply_getManifest _ rfl, hread o']
      rfl
    have hline := length_getLine_le_putLine (by decide : (str "GET_MANIFEST").length ≤ _) hlen
    rw [PeerClient.getManifest, PeerClient.run_get_ok (Nat.le_sub_one_of_lt hdata) (by decide)
      (peerNetwork_get (by decide) hid hline hreply)]

end RoundTrip

/-- **The wire round trip.** However the bytes are cut on the way, a chunk that the store accepts
within its limit is stored as it was sent and read back, and so is a manifest. -/
theorem wire_round_trip {s : Store} (hbase : (0 : UInt8) ∉ s.sm.baseDir) {id : Bytes}
    (hid : Token id) (hslash : (47 : UInt8) ∉ id) (o o' : Orders) (cuts cuts' : Cuts)
    (disk : LocalDisk) (peer : PeerEndpoint) (data : Bytes) (s' : Store) :
    ((PeerClient.putLine (str "PUT_CHUNK") id data).length ≤ 8192 → data.length ≤ maxSize →
      (managed o).storeChunk id data s = (.ok (), s') → (s.sm.stored id data).Within →
        (PeerClient.putChunk peer id data).run (worldHandle (peerNetwork o cuts)) (s, disk) =
            (.ok (), s', disk) ∧
          s'.fs.read (s'.sm.chunkPath id) = .file data ∧ s'.sm = s.sm.stored id data ∧
          ((PeerClient.getChunk peer id).run (worldHandle (peerNetwork o' cuts')) (s', disk)).1 =
            .ok data) ∧
    ((PeerClient.putLine (str "PUT_MANIFEST") id data).length ≤ 8192 → data.length < maxSize →
      (managed o).writeManifest id data s = (true, s') →
        (PeerClient.putManifest peer id data).run (worldHandle (peerNetwork o cuts)) (s, disk) =
            (.ok (), s', disk) ∧
          (managed o).readManifest id s' = .ok (some data) ∧ s'.sm = s.sm ∧
          ((PeerClient.getManifest peer id).run (worldHandle (peerNetwork o' cuts'))
            (s', disk)).1 = .ok data) :=
  ⟨fun hlen hdata haccepts hwithin =>
      chunk_round_trip peer hbase hid hslash hlen hdata haccepts hwithin,
    fun hlen hdata haccepts => manifest_round_trip peer hid hlen hdata haccepts⟩

/-- Two lines in pieces of one and two bytes. -/
theorem two_lines_round_trip :
    ((PeerClient.putChunk ⟨str "10.0.0.1", 9000⟩ (str "x") (str "a\nb")).run
      (worldHandle (peerNetwork default { requestSent := [1, 2], requestReceived := [2] }))
      (Service.newService.store, {})).1 = .ok () := by
  have haccepts : ((managed default).storeChunk (str "x") (str "a\nb")
      Service.newService.store).1 = .ok () := by
    decide +kernel
  have hround := (@wire_round_trip Service.newService.store (by decide +kernel) (str "x")
    (by decide) (by decide) default default { requestSent := [1, 2], requestReceived := [2] } {} {}
    ⟨str "10.0.0.1", 9000⟩ (str "a\nb") _).1 (by decide) (by decide) (Prod.ext haccepts rfl)
    (Or.inr (by decide +kernel))
  rw [hround.1]

end DecentStore
