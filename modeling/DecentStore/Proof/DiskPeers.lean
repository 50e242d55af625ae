import DecentStore.Lib.Simulation
import DecentStore.Proof.NameSpaces
import DecentStore.Proof.RestartLoss
import DecentStore.World

/-!
# Peers with disks

A peer whose requests carry hashes, whose memory has room for what they bring and ask for, and whose
chunks stay within its limit, is a peer with an ideal store: its files are those of the store, its
metadata is in step with them, and so it survives a restart with everything it has. A cluster of
such peers cannot be told from a cluster of ideal ones by any clients, whatever they do at the same
time and whichever peers are restarted meanwhile.
-/

namespace DecentStore

open Bytes Posix FileSystem Interaction PeerService

/-! ### Proper requests -/

namespace PeerService

/-- A request that a peer serves as an ideal store does: the id is a hash, there is memory for the
payload and for the files of the id, and a chunk that arrives is within the limit. -/
structure Request.Proper [Memory] (r : Request) (s : Store) : Prop where
  hash : IsHashHex r.id
  size : r.IsPut → Allocates maxSize r.size
  chunk : Memory.holds (s.fs.read (s.sm.chunkPath r.id)).length = true
  manifest : Memory.holds ((s.fs.read (manifestPath s r.id)).length + 1) = true
  room : r.cmd = str "PUT_CHUNK" → ∀ data, r.payload = .ok (some data) →
    (s.sm.stored r.id data).Within

def Proper [Memory] (s : Store) (bytes : Bytes) : Prop :=
  ∀ r, Request.ofBytes bytes = some r → r.Proper s

theorem Request.proper_iff [Memory] (r : Request) (s : Store) :
    r.Proper s ↔ IsHashHex r.id ∧
      ((r.cmd = str "PUT_CHUNK" ∨ r.cmd = str "PUT_MANIFEST") → Allocates maxSize r.size) ∧
      Memory.holds (s.fs.read (s.sm.chunkPath r.id)).length = true ∧
      Memory.holds ((s.fs.read (manifestPath s r.id)).length + 1) = true ∧
      (r.cmd = str "PUT_CHUNK" → ∀ data ∈ r.payload.toOption.join,
        (s.sm.stored r.id data).maxBytes = 0 ∨
          (s.sm.stored r.id data).usedBytes ≤ (s.sm.stored r.id data).maxBytes) := by
  have hpayload : ∀ data, r.payload = .ok (some data) ↔ data ∈ r.payload.toOption.join := by
    intro data
    rcases r.payload with e | (_ | found) <;> simp [Except.toOption]
  constructor
  · rintro ⟨hid, hsize, hchunk, hmanifest, hroom⟩
    exact ⟨hid, hsize, hchunk, hmanifest, fun hcmd data hdata =>
      hroom hcmd data ((hpayload data).mpr hdata)⟩
  · rintro ⟨hid, hsize, hchunk, hmanifest, hroom⟩
    exact ⟨hid, hsize, hchunk, hmanifest, fun hcmd data hdata =>
      hroom hcmd data ((hpayload data).mp hdata)⟩

instance [Memory] (r : Request) (s : Store) : Decidable (r.Proper s) :=
  decidable_of_iff _ (r.proper_iff s).symm

instance [Memory] (s : Store) (bytes : Bytes) : Decidable (Proper s bytes) :=
  inferInstanceAs (Decidable (∀ r, Request.ofBytes bytes = some r → r.Proper s))

theorem Request.payload_of_size [Memory] {r : Request} (hsize : Allocates maxSize r.size) :
    r.payload = .ok (if r.size ≤ r.rest.length then some (r.rest.take r.size) else none) := by
  rw [Request.payload, allocate_ok _ hsize]
  rfl

/-- Where there is room for what a request needs, more changes nothing. -/
theorem Request.payload_ample [Memory] {r : Request} (hsize : Allocates maxSize r.size) :
    r.payload = @Request.payload ampleMemory r := by
  rw [payload_of_size hsize, @payload_of_size ampleMemory r (allocates_ample.mpr hsize.1)]

theorem Request.Proper.ample [Memory] {r : Request} {s : Store} (proper : r.Proper s) :
    @Request.Proper ampleMemory r s :=
  @Request.Proper.mk ampleMemory r s proper.hash
    (fun hput => allocates_ample.mpr (proper.size hput).1) rfl rfl fun hcmd data hdata =>
      proper.room hcmd data ((payload_ample (proper.size (Or.inl hcmd))).trans hdata)

theorem Request.putReply_of_none {σ : Type} {r : Request} (hpayload : r.payload = .ok none)
    (put : Bytes → σ → Bool × σ) (s : σ) : r.putReply put s = (.ok err, s) := by
  rw [Request.putReply, hpayload]

end PeerService

namespace IdealStore

variable {r : Request} {data : Bytes}

theorem stores_operations (hid : r.id ≠ []) (data : Bytes) (t : IdealStore) :
    Request.stores operations r.id data t = (true, t.putChunk r.id data) := by
  simp only [Request.stores, operations, if_neg hid]

theorem loadChunk_after (id : Bytes) (t : IdealStore) : (operations.loadChunk id t).2 = t := by
  simp only [operations]
  cases t.chunks id <;> rfl

/-- The ideal store does what it is told by its own replies. -/
theorem reply_after (hid : r.id ≠ []) (t : IdealStore) :
    (r.reply operations t).2 = t.after r (r.reply operations t).1 := by
  by_cases hputChunk : r.cmd = str "PUT_CHUNK"
  · rw [Request.reply_putChunk _ hputChunk]
    rcases hpayload : r.payload with e | (_ | data)
    · rw [Request.putReply, hpayload, after_of_payload (by simp [hpayload])]
    · rw [Request.putReply_of_none hpayload, after_of_payload (by simp [hpayload])]
    · rw [Request.putReply_of_payload hpayload, after_putChunk hputChunk hpayload,
        stores_operations hid]
      rfl
  by_cases hputManifest : r.cmd = str "PUT_MANIFEST"
  · rw [Request.reply_putManifest _ hputManifest]
    rcases hpayload : r.payload with e | (_ | data)
    · rw [Request.putReply, hpayload, after_of_payload (by simp [hpayload])]
    · rw [Request.putReply_of_none hpayload, after_of_payload (by simp [hpayload])]
    · rw [Request.putReply_of_payload hpayload, after_putManifest hputManifest hpayload]
      rfl
  rw [after_of_not_put (not_or.mpr ⟨hputChunk, hputManifest⟩), Request.reply, if_neg hputChunk]
  by_cases hgetChunk : r.cmd = str "GET_CHUNK"
  · rw [if_pos hgetChunk]
    exact loadChunk_after r.id t
  · rw [if_neg hgetChunk, if_neg hputManifest]
    split_ifs <;> rfl

/-- The ideal store answers whatever fits a buffer. -/
theorem reply_ok (hsize : r.IsPut → Allocates maxSize r.size) (t : IdealStore) :
    ∃ bytes, (r.reply operations t).1 = .ok bytes := by
  by_cases hput : r.IsPut
  · obtain ⟨payload, hpayload⟩ : ∃ payload, r.payload = .ok payload :=
      ⟨_, Request.payload_of_size (hsize hput)⟩
    rcases hput with hcmd | hcmd
    · rw [Request.reply_putChunk _ hcmd]
      cases payload with
      | none => exact ⟨_, by rw [Request.putReply_of_none hpayload]⟩
      | some data => exact ⟨_, by rw [Request.putReply_of_payload hpayload]⟩
    · rw [Request.reply_putManifest _ hcmd]
      cases payload with
      | none => exact ⟨_, by rw [Request.putReply_of_none hpayload]⟩
      | some data => exact ⟨_, by rw [Request.putReply_of_payload hpayload]⟩
  · obtain ⟨hputChunk, hputManifest⟩ := not_or.mp hput
    have hget : ∀ found : Option Bytes, ∃ bytes, Request.getReply (.ok found) = .ok bytes := by
      rintro (_ | data)
      · exact ⟨_, rfl⟩
      · exact ⟨_, rfl⟩
    rw [Request.reply, if_neg hputChunk, if_neg hputManifest]
    split_ifs <;> first | exact ⟨_, rfl⟩ | exact hget _

theorem chunks_after {t : IdealStore} {reply : Except Exc Bytes} {id : Bytes}
    (hid : ((t.after r reply).chunks id).isSome) : id = r.id ∨ (t.chunks id).isSome := by
  by_cases hsame : id = r.id
  · exact Or.inl hsame
  · refine Or.inr ?_
    unfold after at hid
    split at hid
    · split_ifs at hid
      · simpa [putChunk, Function.update_of_ne hsame] using hid
      · exact hid
      · exact hid
    · exact hid

end IdealStore

/-! ### A peer that keeps what it has -/

/-- A service over a store that is an ideal store, whose chunks are named by hashes and whose
metadata, if there is a limit, is up to date. -/
structure Settled (dir : Path) (fs₀ : FileSystem) (p : Service) (t : IdealStore) : Prop where
  running : p.running = true
  mirrors : ∃ past, Mirrors dir fs₀ past p.store t
  hashed : ∀ id, (t.chunks id).isSome → IsHashHex id
  records : p.store.sm.maxBytes ≠ 0 → (diskOf dir p.store.fs).Records p.store.sm

theorem records_saved {sm : StorageManager} {dir : Path} {fs : FileSystem}
    (layout : Layout sm.baseDir dir fs) (o : Orders) : (diskOf dir (sm.saved o fs)).Records sm := by
  rw [saved_eq layout]
  exact ⟨_, o.metaMap.perm _, AList.lookup_insert _⟩

theorem records_afterLimit {sm : StorageManager} {dir : Path} {fs : FileSystem}
    (layout : Layout sm.baseDir dir fs) (o : Orders) (hlimit : sm.maxBytes ≠ 0) :
    (diskOf dir (sm.afterLimit o fs)).Records sm := by
  rw [StorageManager.afterLimit, if_neg hlimit]
  exact records_saved layout o

/-- A new object on a directory whose metadata is up to date finds the books and writes nothing. -/
theorem boot_of_records (o : Orders) {base : Bytes} {dir : Path} {fs : FileSystem}
    {sm : StorageManager} (layout : Layout base dir fs) (hnamed : sm.Named)
    (hrecords : (diskOf dir fs).Records sm) (maxBytes : UInt64) :
    ∃ sm', Store.boot o base maxBytes fs = (.done, ⟨sm', fs⟩) ∧ SameBooks sm sm' ∧
      sm'.baseDir = base := by
  obtain ⟨entries, hperm, htext⟩ := hrecords
  have hids : ∀ e ∈ entries, Token e.1 := fun e he =>
    (hnamed e.1 (MetaMap.fst_mem (hperm.subset he))).token
  have hnodup : (entries.map Sigma.fst).Nodup :=
    (hperm.map Sigma.fst).nodup_iff.mpr sm.metaMap.keys_nodup
  obtain ⟨metaMap, hmap, hparse⟩ := parseMetadata_metadataOf (.fresh base maxBytes)
    sm.accessCounter sm.usedBytes hids hnodup
  have hread : fs.read (StorageManager.fresh base maxBytes).metaPath =
      (diskOf dir fs).metadata.elim .absent .file :=
    read_of_resolve layout.resolve_metadata layout.not_blocked_metadata
  let found : StorageManager := ⟨base, maxBytes, sm.usedBytes, sm.accessCounter, metaMap⟩
  refine ⟨found, ?_, ⟨hmap.trans hperm, rfl, rfl⟩, rfl⟩
  have hrun : (StorageManager.init o (.fresh base maxBytes)).run FileSystem.handle fs =
      (.ok found, fs) := by
    rw [StorageManager.run_init, StorageManager.createDirectories_of_layout layout,
      StorageManager.loadMetadata, Prog.run_bind_of_ok (Fs.run_read _ _), hread, htext]
    simp only [Option.elim_some, hparse]
    rfl
  change Store.exec (StorageManager.init o (.fresh base maxBytes)) fs = _
  rw [Store.exec, hrun]

namespace Settled

variable {dir : Path} {fs₀ : FileSystem} {p : Service} {t : IdealStore} {r : Request} {o : Orders}

theorem start (o : Orders) {base : Bytes} {fs : FileSystem} (empty : EmptyDir base dir fs)
    (maxBytes : UInt64) : Settled dir fs (.start o base maxBytes fs) {} where
  running := rfl
  mirrors := ⟨_, mirrors_start o empty maxBytes⟩
  hashed := fun id hid => by cases hid
  records := fun _ => by
    rw [Service.start, boot_of_empty o empty]
    exact records_saved empty.layout o

/-- No chunk has a temporary name. -/
theorem tidy (settled : Settled dir fs₀ p t) (proper : r.Proper p.store) : r.Tidy p.store := by
  obtain ⟨past, mirrors⟩ := settled.mirrors
  have hplain := proper.hash.plainName
  refine ⟨fun hcmd data hdata => ⟨fun tmp htmp => ⟨?_, Or.inl hplain⟩, proper.room hcmd data hdata⟩,
    fun _ => Or.inl hplain, fun _ => Or.inl hplain, fun _ => Or.inl hplain⟩
  obtain rfl : chunkAt dir (r.id ++ str ".tmp") = tmp :=
    Option.some_injective _ ((fileAt_tmpPath mirrors.layout hplain).symm.trans htmp)
  rw [mirrors.chunk]
  by_contra hsome
  exact proper.hash.ne_tmp (settled.hashed _ (Option.isSome_iff_ne_none.mpr hsome)) rfl

/-- A chunk within the limit is stored under its name. -/
theorem storeChunk_eq (settled : Settled dir fs₀ p t) (proper : r.Proper p.store) {data : Bytes}
    (hcmd : r.cmd = str "PUT_CHUNK") (hdata : r.payload = .ok (some data)) :
    (managed o).storeChunk r.id data p.store =
      (.ok (), ⟨p.store.sm.stored r.id data, (p.store.sm.stored r.id data).afterLimit o
        { p.store.fs with
          files := StorageManager.written p.store.fs.files (chunkAt dir (r.id ++ str ".tmp"))
            (chunkAt dir r.id) data }⟩) := by
  obtain ⟨past, mirrors⟩ := settled.mirrors
  rw [managed_storeChunk_within o proper.hash.ne_nil (proper.room hcmd data hdata),
    fileAt_tmpPath mirrors.layout proper.hash.plainName,
    fileAt_chunkPath mirrors.layout proper.hash.plainName]

theorem writeManifest_eq (settled : Settled dir fs₀ p t) (proper : r.Proper p.store)
    (data : Bytes) :
    (managed o).writeManifest r.id data p.store = (true, ⟨p.store.sm, { p.store.fs with
      files := p.store.fs.files.insert (manifestAt dir r.id) data }⟩) := by
  obtain ⟨past, mirrors⟩ := settled.mirrors
  rw [managed_writeManifest, fileAt_manifestPath mirrors.layout proper.hash.plainName]

/-- **A proper request is answered as the ideal store answers it.** -/
theorem answers (settled : Settled dir fs₀ p t) (o : Orders) (proper : r.Proper p.store) :
    (r.reply (managed o) p.store).1 = (r.reply IdealStore.operations t).1 := by
  obtain ⟨past, mirrors⟩ := settled.mirrors
  by_cases hput : r.IsPut
  · obtain ⟨payload, hpayload⟩ : ∃ payload, r.payload = .ok payload :=
      ⟨_, Request.payload_of_size (proper.size hput)⟩
    rcases hput with hcmd | hcmd
    · rw [Request.reply_putChunk _ hcmd, Request.reply_putChunk _ hcmd]
      cases payload with
      | none => rw [Request.putReply_of_none hpayload, Request.putReply_of_none hpayload]
      | some data =>
          rw [Request.putReply_of_payload hpayload, Request.putReply_of_payload hpayload,
            IdealStore.stores_operations proper.hash.ne_nil, Request.stores,
            settled.storeChunk_eq proper hcmd hpayload]
    · rw [Request.reply_putManifest _ hcmd, Request.reply_putManifest _ hcmd]
      cases payload with
      | none => rw [Request.putReply_of_none hpayload, Request.putReply_of_none hpayload]
      | some data =>
          rw [Request.putReply_of_payload hpayload, Request.putReply_of_payload hpayload,
            settled.writeManifest_eq proper]
          rfl
  · exact mirrors.answers o (settled.tidy proper) hput

theorem records_after (settled : Settled dir fs₀ p t) (proper : r.Proper p.store)
    (hlimit : (r.reply (managed o) p.store).2.sm.maxBytes ≠ 0) :
    (diskOf dir (r.reply (managed o) p.store).2.fs).Records (r.reply (managed o) p.store).2.sm := by
  obtain ⟨past, mirrors⟩ := settled.mirrors
  by_cases hsame : (r.reply (managed o) p.store).2 = p.store
  · rw [hsame] at hlimit ⊢
    exact settled.records hlimit
  by_cases hput : r.IsPut
  · obtain ⟨payload, hpayload⟩ : ∃ payload, r.payload = .ok payload :=
      ⟨_, Request.payload_of_size (proper.size hput)⟩
    rcases hput with hcmd | hcmd
    · rw [Request.reply_putChunk _ hcmd] at hlimit hsame ⊢
      cases payload with
      | none => exact absurd (by rw [Request.putReply_of_none hpayload]) hsame
      | some data =>
          rw [Request.putReply_of_payload hpayload, Request.stores,
            settled.storeChunk_eq proper hcmd hpayload] at hlimit ⊢
          have layout : Layout (p.store.sm.stored r.id data).baseDir dir p.store.fs := by
            rw [show (p.store.sm.stored r.id data).baseDir = p.store.sm.baseDir from
              StorageManager.baseDir_release p.store.sm r.id]
            exact mirrors.layout
          exact records_afterLimit (layout.of_files _) o hlimit
    · rw [Request.reply_putManifest _ hcmd] at hlimit hsame ⊢
      cases payload with
      | none => exact absurd (by rw [Request.putReply_of_none hpayload]) hsame
      | some data =>
          rw [Request.putReply_of_payload hpayload, settled.writeManifest_eq proper] at hlimit ⊢
          obtain ⟨entries, hperm, htext⟩ := settled.records hlimit
          exact ⟨entries, hperm,
            (AList.lookup_insert_ne (manifestAt_ne_metadataAt dir r.id).symm).trans htext⟩
  by_cases hcmd : r.cmd = str "GET_CHUNK"
  · rw [Request.reply_getChunk _ hcmd] at hsame ⊢
    have hread := mirrors.read_chunk (Or.inl proper.hash.plainName)
    cases hchunk : t.chunks r.id with
    | none =>
        rw [hchunk] at hread
        exact absurd (by rw [managed_loadChunk_of_absent o hread]) hsame
    | some data =>
        rw [hchunk] at hread
        rw [managed_loadChunk_of_file o hread]
        have layout : Layout (p.store.sm.touch r.id).baseDir dir p.store.fs := by
          rw [StorageManager.baseDir_touch]
          exact mirrors.layout
        exact records_saved layout o
  · refine absurd ?_ hsame
    obtain ⟨hputChunk, hputManifest⟩ := not_or.mp hput
    rw [Request.reply, if_neg hputChunk, if_neg hcmd, if_neg hputManifest]
    split_ifs <;> rfl

/-- The peer's memory has room for what the request brings and for what it asks for. -/
theorem reply_ample [Memory] (settled : Settled dir fs₀ p t) (o : Orders)
    (proper : r.Proper p.store) :
    r.reply (managed o) p.store =
      @Request.reply ampleMemory _ (@managed ampleMemory o) r p.store := by
  obtain ⟨past, mirrors⟩ := settled.mirrors
  have hplain := proper.hash.plainName
  have hload : (managed o).loadChunk r.id p.store =
      (@managed ampleMemory o).loadChunk r.id p.store := by
    have hfound := proper.chunk
    simp only [managed, onStore, StorageManager.loadChunk, Prog.run_bind, Fs.run_read]
    rw [mirrors.read_chunk (Or.inl hplain)] at hfound ⊢
    cases hchunk : t.chunks r.id with
    | none => rfl
    | some data =>
        rw [hchunk] at hfound
        have hholds : Memory.holds (data.length + (maxSize - maxSize)) = true := by
          rw [Nat.sub_self]
          exact hfound
        simp only [Option.elim_some, StorageManager.fileBuffer_file,
          StorageManager.fileBuffer_of_holds _ hholds]
  have hread : (managed o).readManifest r.id p.store =
      (@managed ampleMemory o).readManifest r.id p.store := by
    have hfound := proper.manifest
    simp only [managed]
    rw [mirrors.read_manifest (Or.inl hplain)] at hfound ⊢
    cases hmanifest : t.manifests r.id with
    | none => rfl
    | some text =>
        rw [hmanifest] at hfound
        have hholds : Memory.holds (text.length + (maxSize - (maxSize - 1))) = true := hfound
        simp only [Option.elim_some, StorageManager.fileBuffer_file,
          StorageManager.fileBuffer_of_holds _ hholds]
  have hput : ∀ put, r.IsPut → r.putReply put p.store =
      @Request.putReply ampleMemory _ r put p.store := by
    intro put hput
    unfold Request.putReply
    rw [Request.payload_ample (proper.size hput)]
  unfold Request.reply
  rw [hload, hread]
  split
  · rename_i hcmd
    exact hput _ (Or.inl hcmd)
  split
  · rfl
  split
  · rfl
  split
  · rename_i hcmd
    exact hput _ (Or.inr hcmd)
  · rfl

theorem serve_ample [Memory] (settled : Settled dir fs₀ p t) (o : Orders) (sock : Socket)
    (proper : Proper p.store sock.bytes) :
    serve (managed o) sock p.store =
      @serve ampleMemory _ (@managed ampleMemory o) sock p.store := by
  rw [serve_eq, @serve_eq _ _ ampleMemory]
  cases hr : Request.ofBytes sock.bytes with
  | none => rfl
  | some r => exact settled.reply_ample o (proper r hr)

theorem turn_ample (settled : Settled dir fs₀ p t) (o : Orders) (sock : Socket)
    (proper : Proper p.store sock.bytes) :
    (∃ bytes, (serve (managed o) sock p.store).1 = .ok bytes ∧
      (serve IdealStore.operations sock t).1 = .ok bytes) ∧
    Settled dir fs₀ (p.turn o sock) (serve IdealStore.operations sock t).2 := by
  rw [Service.turn, if_pos settled.running, serve_eq, serve_eq]
  cases hr : Request.ofBytes sock.bytes with
  | none => exact ⟨⟨_, rfl, rfl⟩, { settled with running := rfl }⟩
  | some r =>
      have hproper := proper r hr
      have hanswers := settled.answers o hproper
      obtain ⟨bytes, hbytes⟩ := IdealStore.reply_ok hproper.size t
      refine ⟨⟨bytes, hanswers.trans hbytes, hbytes⟩, ?_⟩
      obtain ⟨past, mirrors⟩ := settled.mirrors
      have hmirrors := mirrors.reply o (settled.tidy hproper)
      rw [hanswers, ← IdealStore.reply_after hproper.hash.ne_nil] at hmirrors
      have hnext : r.reply (managed o) p.store = (.ok bytes, (r.reply (managed o) p.store).2) :=
        Prod.ext (hanswers.trans hbytes) rfl
      simp only
      rw [hnext]
      refine ⟨rfl, ⟨_, hmirrors⟩, fun id hid => ?_, settled.records_after hproper⟩
      rw [IdealStore.reply_after hproper.hash.ne_nil] at hid
      rcases IdealStore.chunks_after hid with rfl | hold
      · exact hproper.hash
      · exact settled.hashed id hold

/-- **A proper request leaves the ideal store's next state.** -/
theorem turn [Memory] (settled : Settled dir fs₀ p t) (o : Orders) (sock : Socket)
    (proper : Proper p.store sock.bytes) :
    (∃ bytes, (serve (managed o) sock p.store).1 = .ok bytes ∧
      (@serve ampleMemory _ IdealStore.operations sock t).1 = .ok bytes) ∧
    Settled dir fs₀ (p.turn o sock)
      (@serve ampleMemory _ IdealStore.operations sock t).2 := by
  have hserve := settled.serve_ample o sock proper
  have hturn : p.turn o sock = @Service.turn ampleMemory p o sock := by
    unfold Service.turn
    rw [hserve]
  rw [hserve, hturn]
  exact settled.turn_ample o sock fun r hr => (proper r hr).ample

/-- **A restart loses nothing**, whatever limit the new process is given. -/
theorem restart (settled : Settled dir fs₀ p t) (hlimit : p.store.sm.maxBytes ≠ 0) (o : Orders)
    (maxBytes : UInt64) :
    Settled dir fs₀ (.start o p.store.sm.baseDir maxBytes p.store.fs) t := by
  obtain ⟨past, mirrors⟩ := settled.mirrors
  have hnamed : p.store.sm.Named := fun id hid =>
    settled.hashed id ((mirrors.resident id).mp hid)
  obtain ⟨sm, hboot, hsame, hbase⟩ :=
    boot_of_records o mirrors.layout hnamed (settled.records hlimit) maxBytes
  rw [Service.start, hboot]
  refine ⟨rfl, ⟨past, ?_⟩, settled.hashed, fun _ => (settled.records hlimit).congr hsame⟩
  exact mirrors.of_lookup hbase (fun _ => AList.mem_of_perm hsame.entries) fun _ => rfl

end Settled

/-! ### Clusters -/

namespace Peers

/-- Every peer is a settled one, over the cluster's store for it. -/
def Settled (dirs : PeerEndpoint → Path) (disks : PeerEndpoint → FileSystem) (peers : Peers)
    (cluster : Cluster) : Prop :=
  ∀ peer, DecentStore.Settled (dirs peer) (disks peer) (peers peer) (cluster peer)

/-- What a client sends is proper for the peer as it is then. -/
def Proper [Memory] (s : Peers × LocalDisk) : Call → Prop
  | .exchange peer request => PeerService.Proper (s.1 peer).store request
  | _ => True

instance [Memory] (s : Peers × LocalDisk) : (c : Call) → Decidable (Proper s c)
  | .exchange peer request =>
      inferInstanceAs (Decidable (PeerService.Proper (s.1 peer).store request))
  | .fileExists _ | .readFile _ | .absolute _ | .createDirectories _ => isTrue trivial
  | .writeFile _ _ | .openOut _ | .write _ => isTrue trivial

/-- A peer that has a limit is restarted, with any limit. -/
def Restarts (peers peers' : Peers) : Prop :=
  ∃ peer o maxBytes, (peers peer).store.sm.maxBytes ≠ 0 ∧ peers' = peers.restart peer o maxBytes

/-- The peers as they are started, each on a directory of its own. -/
def start (started : PeerEndpoint → Orders) (bases : PeerEndpoint → Bytes)
    (limits : PeerEndpoint → UInt64) (disks : PeerEndpoint → FileSystem) : Peers :=
  fun peer => .start (started peer) (bases peer) (limits peer) (disks peer)

variable {dirs : PeerEndpoint → Path} {disks : PeerEndpoint → FileSystem} {peers peers' : Peers}
  {cluster : Cluster} (orders : Peers → PeerEndpoint → Bytes → Orders) (refused : Exc)
  (segments : Cluster.Segments)

theorem Settled.update (settled : Settled dirs disks peers cluster) (peer : PeerEndpoint)
    {p : Service} {t : IdealStore} (hpeer : DecentStore.Settled (dirs peer) (disks peer) p t) :
    Settled dirs disks (Function.update peers peer p) (Function.update cluster peer t) := by
  intro q
  by_cases hq : q = peer
  · subst hq
    simpa using hpeer
  · simpa [hq] using settled q

theorem settled_start (started : PeerEndpoint → Orders) {bases : PeerEndpoint → Bytes}
    (empty : ∀ peer, EmptyDir (bases peer) (dirs peer) (disks peer))
    (limits : PeerEndpoint → UInt64) :
    Settled dirs disks (start started bases limits disks) Cluster.empty :=
  fun peer => .start (started peer) (empty peer) (limits peer)

theorem Settled.restarts (settled : Settled dirs disks peers cluster)
    (hrestarts : Restarts peers peers') : Settled dirs disks peers' cluster := by
  obtain ⟨peer, o, maxBytes, hlimit, rfl⟩ := hrestarts
  have hpeer := settled.update peer ((settled peer).restart hlimit o maxBytes)
  rwa [Function.update_eq_self] at hpeer

/-- An exchange of a proper request. -/
theorem Settled.network [Memory] (settled : Settled dirs disks peers cluster) {peer : PeerEndpoint}
    {request : Bytes} (proper : PeerService.Proper (peers peer).store request)
    (disk : LocalDisk) :
    (Peers.network orders refused segments peer request (peers, disk)).1 =
        (Cluster.network segments peer request (cluster, disk)).1 ∧
      Settled dirs disks (Peers.network orders refused segments peer request (peers, disk)).2
        (Cluster.network segments peer request (cluster, disk)).2 := by
  let sock : Socket := ⟨request, segments.request peer request, .closed⟩
  obtain ⟨⟨bytes, hreal, hideal⟩, hturn⟩ :=
    (settled peer).turn (orders peers peer request) sock proper
  have hserve : @serve ampleMemory _ IdealStore.operations sock (cluster peer) =
      (.ok bytes, (@serve ampleMemory _ IdealStore.operations sock (cluster peer)).2) :=
    Prod.ext hideal rfl
  rw [Peers.network, if_pos (settled peer).running, Cluster.network]
  simp only [sock] at hreal hserve hturn
  rw [hserve] at hturn ⊢
  refine ⟨?_, settled.update peer hturn⟩
  simp only [hreal]

/-- **Peers with disks simulate ideal ones.** -/
theorem network_simulates [Memory] (dirs : PeerEndpoint → Path)
    (disks : PeerEndpoint → FileSystem) :
    Simulates (worldHandle (Peers.network orders refused segments))
      (worldHandle (Cluster.network segments)) Proper (Pool.Beside (Settled dirs disks)) where
  answer := by
    rintro c ⟨peers, disk⟩ ⟨cluster, disk'⟩ hproper ⟨settled, hdisk⟩
    obtain rfl : disk = disk' := hdisk
    cases c with
    | exchange peer request =>
        exact (settled.network orders refused segments hproper disk).1
    | writeFile path text =>
        simp only [worldHandle]
        split <;> rfl
    | openOut path =>
        simp only [worldHandle]
        split <;> rfl
    | _ => rfl
  after := by
    rintro c ⟨peers, disk⟩ ⟨cluster, disk'⟩ hproper ⟨settled, hdisk⟩
    obtain rfl : disk = disk' := hdisk
    cases c with
    | exchange peer request =>
        exact ⟨(settled.network orders refused segments hproper disk).2, rfl⟩
    | writeFile path text =>
        simp only [worldHandle]
        split <;> exact ⟨settled, rfl⟩
    | openOut path =>
        simp only [worldHandle]
        split <;> exact ⟨settled, rfl⟩
    | _ => exact ⟨settled, rfl⟩

variable {orders refused segments} {α ι : Type} [DecidableEq ι]

/-- A client puts a chunk on a new peer, and then the peer is restarted with a smaller limit. -/
def chunkStart : Pool Call.Reply Exc Unit Peers LocalDisk Unit :=
  ⟨start (fun _ => default) (fun _ => str "/peer") (fun _ => 10) fun _ => bareDisk,
    fun _ => (PeerClient.putChunk ⟨str "10.0.0.2", 9000⟩ someId (str "data"), {})⟩

def plainNetwork : Network Peers := network (fun _ _ _ => default) (.runtimeError []) {}

def chunkRun : Except Exc Unit × Peers × LocalDisk :=
  (chunkStart.procs ()).1.run (worldHandle plainNetwork)
    (chunkStart.shared, (chunkStart.procs ()).2)

def chunkPool : Pool Call.Reply Exc Unit Peers LocalDisk Unit :=
  { shared := chunkRun.2.1.restart ⟨str "10.0.0.2", 9000⟩ default 2
    procs := Function.update chunkStart.procs () (Prog.ofExcept chunkRun.1, chunkRun.2.2) }

theorem chunkRun_allowed : (chunkStart.procs ()).1.Allowed (worldHandle plainNetwork) Proper
    (chunkStart.shared, (chunkStart.procs ()).2) := by
  decide +kernel

theorem chunkRun_limited : (chunkRun.2.1 ⟨str "10.0.0.2", 9000⟩).store.sm.maxBytes ≠ 0 := by
  decide +kernel

theorem chunkPool_turns :
    Pool.Turns (worldHandle plainNetwork) Proper Restarts chunkStart chunkPool := by
  have hrestarts : Restarts chunkRun.2.1
      (chunkRun.2.1.restart ⟨str "10.0.0.2", 9000⟩ default 2) :=
    ⟨⟨str "10.0.0.2", 9000⟩, default, 2, chunkRun_limited, rfl⟩
  have hput : Pool.Turns (worldHandle plainNetwork) Proper Restarts chunkStart
      ⟨chunkRun.2.1,
        Function.update chunkStart.procs () (Prog.ofExcept chunkRun.1, chunkRun.2.2)⟩ := by
    unfold chunkRun
    exact Pool.turns_run chunkStart () chunkRun_allowed
  exact hput.tail (.silent hrestarts)

end Peers

end DecentStore
