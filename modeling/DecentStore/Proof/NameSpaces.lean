import DecentStore.Proof.MalformedPuts
import DecentStore.Proof.Requests
import DecentStore.Proof.StorePaths
import DecentStore.Proof.StoreSimulation

/-!
# The name spaces of a peer

Chunks, manifests and metadata lie in one directory tree, and an id from the network is pasted into
a path unchecked. As long as each id names a file of its own, or nothing, and no store finds a file
under its temporary name, a peer is two maps from ids to bytes, one of chunks and one of manifests.
-/

namespace DecentStore

open Bytes Posix FileSystem PeerService

def manifestAt (dir : Path) (name : Bytes) : Path := manifestsAt dir ++ [name]

theorem manifestAt_injective (dir : Path) {a b : Bytes} :
    manifestAt dir a = manifestAt dir b ↔ a = b := by
  simp [manifestAt]

theorem manifestAt_ne_chunkAt (dir : Path) (a b : Bytes) : manifestAt dir a ≠ chunkAt dir b := by
  simp only [manifestAt, chunkAt, manifestsAt, chunksAt, List.append_assoc, List.cons_append,
    List.nil_append, ne_eq, List.append_cancel_left_eq, List.cons.injEq, and_true, not_and]
  intro hname
  exact absurd hname (by decide)

theorem manifestAt_ne_metadataAt (dir : Path) (name : Bytes) :
    manifestAt dir name ≠ metadataAt dir := by
  intro heq
  have hlen := congrArg List.length heq
  simp [manifestAt, manifestsAt, metadataAt] at hlen

namespace Layout

variable {base : Bytes} {dir : Path} {fs : FileSystem}

theorem not_blocked_manifest (layout : Layout base dir fs) (name : Bytes) :
    fs.blocked (manifestAt dir name) = false := by
  have hlen : (manifestAt dir name).length = dir.length + 2 := by simp [manifestAt, manifestsAt]
  refine layout.not_blocked_of_below
    ⟨[str "manifests", name], by simp [manifestAt, manifestsAt]⟩ ?_ ?_ ?_
  · exact fun heq => by simp [heq] at hlen
  · exact fun heq => by simp [heq, chunksAt] at hlen
  · exact fun heq => by simp [heq, manifestsAt] at hlen

end Layout

section Places

variable {s : Store} {dir : Path} {id : Bytes}

theorem fileAt_tmpPath (layout : Layout s.sm.baseDir dir s.fs) (hid : PlainName id) :
    s.fs.fileAt (s.sm.tmpPath id) = some (chunkAt dir (id ++ str ".tmp")) := by
  rw [StorageManager.tmpPath_eq]
  exact fileAt_chunkPath layout (plainName_tmp hid)

theorem fileAt_manifestPath (layout : Layout s.sm.baseDir dir s.fs) (hid : PlainName id) :
    s.fs.fileAt (manifestPath s id) = some (manifestAt dir id) := by
  have htext : manifestPath s id = s.sm.baseDir ++ str "/manifests" ++ 47 :: id := by
    have hslash : str "/manifests/" = str "/manifests" ++ [47] := by decide
    simp [manifestPath, hslash]
  have hzero : (0 : UInt8) ∉ s.sm.baseDir ++ str "/manifests" := by
    rw [List.mem_append, not_or]
    exact ⟨layout.text, by decide⟩
  have hmanifests : s.fs.resolve (s.sm.baseDir ++ str "/manifests") = some (manifestsAt dir) :=
    resolve_child layout.text layout.resolves layout.isDir_base (by decide)
  rw [htext]
  exact fileAt_eq_some.mpr ⟨resolve_child hzero hmanifests layout.isDir_manifests hid,
    layout.not_blocked_manifest id⟩

end Places

/-- A store of this id meets no file under its temporary name, and moves it to a file of its own if
to any, within the limit. -/
def StoresApart (s : Store) (id data : Bytes) : Prop :=
  (∀ tmp, s.fs.fileAt (s.sm.tmpPath id) = some tmp →
    s.fs.files.lookup tmp = none ∧ (PlainName id ∨ s.fs.fileAt (s.sm.chunkPath id) = none)) ∧
  (s.sm.stored id data).Within

namespace PeerService

/-- Every id names a file of its own, or nothing. -/
structure Request.Tidy (r : Request) (s : Store) : Prop where
  putChunk : r.cmd = str "PUT_CHUNK" → ∀ data, r.payload = .ok (some data) →
    StoresApart s r.id data
  getChunk : r.cmd = str "GET_CHUNK" →
    PlainName r.id ∨ s.fs.read (s.sm.chunkPath r.id) = .absent
  putManifest : r.cmd = str "PUT_MANIFEST" →
    PlainName r.id ∨ s.fs.fileAt (manifestPath s r.id) = none
  getManifest : r.cmd = str "GET_MANIFEST" ∨ r.cmd = str "HAS_MANIFEST" →
    PlainName r.id ∨ s.fs.read (manifestPath s r.id) = .absent

def Tidy (s : Store) (sock : Socket) : Prop :=
  ∀ r, Request.ofBytes sock.bytes = some r → r.Tidy s

end PeerService

/-- The ideal store after a request with this reply: what is answered `OK` is put. -/
def IdealStore.after (t : IdealStore) (r : Request) (reply : Except Exc Bytes) : IdealStore :=
  match r.payload with
  | .ok (some data) =>
      if reply = .ok ok ∧ r.cmd = str "PUT_CHUNK" then t.putChunk r.id data
      else if reply = .ok ok ∧ r.cmd = str "PUT_MANIFEST" then t.putManifest r.id data
      else t
  | _ => t

/-! ### A peer as two maps -/

/-- The peer's files are those of the ideal store, the map knows its chunks, the metadata was
written by a peer of the past, and everything else is as it was at the start. -/
structure Mirrors (dir : Path) (fs₀ : FileSystem) (past : List Store) (s : Store)
    (t : IdealStore) : Prop where
  layout : Layout s.sm.baseDir dir s.fs
  chunk : ∀ name, s.fs.files.lookup (chunkAt dir name) = t.chunks name
  manifest : ∀ name, s.fs.files.lookup (manifestAt dir name) = t.manifests name
  resident : ∀ id, id ∈ s.sm.metaMap ↔ (t.chunks id).isSome
  plainChunk : ∀ id, (t.chunks id).isSome → PlainName id
  plainManifest : ∀ id, (t.manifests id).isSome → PlainName id
  recorded : ∃ p ∈ past, ∃ o, s.fs.files.lookup (metadataAt dir) = some (p.sm.metadataText o)
  elsewhere : ∀ path, (∀ name, path ≠ chunkAt dir name) → (∀ name, path ≠ manifestAt dir name) →
    path ≠ metadataAt dir → s.fs.files.lookup path = fs₀.files.lookup path

theorem saved_eq {sm : StorageManager} {dir : Path} {fs : FileSystem}
    (layout : Layout sm.baseDir dir fs) (o : Orders) :
    sm.saved o fs =
      { fs with files := fs.files.insert (metadataAt dir) (sm.metadataText o) } := by
  rw [StorageManager.saved, StorageManager.metaPath, layout.fileAt_metadata]

namespace Mirrors

variable {dir : Path} {fs₀ : FileSystem} {past past' : List Store} {s : Store} {t : IdealStore}
  {id data : Bytes}

theorem mono (mirrors : Mirrors dir fs₀ past s t) (hpast : past ⊆ past') :
    Mirrors dir fs₀ past' s t :=
  { mirrors with
    recorded := by
      obtain ⟨p, hp, hwritten⟩ := mirrors.recorded
      exact ⟨p, hpast hp, hwritten⟩ }

theorem of_lookup (mirrors : Mirrors dir fs₀ past s t) {sm : StorageManager}
    {files : AList fun _ : Path => Bytes} (hbase : sm.baseDir = s.sm.baseDir)
    (hkeys : ∀ id, id ∈ sm.metaMap ↔ id ∈ s.sm.metaMap)
    (hfiles : ∀ path, files.lookup path = s.fs.files.lookup path) :
    Mirrors dir fs₀ past ⟨sm, { s.fs with files := files }⟩ t where
  layout := hbase ▸ mirrors.layout.of_files files
  chunk name := (hfiles _).trans (mirrors.chunk name)
  manifest name := (hfiles _).trans (mirrors.manifest name)
  resident id := (hkeys id).trans (mirrors.resident id)
  plainChunk := mirrors.plainChunk
  plainManifest := mirrors.plainManifest
  recorded := by
    obtain ⟨p, hp, o, hwritten⟩ := mirrors.recorded
    exact ⟨p, hp, o, (hfiles _).trans hwritten⟩
  elsewhere path hchunk hmanifest hmeta :=
    (hfiles path).trans (mirrors.elsewhere path hchunk hmanifest hmeta)

theorem save (mirrors : Mirrors dir fs₀ past s t) (o : Orders) :
    Mirrors dir fs₀ (⟨s.sm, s.sm.saved o s.fs⟩ :: past) ⟨s.sm, s.sm.saved o s.fs⟩ t := by
  rw [saved_eq mirrors.layout]
  exact
    { layout := mirrors.layout.of_files _
      chunk := fun name =>
        (AList.lookup_insert_ne (chunkAt_ne_metadataAt dir name)).trans (mirrors.chunk name)
      manifest := fun name =>
        (AList.lookup_insert_ne (manifestAt_ne_metadataAt dir name)).trans (mirrors.manifest name)
      resident := mirrors.resident
      plainChunk := mirrors.plainChunk
      plainManifest := mirrors.plainManifest
      recorded := ⟨_, List.mem_cons_self, o, AList.lookup_insert _⟩
      elsewhere := fun path hchunk hmanifest hmeta =>
        (AList.lookup_insert_ne hmeta).trans (mirrors.elsewhere path hchunk hmanifest hmeta) }

theorem putChunk (mirrors : Mirrors dir fs₀ past s t) (hid : PlainName id)
    (htmp : t.chunks (id ++ str ".tmp") = none) :
    Mirrors dir fs₀ past ⟨s.sm.stored id data, { s.fs with
        files := StorageManager.written s.fs.files (chunkAt dir (id ++ str ".tmp"))
          (chunkAt dir id) data }⟩
      (t.putChunk id data) where
  layout := by
    have hbase : (s.sm.stored id data).baseDir = s.sm.baseDir :=
      StorageManager.baseDir_release s.sm id
    exact hbase ▸ mirrors.layout.of_files _
  chunk name := by
    simp only [StorageManager.lookup_written, chunkAt_injective, IdealStore.putChunk,
      Function.update_apply]
    split
    · rfl
    · split
      · rename_i hname
        rw [hname, htmp]
      · exact mirrors.chunk name
  manifest name := by
    simp only [StorageManager.lookup_written, manifestAt_ne_chunkAt, ↓reduceIte]
    exact mirrors.manifest name
  resident other := by
    simp only [StorageManager.stored, StorageManager.record, AList.mem_insert,
      StorageManager.metaMap_release, IdealStore.putChunk, Function.update_apply,
      mirrors.resident other]
    split
    · simp_all
    · simp_all
  plainChunk other hother := by
    simp only [IdealStore.putChunk, Function.update_apply] at hother
    split at hother
    · rename_i hsame
      exact hsame ▸ hid
    · exact mirrors.plainChunk other hother
  plainManifest := mirrors.plainManifest
  recorded := by
    obtain ⟨p, hp, o, hwritten⟩ := mirrors.recorded
    refine ⟨p, hp, o, ?_⟩
    simp only [StorageManager.lookup_written, (chunkAt_ne_metadataAt dir _).symm, ↓reduceIte]
    exact hwritten
  elsewhere path hchunk hmanifest hmeta := by
    simp only [StorageManager.lookup_written, hchunk, ↓reduceIte]
    exact mirrors.elsewhere path hchunk hmanifest hmeta

theorem putManifest (mirrors : Mirrors dir fs₀ past s t) (hid : PlainName id) :
    Mirrors dir fs₀ past ⟨s.sm, { s.fs with
      files := s.fs.files.insert (manifestAt dir id) data }⟩ (t.putManifest id data) where
  layout := mirrors.layout.of_files _
  chunk name := (AList.lookup_insert_ne (manifestAt_ne_chunkAt dir id name).symm).trans
    (mirrors.chunk name)
  manifest name := by
    simp only [IdealStore.putManifest, Function.update_apply]
    split
    · rename_i hname
      rw [hname, AList.lookup_insert]
    · rename_i hname
      rw [AList.lookup_insert_ne (by simpa [manifestAt_injective] using hname)]
      exact mirrors.manifest name
  resident := mirrors.resident
  plainChunk := mirrors.plainChunk
  plainManifest other hother := by
    simp only [IdealStore.putManifest, Function.update_apply] at hother
    split at hother
    · rename_i hsame
      exact hsame ▸ hid
    · exact mirrors.plainManifest other hother
  recorded := by
    obtain ⟨p, hp, o, hwritten⟩ := mirrors.recorded
    exact ⟨p, hp, o, (AList.lookup_insert_ne (manifestAt_ne_metadataAt dir id).symm).trans hwritten⟩
  elsewhere path hchunk hmanifest hmeta :=
    (AList.lookup_insert_ne (hmanifest id)).trans (mirrors.elsewhere path hchunk hmanifest hmeta)

theorem afterLimit (mirrors : Mirrors dir fs₀ past s t) (o : Orders) :
    Mirrors dir fs₀ (⟨s.sm, s.sm.afterLimit o s.fs⟩ :: past) ⟨s.sm, s.sm.afterLimit o s.fs⟩ t := by
  unfold StorageManager.afterLimit
  split
  · exact mirrors.mono (List.subset_cons_self _ _)
  · exact mirrors.save o

/-- What is not a plain name is not in the map, so nothing is taken off for it. -/
theorem release_of_not_plain (mirrors : Mirrors dir fs₀ past s t) (hid : ¬ PlainName id) :
    s.sm.release id = s.sm := by
  have hnot : id ∉ s.sm.metaMap := fun hmem =>
    hid (mirrors.plainChunk id ((mirrors.resident id).mp hmem))
  rw [StorageManager.release, AList.lookup_eq_none.mpr hnot]

theorem stores (mirrors : Mirrors dir fs₀ past s t) (o : Orders) (happart : StoresApart s id data) :
    Mirrors dir fs₀ ((Request.stores (managed o) id data s).2 :: past)
      (Request.stores (managed o) id data s).2
      (if (Request.stores (managed o) id data s).1 then t.putChunk id data else t) := by
  obtain ⟨htmp, hwithin⟩ := happart
  by_cases hne : id = []
  · subst hne
    exact mirrors.mono (List.subset_cons_self _ _)
  rw [Request.stores, managed_storeChunk_within o hne hwithin]
  by_cases hid : PlainName id
  · have htmpAt := fileAt_tmpPath mirrors.layout hid
    have hnone : t.chunks (id ++ str ".tmp") = none := by
      rw [← mirrors.chunk]
      exact (htmp _ htmpAt).1
    rw [htmpAt, fileAt_chunkPath mirrors.layout hid]
    exact (mirrors.putChunk hid hnone).afterLimit o
  · have hrelease := mirrors.release_of_not_plain hid
    cases htmpAt : s.fs.fileAt (s.sm.tmpPath id) with
    | none =>
        simp only [hrelease]
        exact mirrors.mono (List.subset_cons_self _ _)
    | some tmp =>
        obtain ⟨hnone, hplace⟩ := htmp tmp htmpAt
        rw [hplace.resolve_left hid]
        simp only [hrelease]
        refine (mirrors.of_lookup rfl (fun _ => Iff.rfl) fun path => ?_).mono
          (List.subset_cons_self _ _)
        by_cases hpath : path = tmp
        · rw [hpath, AList.lookup_erase, hnone]
        · rw [AList.lookup_erase_ne hpath, AList.lookup_insert_ne hpath]

theorem writes (mirrors : Mirrors dir fs₀ past s t) (o : Orders)
    (hplace : PlainName id ∨ s.fs.fileAt (manifestPath s id) = none) :
    Mirrors dir fs₀ (((managed o).writeManifest id data s).2 :: past)
      ((managed o).writeManifest id data s).2
      (if ((managed o).writeManifest id data s).1 then t.putManifest id data else t) := by
  rw [managed_writeManifest]
  by_cases hid : PlainName id
  · rw [fileAt_manifestPath mirrors.layout hid]
    exact (mirrors.putManifest hid).mono (List.subset_cons_self _ _)
  · rw [hplace.resolve_left hid]
    exact mirrors.mono (List.subset_cons_self _ _)

theorem read_chunk (mirrors : Mirrors dir fs₀ past s t)
    (hplace : PlainName id ∨ s.fs.read (s.sm.chunkPath id) = .absent) :
    s.fs.read (s.sm.chunkPath id) = (t.chunks id).elim .absent .file := by
  by_cases hid : PlainName id
  · rw [read_of_fileAt (fileAt_chunkPath mirrors.layout hid), mirrors.chunk]
  · rw [hplace.resolve_left hid]
    cases hchunk : t.chunks id with
    | none => rfl
    | some data => exact absurd (mirrors.plainChunk id (by rw [hchunk]; rfl)) hid

theorem read_manifest (mirrors : Mirrors dir fs₀ past s t)
    (hplace : PlainName id ∨ s.fs.read (manifestPath s id) = .absent) :
    s.fs.read (manifestPath s id) = (t.manifests id).elim .absent .file := by
  by_cases hid : PlainName id
  · rw [read_of_fileAt (fileAt_manifestPath mirrors.layout hid), mirrors.manifest]
  · rw [hplace.resolve_left hid]
    cases hmanifest : t.manifests id with
    | none => rfl
    | some data => exact absurd (mirrors.plainManifest id (by rw [hmanifest]; rfl)) hid

theorem loads (mirrors : Mirrors dir fs₀ past s t) (o : Orders)
    (hplace : PlainName id ∨ s.fs.read (s.sm.chunkPath id) = .absent) :
    Mirrors dir fs₀ (((managed o).loadChunk id s).2 :: past) ((managed o).loadChunk id s).2 t ∧
      ((managed o).loadChunk id s).1.toOption = t.chunks id := by
  have hread := mirrors.read_chunk hplace
  cases hchunk : t.chunks id with
  | none =>
      rw [hchunk] at hread
      rw [managed_loadChunk_of_absent o hread]
      exact ⟨mirrors.mono (List.subset_cons_self _ _), rfl⟩
  | some data =>
      rw [hchunk] at hread
      rw [managed_loadChunk_of_file o hread]
      have htouched : Mirrors dir fs₀ past ⟨s.sm.touch id, s.fs⟩ t :=
        mirrors.of_lookup (StorageManager.baseDir_touch s.sm id) (s.sm.mem_touch id) fun _ => rfl
      exact ⟨htouched.save o, rfl⟩

end Mirrors

/-! ### Requests -/

namespace IdealStore

variable {t : IdealStore} {r : Request} {data : Bytes} {reply : Except Exc Bytes}

theorem after_of_not_put (hput : ¬ r.IsPut) : t.after r reply = t := by
  obtain ⟨hchunk, hmanifest⟩ := not_or.mp hput
  unfold after
  split
  · rw [if_neg (fun h => hchunk h.2), if_neg (fun h => hmanifest h.2)]
  · rfl

theorem after_putChunk (hcmd : r.cmd = str "PUT_CHUNK") (hpayload : r.payload = .ok (some data))
    (stored : Bool) : t.after r (.ok (if stored then ok else err)) =
      if stored then t.putChunk r.id data else t := by
  have hother : str "PUT_CHUNK" ≠ str "PUT_MANIFEST" := by decide
  have herr : err ≠ ok := by decide
  cases stored <;> simp [after, hpayload, hcmd, hother, herr]

theorem after_putManifest (hcmd : r.cmd = str "PUT_MANIFEST")
    (hpayload : r.payload = .ok (some data)) (written : Bool) :
    t.after r (.ok (if written then ok else err)) =
      if written then t.putManifest r.id data else t := by
  have hother : str "PUT_MANIFEST" ≠ str "PUT_CHUNK" := by decide
  have herr : err ≠ ok := by decide
  cases written <;> simp [after, hpayload, hcmd, hother, herr]

theorem after_of_payload (hpayload : ∀ data, r.payload ≠ .ok (some data)) :
    t.after r reply = t := by
  unfold after
  split
  · rename_i data hdata
    exact absurd hdata (hpayload data)
  · rfl

end IdealStore

section Requests

variable {dir : Path} {fs₀ : FileSystem} {past : List Store} {s : Store} {t : IdealStore}
  {r : Request}

theorem putReply_without_payload (hpayload : ∀ data, r.payload ≠ .ok (some data))
    (put : Bytes → Store → Bool × Store) : (r.putReply put s).2 = s := by
  unfold Request.putReply
  split
  · rfl
  · rfl
  · rename_i data hdata
    exact absurd hdata (hpayload data)

theorem Mirrors.reply (mirrors : Mirrors dir fs₀ past s t) (o : Orders) (htidy : r.Tidy s) :
    Mirrors dir fs₀ ((r.reply (managed o) s).2 :: past) (r.reply (managed o) s).2
      (t.after r (r.reply (managed o) s).1) := by
  have hsame : Mirrors dir fs₀ (s :: past) s t := mirrors.mono (List.subset_cons_self _ _)
  by_cases hpayload : r.IsPut ∧ ∀ data, r.payload ≠ .ok (some data)
  · obtain ⟨put, hreply, -⟩ := @Request.reply_put r o s hpayload.1
    rw [hreply, putReply_without_payload hpayload.2, IdealStore.after_of_payload hpayload.2]
    exact hsame
  by_cases hputChunk : r.cmd = str "PUT_CHUNK"
  · obtain ⟨data, hdata⟩ : ∃ data, r.payload = .ok (some data) := by
      simpa [Request.IsPut, hputChunk] using hpayload
    have hstores := mirrors.stores o (htidy.putChunk hputChunk data hdata)
    rw [Request.reply_putChunk _ hputChunk, Request.putReply_of_payload hdata,
      IdealStore.after_putChunk hputChunk hdata]
    exact hstores
  by_cases hputManifest : r.cmd = str "PUT_MANIFEST"
  · obtain ⟨data, hdata⟩ : ∃ data, r.payload = .ok (some data) := by
      simpa [Request.IsPut, hputManifest] using hpayload
    have hwrites := @Mirrors.writes dir fs₀ past s t r.id data mirrors o
      (htidy.putManifest hputManifest)
    rw [Request.reply_putManifest _ hputManifest, Request.putReply_of_payload hdata,
      IdealStore.after_putManifest hputManifest hdata]
    exact hwrites
  rw [IdealStore.after_of_not_put (not_or.mpr ⟨hputChunk, hputManifest⟩)]
  by_cases hgetChunk : r.cmd = str "GET_CHUNK"
  · rw [Request.reply_getChunk _ hgetChunk]
    exact (mirrors.loads o (htidy.getChunk hgetChunk)).1
  · rw [Request.reply, if_neg hputChunk, if_neg hgetChunk, if_neg hputManifest]
    split_ifs <;> exact hsame

/-- **What is not a put is answered as the ideal store would.** -/
theorem Mirrors.answers (mirrors : Mirrors dir fs₀ past s t) (o : Orders) (htidy : r.Tidy s)
    (hput : ¬ r.IsPut) :
    (r.reply (managed o) s).1 = (r.reply IdealStore.operations t).1 := by
  obtain ⟨hputChunk, hputManifest⟩ := not_or.mp hput
  unfold Request.reply
  simp only [if_neg hputChunk, if_neg hputManifest]
  by_cases hgetChunk : r.cmd = str "GET_CHUNK"
  · have hload := (mirrors.loads o (htidy.getChunk hgetChunk)).2
    have hideal : (IdealStore.operations.loadChunk r.id t).1.toOption = t.chunks r.id := by
      simp only [IdealStore.operations]
      cases t.chunks r.id <;> rfl
    simp only [if_pos hgetChunk, hload, hideal]
  by_cases hhasChunk : r.cmd = str "HAS_CHUNK"
  · have hresident : (managed o).hasChunk r.id s = IdealStore.operations.hasChunk r.id t := by
      simp only [managed, StorageManager.hasChunk, IdealStore.operations]
      rw [Bool.eq_iff_iff, AList.lookup_isSome]
      exact mirrors.resident r.id
    simp only [if_neg hgetChunk, if_pos hhasChunk, hresident]
  by_cases hgetManifest : r.cmd = str "GET_MANIFEST"
  · have hread := mirrors.read_manifest (htidy.getManifest (Or.inl hgetManifest))
    have hmanifest : (managed o).readManifest r.id s =
        IdealStore.operations.readManifest r.id t := by
      simp only [managed, IdealStore.operations, hread]
      cases t.manifests r.id <;> rfl
    simp only [if_neg hgetChunk, if_neg hhasChunk, if_pos hgetManifest, hmanifest]
  by_cases hhasManifest : r.cmd = str "HAS_MANIFEST"
  · have hread := mirrors.read_manifest (htidy.getManifest (Or.inr hhasManifest))
    have hmanifest : (managed o).hasManifest r.id s =
        IdealStore.operations.hasManifest r.id t := by
      simp only [managed, IdealStore.operations, hread]
      cases t.manifests r.id <;> simp
    simp only [if_neg hgetChunk, if_neg hhasChunk, if_neg hgetManifest, if_pos hhasManifest,
      hmanifest]
  · simp only [if_neg hgetChunk, if_neg hhasChunk, if_neg hgetManifest, if_neg hhasManifest]

end Requests

theorem boot_of_empty (o : Orders) {base : Bytes} {dir : Path} {fs : FileSystem}
    (empty : EmptyDir base dir fs) (maxBytes : UInt64) :
    Store.boot o base maxBytes fs = (.done, ⟨.fresh base maxBytes,
      (StorageManager.fresh base maxBytes).saved o (laidOut dir fs)⟩) := by
  have layout := empty.layout
  have hread : (laidOut dir fs).read (StorageManager.fresh base maxBytes).metaPath = .absent := by
    have hplace : (laidOut dir fs).fileAt (StorageManager.fresh base maxBytes).metaPath =
        some (metadataAt dir) := layout.fileAt_metadata
    rw [read_of_fileAt hplace]
    have hnone : (laidOut dir fs).files.lookup (metadataAt dir) = none :=
      empty.no_files _ (List.prefix_append _ _)
    rw [hnone]
    rfl
  have hfiles : (laidOut dir fs).filesIn (chunksAt dir) = [] := by
    refine List.eq_nil_iff_forall_not_mem.mpr fun file hfile => ?_
    obtain ⟨data, hdata, -⟩ := (@mem_filesIn (laidOut dir fs) _ file.1 file.2).mp hfile
    have hnone : (laidOut dir fs).files.lookup (chunksAt dir ++ [file.1]) = none :=
      empty.no_files _ ⟨[str "chunks", file.1], by simp [chunksAt]⟩
    rw [hnone] at hdata
    cases hdata
  have hlist : (laidOut dir fs).list (StorageManager.fresh base maxBytes).chunksDir = some [] := by
    rw [← hfiles]
    exact list_of_resolve layout.resolve_chunksDir layout.isDir_chunks
  have horder : o.directory.order [] = [] := (o.directory.perm []).eq_nil
  have hrebuild : (StorageManager.rebuildMetadataFromDisk o (.fresh base maxBytes)).run
      FileSystem.handle (laidOut dir fs) = (.ok (.fresh base maxBytes),
        (StorageManager.fresh base maxBytes).saved o (laidOut dir fs)) := by
    rw [StorageManager.rebuildMetadataFromDisk,
      Interaction.Prog.run_bind_of_ok (Fs.run_list _ _), hlist]
    simp only [horder, List.foldl_nil]
    exact (Interaction.Prog.run_bind_of_ok
      (StorageManager.run_persistMetadata_paths o _ _) _).trans rfl
  have hinit : (StorageManager.init o (.fresh base maxBytes)).run FileSystem.handle fs =
      (.ok (.fresh base maxBytes),
        (StorageManager.fresh base maxBytes).saved o (laidOut dir fs)) := by
    rw [StorageManager.run_init, empty.createDirectories, StorageManager.loadMetadata,
      Interaction.Prog.run_bind_of_ok (Fs.run_read _ _), hread]
    exact hrebuild
  change Store.exec (StorageManager.init o (.fresh base maxBytes)) fs = _
  rw [Store.exec, hinit]

theorem mirrors_start (o : Orders) {base : Bytes} {dir : Path} {fs : FileSystem}
    (empty : EmptyDir base dir fs) (maxBytes : UInt64) :
    Mirrors dir fs [(Store.boot o base maxBytes fs).2] (Store.boot o base maxBytes fs).2 {} := by
  have layout := empty.layout
  rw [boot_of_empty o empty, saved_eq layout]
  have hnone : ∀ path, dir <+: path → path ≠ metadataAt dir →
      ((laidOut dir fs).files.insert (metadataAt dir)
        ((StorageManager.fresh base maxBytes).metadataText o)).lookup path = none :=
    fun path hbelow hmeta => (AList.lookup_insert_ne hmeta).trans (empty.no_files path hbelow)
  exact
    { layout := layout.of_files _
      chunk := fun name => hnone _ ⟨[str "chunks", name], by simp [chunkAt, chunksAt]⟩
        (chunkAt_ne_metadataAt dir name)
      manifest := fun name => hnone _ ⟨[str "manifests", name], by
        simp [manifestAt, manifestsAt]⟩ (manifestAt_ne_metadataAt dir name)
      resident := fun id => iff_of_false (AList.notMem_empty id) (by simp)
      plainChunk := fun id hid => by cases hid
      plainManifest := fun id hid => by cases hid
      recorded := ⟨_, List.mem_cons_self, o, AList.lookup_insert _⟩
      elsewhere := fun path _ _ hmeta => AList.lookup_insert_ne hmeta }

/-! ### Runs -/

namespace PeerService

/-- The stores of a peer that answers connections, each allowed in the store it meets, latest first,
and beside it an ideal store that is told the replies. -/
inductive Answered (allowed : Store → Socket → Prop) (first : Store) :
    List Store → Store → IdealStore → Prop where
  | start : Answered allowed first [first] first {}
  | answer {past : List Store} {s : Store} {t : IdealStore} (o : Orders) (sock : Socket)
      (hrun : Answered allowed first past s t) (hsock : allowed s sock) :
      Answered allowed first ((serve (managed o) sock s).2 :: past) (serve (managed o) sock s).2
        (match Request.ofBytes sock.bytes with
          | none => t
          | some r => t.after r (serve (managed o) sock s).1)

def Request.Apart (r q : Request) : Prop :=
  q.id ≠ r.id ∨
    (r.cmd = str "PUT_CHUNK" ∧ (q.cmd = str "GET_MANIFEST" ∨ q.cmd = str "HAS_MANIFEST")) ∨
    (r.cmd = str "PUT_MANIFEST" ∧ (q.cmd = str "GET_CHUNK" ∨ q.cmd = str "HAS_CHUNK"))

theorem Request.reply_congr {t t' : IdealStore} {q : Request} (hput : ¬ q.IsPut)
    (hchunk : q.cmd = str "GET_CHUNK" ∨ q.cmd = str "HAS_CHUNK" →
      t'.chunks q.id = t.chunks q.id)
    (hmanifest : q.cmd = str "GET_MANIFEST" ∨ q.cmd = str "HAS_MANIFEST" →
      t'.manifests q.id = t.manifests q.id) :
    (q.reply IdealStore.operations t').1 = (q.reply IdealStore.operations t).1 := by
  obtain ⟨hputChunk, hputManifest⟩ := not_or.mp hput
  unfold Request.reply
  simp only [if_neg hputChunk, if_neg hputManifest]
  by_cases hgetChunk : q.cmd = str "GET_CHUNK"
  · have hload : (IdealStore.operations.loadChunk q.id t').1 =
        (IdealStore.operations.loadChunk q.id t).1 := by
      simp only [IdealStore.operations, hchunk (Or.inl hgetChunk)]
      cases t.chunks q.id <;> rfl
    simp only [if_pos hgetChunk, hload]
  by_cases hhasChunk : q.cmd = str "HAS_CHUNK"
  · have hhas : IdealStore.operations.hasChunk q.id t' =
        IdealStore.operations.hasChunk q.id t := by
      simp only [IdealStore.operations, hchunk (Or.inr hhasChunk)]
    simp only [if_neg hgetChunk, if_pos hhasChunk, hhas]
  by_cases hgetManifest : q.cmd = str "GET_MANIFEST"
  · have hread : IdealStore.operations.readManifest q.id t' =
        IdealStore.operations.readManifest q.id t := by
      simp only [IdealStore.operations, hmanifest (Or.inl hgetManifest)]
    simp only [if_neg hgetChunk, if_neg hhasChunk, if_pos hgetManifest, hread]
  by_cases hhasManifest : q.cmd = str "HAS_MANIFEST"
  · have hhas : IdealStore.operations.hasManifest q.id t' =
        IdealStore.operations.hasManifest q.id t := by
      simp only [IdealStore.operations, hmanifest (Or.inr hhasManifest)]
    simp only [if_neg hgetChunk, if_neg hhasChunk, if_neg hgetManifest, if_pos hhasManifest, hhas]
  · simp only [if_neg hgetChunk, if_neg hhasChunk, if_neg hgetManifest, if_neg hhasManifest]

/-- In the ideal store a put is seen by the requests for its own object only. -/
theorem Request.reply_after {t : IdealStore} {r q : Request} (hapart : r.Apart q)
    (hput : ¬ q.IsPut) (reply : Except Exc Bytes) :
    (q.reply IdealStore.operations (t.after r reply)).1 =
      (q.reply IdealStore.operations t).1 := by
  unfold IdealStore.after
  split
  · rename_i data hdata
    split
    · rename_i hr
      refine Request.reply_congr hput (fun hcmd => Function.update_of_ne ?_ _ _) fun _ => rfl
      rcases hapart with hid | ⟨-, hother⟩ | ⟨hother, -⟩
      · exact hid
      · rcases hcmd with hcmd | hcmd <;> rcases hother with hother | hother <;>
          exact absurd (hcmd.symm.trans hother) (by decide)
      · exact absurd (hr.2.symm.trans hother) (by decide)
    · split
      · rename_i hr
        refine Request.reply_congr hput (fun _ => rfl) fun hcmd => Function.update_of_ne ?_ _ _
        rcases hapart with hid | ⟨hother, -⟩ | ⟨-, hother⟩
        · exact hid
        · exact absurd (hr.2.symm.trans hother) (by decide)
        · rcases hcmd with hcmd | hcmd <;> rcases hother with hother | hother <;>
            exact absurd (hcmd.symm.trans hother) (by decide)
      · rfl
  · rfl

theorem mirrors_serve {dir : Path} {fs₀ : FileSystem} {past : List Store} {s : Store}
    {t : IdealStore} (mirrors : Mirrors dir fs₀ past s t) (o : Orders) {sock : Socket}
    (hsock : Tidy s sock) :
    Mirrors dir fs₀ ((serve (managed o) sock s).2 :: past) (serve (managed o) sock s).2
      (match Request.ofBytes sock.bytes with
        | none => t
        | some r => t.after r (PeerService.serve (managed o) sock s).1) := by
  rw [serve_eq]
  cases hr : Request.ofBytes sock.bytes with
  | none => exact mirrors.mono (List.subset_cons_self _ _)
  | some r => exact mirrors.reply o (hsock r hr)

theorem mirrors_of_answered {o₀ : Orders} {base : Bytes} {dir : Path} {fs : FileSystem}
    (empty : EmptyDir base dir fs) {maxBytes : UInt64} {past : List Store} {s : Store}
    {t : IdealStore} (hrun : Answered Tidy (Store.boot o₀ base maxBytes fs).2 past s t) :
    Mirrors dir fs past s t := by
  induction hrun with
  | start => exact mirrors_start o₀ empty maxBytes
  | answer o sock hrun hsock ih => exact mirrors_serve ih o hsock

/-- **The name spaces are apart.** As long as the requests are tidy, the files of a peer are those
of an ideal store that is told its replies, and the metadata that of a request that is done; what
is not a put is answered from the ideal store, and no put is seen by a request about another
object. -/
theorem name_spaces_apart (o₀ : Orders) {base : Bytes} {dir : Path} {fs : FileSystem}
    (empty : EmptyDir base dir fs) (maxBytes : UInt64) {past : List Store} {s : Store}
    {t : IdealStore} (hrun : Answered Tidy (Store.boot o₀ base maxBytes fs).2 past s t) :
    Mirrors dir fs past s t ∧
    (∀ (o : Orders) (sock : Socket) (r : Request), Request.ofBytes sock.bytes = some r →
      r.Tidy s → ¬ r.IsPut →
        (serve (managed o) sock s).1 = (r.reply IdealStore.operations t).1) ∧
    ∀ (o o' : Orders) (sock other : Socket) (r q : Request),
      Request.ofBytes sock.bytes = some r → r.Tidy s →
      Request.ofBytes other.bytes = some q → q.Tidy s → q.Tidy (serve (managed o) sock s).2 →
      ¬ q.IsPut → r.Apart q →
        (serve (managed o') other (serve (managed o) sock s).2).1 =
          (serve (managed o') other s).1 := by
  have mirrors := mirrors_of_answered empty hrun
  refine ⟨mirrors, fun o sock r hr htidy hput => ?_,
    fun o o' sock other r q hr hrtidy hq htidy htidy' hput hapart => ?_⟩
  · rw [serve_eq, hr]
    exact mirrors.answers o htidy hput
  · have hsock : serve (managed o) sock s = r.reply (managed o) s := by rw [serve_eq, hr]
    have hother : ∀ s, serve (managed o') other s = q.reply (managed o') s := fun s => by
      rw [serve_eq, hq]
    rw [hsock] at htidy' ⊢
    rw [hother, hother, (mirrors.reply o hrtidy).answers o' htidy' hput,
      mirrors.answers o' htidy hput]
    exact Request.reply_after hapart hput _

/-! ### A run -/

open Service

theorem tidy_putChunk {dir : Path} {fs₀ : FileSystem} {past : List Store} {s : Store}
    {t : IdealStore} (mirrors : Mirrors dir fs₀ past s t) {id data : Bytes} {size : Option Bytes}
    (hid : PlainName id) (hdata : Request.payload ⟨str "PUT_CHUNK", id, size, data⟩ =
      .ok (some data)) (htmp : t.chunks (id ++ str ".tmp") = none)
    (hfits : (s.sm.stored id data).Within) :
    Request.Tidy ⟨str "PUT_CHUNK", id, size, data⟩ s where
  putChunk _ data' hdata' := by
    obtain rfl : data = data' := Option.some.inj (Except.ok.inj (hdata.symm.trans hdata'))
    refine ⟨fun tmp hplace => ⟨?_, Or.inl hid⟩, hfits⟩
    rw [Option.some_injective _ (hplace.symm.trans (fileAt_tmpPath mirrors.layout hid)),
      mirrors.chunk, htmp]
  getChunk hcmd := absurd hcmd (show ¬ str "PUT_CHUNK" = _ by decide)
  putManifest hcmd := absurd hcmd (show ¬ str "PUT_CHUNK" = _ by decide)
  getManifest hcmd := absurd hcmd (show ¬ (str "PUT_CHUNK" = _ ∨ str "PUT_CHUNK" = _) by decide)

theorem tidy_getY (s : Store) : Request.Tidy ⟨str "GET_CHUNK", str "y", none, []⟩ s where
  putChunk hcmd := absurd hcmd (by decide)
  getChunk _ := Or.inl (by decide)
  putManifest hcmd := absurd hcmd (by decide)
  getManifest _ := Or.inl (by decide)

/-- The peer after a put of `y`, with the ideal store beside it. -/
def storeWithY : Store :=
  (serve (managed default) (bringing (str "PUT_CHUNK y 4\nnote")) newService.store).2

def idealWithY : IdealStore := ({} : IdealStore).putChunk (str "y") (str "note")

theorem answered_putY :
    Answered Tidy newService.store [storeWithY, newService.store] storeWithY idealWithY := by
  have hput : Request.ofBytes (str "PUT_CHUNK y 4\nnote") =
      some ⟨str "PUT_CHUNK", str "y", some (str "4"), str "note"⟩ := by decide +kernel
  have htidy : Tidy newService.store (bringing (str "PUT_CHUNK y 4\nnote")) := by
    intro r hr
    obtain rfl := Option.some_injective _ (hput.symm.trans hr)
    exact tidy_putChunk (mirrors_start default bareDisk_empty 10) (by decide) rfl rfl
      (Or.inr (by decide +kernel))
  have hok : (serve (managed default) (bringing (str "PUT_CHUNK y 4\nnote"))
      newService.store).1 = .ok ok := by decide +kernel
  have hstep := Answered.answer default (bringing (str "PUT_CHUNK y 4\nnote")) Answered.start htidy
  rw [show (bringing (str "PUT_CHUNK y 4\nnote")).bytes = str "PUT_CHUNK y 4\nnote" from rfl, hput,
    hok] at hstep
  exact hstep

/-- A put of `x` is not seen by a request for `y`, which returns what was put under it. -/
theorem putX_leaves_y :
    Mirrors [str "peer"] bareDisk [storeWithY, newService.store] storeWithY idealWithY ∧
    (serve (managed default) (bringing (str "GET_CHUNK y\n")) storeWithY).1 =
      .ok (str "OK 4\nnote") ∧
    (serve (managed default) (bringing (str "GET_CHUNK y\n"))
        (serve (managed default) (bringing (str "PUT_CHUNK x 4\ndata")) storeWithY).2).1 =
      (serve (managed default) (bringing (str "GET_CHUNK y\n")) storeWithY).1 := by
  have hput : Request.ofBytes (str "PUT_CHUNK x 4\ndata") =
      some ⟨str "PUT_CHUNK", str "x", some (str "4"), str "data"⟩ := by decide +kernel
  have hget : Request.ofBytes (str "GET_CHUNK y\n") =
      some ⟨str "GET_CHUNK", str "y", none, []⟩ := by decide +kernel
  obtain ⟨mirrors, hanswers, hunseen⟩ :=
    name_spaces_apart default bareDisk_empty 10 answered_putY
  have htidy : Request.Tidy ⟨str "PUT_CHUNK", str "x", some (str "4"), str "data"⟩ storeWithY :=
    tidy_putChunk mirrors (by decide) rfl rfl (Or.inr (by decide +kernel))
  refine ⟨mirrors, ?_, ?_⟩
  · rw [hanswers default _ _ hget (tidy_getY _) (by decide)]
    decide
  · exact hunseen default default _ _ _ _ hput htidy hget (tidy_getY _) (tidy_getY _) (by decide)
      (Or.inl (by decide))

def RoomFor (s : Store) (sock : Socket) : Prop :=
  ∀ r, Request.ofBytes sock.bytes = some r → r.cmd = str "PUT_CHUNK" →
    ∀ data, r.payload = .ok (some data) → (s.sm.stored r.id data).Within

/-- The temporary file of `x` is the chunk `x.tmp`. -/
theorem temporary_name_shared :
    ¬ ∀ (past : List Store) (s : Store) (t : IdealStore),
      Answered RoomFor newService.store past s t →
      ∀ (o o' : Orders) (sock other : Socket) (r q : Request),
        Request.ofBytes sock.bytes = some r → RoomFor s sock →
        Request.ofBytes other.bytes = some q → ¬ q.IsPut → r.Apart q →
          (serve (managed o') other (serve (managed o) sock s).2).1 =
            (serve (managed o') other s).1 := by
  intro hall
  have hnote : Request.ofBytes (str "PUT_CHUNK x.tmp 4\nnote") =
      some ⟨str "PUT_CHUNK", str "x.tmp", some (str "4"), str "note"⟩ := by decide +kernel
  have hdata : Request.ofBytes (str "PUT_CHUNK x 4\ndata") =
      some ⟨str "PUT_CHUNK", str "x", some (str "4"), str "data"⟩ := by decide +kernel
  have hget : Request.ofBytes (str "GET_CHUNK x.tmp\n") =
      some ⟨str "GET_CHUNK", str "x.tmp", none, []⟩ := by decide +kernel
  have hroomNote : RoomFor newService.store (bringing (str "PUT_CHUNK x.tmp 4\nnote")) := by
    intro r hr _ data hpayload
    obtain rfl := Option.some_injective _ (hnote.symm.trans hr)
    obtain rfl : data = str "note" := by cases hpayload; rfl
    exact Or.inr (by decide +kernel)
  have hroomData : RoomFor (serve (managed default)
      (bringing (str "PUT_CHUNK x.tmp 4\nnote")) newService.store).2
      (bringing (str "PUT_CHUNK x 4\ndata")) := by
    intro r hr _ data hpayload
    obtain rfl := Option.some_injective _ (hdata.symm.trans hr)
    obtain rfl : data = str "data" := by cases hpayload; rfl
    exact Or.inr (by decide +kernel)
  have hsame := hall _ _ _ (Answered.answer default _ Answered.start hroomNote) default default
    (bringing (str "PUT_CHUNK x 4\ndata")) (bringing (str "GET_CHUNK x.tmp\n")) _ _
    hdata hroomData hget (by decide) (Or.inl (by decide))
  exact absurd hsame (by decide +kernel)

end PeerService

end DecentStore
