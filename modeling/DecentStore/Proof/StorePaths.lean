import DecentStore.PeerService
import DecentStore.Proof.StoreCalls
import DecentStore.Proof.StoreLayout

/-!
# The store on any id

An id may be any string, so the path of its chunk and the path of its temporary file name whatever
they happen to name: a file of `chunks/`, a file elsewhere, a directory, or nothing at all. These
are the effects of the operations in terms of that.
-/

namespace DecentStore

open Bytes Posix FileSystem Interaction

namespace StorageManager

variable (o : Orders) (sm : StorageManager) (hash : Bytes)

@[simp]
theorem chunkPath_release : (sm.release hash).chunkPath hash = sm.chunkPath hash := by
  unfold release
  split <;> rfl

@[simp]
theorem tmpPath_release : (sm.release hash).tmpPath hash = sm.tmpPath hash := by
  rw [tmpPath, chunkPath_release]
  rfl

/-- The temporary file of an id is the file of another id. -/
theorem tmpPath_eq : sm.tmpPath hash = sm.chunkPath (hash ++ str ".tmp") := by
  simp [tmpPath, chunkPath]

/-- The files after a store has moved its temporary file to its place. -/
def written (files : AList fun _ : Path => Bytes) (tmp target : Path) (data : Bytes) :
    AList fun _ : Path => Bytes :=
  ((files.insert tmp data).erase tmp).insert target data

theorem lookup_written (files : AList fun _ : Path => Bytes) (tmp target path : Path)
    (data : Bytes) :
    (written files tmp target data).lookup path =
      if path = target then some data else if path = tmp then none else files.lookup path := by
  unfold written
  split
  · rename_i htarget
    rw [htarget, AList.lookup_insert]
  · rename_i htarget
    rw [AList.lookup_insert_ne htarget]
    split
    · rename_i htmp
      rw [htmp, AList.lookup_erase]
    · rename_i htmp
      rw [AList.lookup_erase_ne htmp, AList.lookup_insert_ne htmp]

theorem lookup_abandoned_of_none {files : AList fun _ : Path => Bytes} {tmp : Path}
    (hnone : files.lookup tmp = none) (data : Bytes) (path : Path) :
    ((files.insert tmp data).erase tmp).lookup path = files.lookup path := by
  by_cases hpath : path = tmp
  · rw [hpath, AList.lookup_erase, hnone]
  · rw [AList.lookup_erase_ne hpath, AList.lookup_insert_ne hpath]

theorem read_abandoned_iff {sm : StorageManager} {hash : Bytes} {fs : FileSystem} {tmp : Path}
    (htmp : fs.fileAt (sm.tmpPath hash) = some tmp) (data : Bytes) :
    (∀ other, FileSystem.read { fs with files := (fs.files.insert tmp data).erase tmp }
        (sm.chunkPath other) = fs.read (sm.chunkPath other)) ↔
      fs.files.lookup tmp = none := by
  constructor
  · intro hreads
    -- the temporary file is the file of the chunk called so
    have hread := hreads (hash ++ str ".tmp")
    have htmp' := (fileAt_files fs ((fs.files.insert tmp data).erase tmp) _).trans htmp
    simp only [← tmpPath_eq, read_of_fileAt htmp', read_of_fileAt htmp, AList.lookup_erase,
      Option.elim_none] at hread
    cases hlookup : fs.files.lookup tmp with
    | none => rfl
    | some old =>
        rw [hlookup] at hread
        cases hread
  · intro hnone other
    exact read_congr fun path _ => lookup_abandoned_of_none hnone data path

/-- **A store, by what its two paths name.** -/
theorem run_storeChunk_paths (hne : hash ≠ []) (data : Bytes) (fs : FileSystem) :
    (sm.storeChunk o hash data).run FileSystem.handle fs =
      match fs.fileAt (sm.tmpPath hash), fs.fileAt (sm.chunkPath hash) with
      | none, _ => (.error (openFailed hash, sm.release hash), fs)
      | some tmp, none => (.error (renameFailed hash, sm.release hash),
          { fs with files := (fs.files.insert tmp data).erase tmp })
      | some tmp, some target => ((sm.stored hash data).enforceLimit o).run FileSystem.handle
          { fs with files := written fs.files tmp target data } := by
  rw [run_storeChunk FileSystem.handle o sm hne data fs, tmpPath_release, chunkPath_release]
  simp only [FileSystem.handle]
  rw [truncate_eq]
  cases htmp : fs.fileAt (sm.tmpPath hash) with
  | none => rfl
  | some tmp =>
      have htmp' := (fileAt_files fs (fs.files.insert tmp data) (sm.tmpPath hash)).trans htmp
      have htarget := fileAt_files fs (fs.files.insert tmp data) (sm.chunkPath hash)
      simp only [append_truncated htmp]
      rw [rename_eq htmp' (AList.lookup_insert _), htarget]
      cases fs.fileAt (sm.chunkPath hash) with
      | none => simp only [remove_of_fileAt htmp']
      | some target => rfl

/-- The disk after the metadata is written, if its file can be opened. -/
def saved (fs : FileSystem) : FileSystem :=
  match fs.fileAt sm.metaPath with
  | none => fs
  | some path => { fs with files := fs.files.insert path (sm.metadataText o) }

theorem run_persistMetadata_paths (fs : FileSystem) :
    (persistMetadata o sm).run FileSystem.handle fs = (.ok (), sm.saved o fs) := by
  unfold persistMetadata saved
  rw [Prog.run_bind_of_ok (Fs.run_truncate _ _), truncate_eq]
  cases hpath : fs.fileAt sm.metaPath with
  | none => rfl
  | some path =>
      simp only [↓reduceIte, Fs.run_append]
      rw [append_truncated hpath]

/-- There is no limit, or it is kept to. -/
def Within : Prop := sm.maxBytes = 0 ∨ sm.usedBytes ≤ sm.maxBytes

variable {sm}

theorem evictLoop_within (hwithin : sm.usedBytes ≤ sm.maxBytes) (fuel : Nat) :
    evictLoop o fuel sm = pure sm := by
  cases fuel with
  | zero => rfl
  | succ fuel => rw [evictLoop, if_neg (UInt64.not_lt.mpr hwithin)]

theorem run_enforceLimit_within (hwithin : sm.Within) (fs : FileSystem) :
    (sm.enforceLimit o).run FileSystem.handle fs =
      (.ok sm, if sm.maxBytes = 0 then fs else sm.saved o fs) := by
  unfold enforceLimit
  by_cases hzero : sm.maxBytes = 0
  · rw [if_pos hzero, if_pos hzero]
    rfl
  · rw [if_neg hzero, if_neg hzero, evictLoop_within o (hwithin.resolve_left hzero), Prog.pure_bind,
      Prog.run_bind_of_ok (run_persistMetadata_paths o sm fs)]
    rfl

/-- The disk after the limit is enforced and nothing is evicted. -/
def afterLimit (sm : StorageManager) (fs : FileSystem) : FileSystem :=
  if sm.maxBytes = 0 then fs else sm.saved o fs

theorem run_enforceLimit_afterLimit (hwithin : sm.Within) (fs : FileSystem) :
    (sm.enforceLimit o).run FileSystem.handle fs = (.ok sm, sm.afterLimit o fs) :=
  run_enforceLimit_within o hwithin fs

theorem exists_files_saved (sm : StorageManager) (fs : FileSystem) :
    ∃ files, sm.saved o fs = { fs with files := files } ∧ ∀ path,
      fs.fileAt sm.metaPath ≠ some path → files.lookup path = fs.files.lookup path := by
  unfold saved
  cases fs.fileAt sm.metaPath with
  | none => exact ⟨fs.files, rfl, fun _ _ => rfl⟩
  | some place =>
      exact ⟨_, rfl, fun path hpath => AList.lookup_insert_ne fun h => hpath (congrArg some h.symm)⟩

theorem exists_files_afterLimit (sm : StorageManager) (fs : FileSystem) :
    ∃ files, sm.afterLimit o fs = { fs with files := files } ∧ ∀ path,
      fs.fileAt sm.metaPath ≠ some path → files.lookup path = fs.files.lookup path := by
  unfold afterLimit
  split
  · exact ⟨fs.files, rfl, fun _ _ => rfl⟩
  · exact exists_files_saved o sm fs

end StorageManager

section Managed

open PeerService

theorem managed_storeChunk_within (o : Orders) {s : Store} {hash data : Bytes} (hne : hash ≠ [])
    (hwithin : (s.sm.stored hash data).Within) :
    (managed o).storeChunk hash data s =
      match s.fs.fileAt (s.sm.tmpPath hash), s.fs.fileAt (s.sm.chunkPath hash) with
      | none, _ => (.error (StorageManager.openFailed hash), ⟨s.sm.release hash, s.fs⟩)
      | some tmp, none => (.error (StorageManager.renameFailed hash), ⟨s.sm.release hash,
          { s.fs with files := (s.fs.files.insert tmp data).erase tmp }⟩)
      | some tmp, some target => (.ok (), ⟨s.sm.stored hash data,
          (s.sm.stored hash data).afterLimit o
            { s.fs with files := StorageManager.written s.fs.files tmp target data }⟩) := by
  have hrun := StorageManager.run_storeChunk_paths o s.sm hash hne data s.fs
  simp only [managed, onStore, Prog.run_bind, hrun]
  cases s.fs.fileAt (s.sm.tmpPath hash) with
  | none => rfl
  | some tmp =>
      cases s.fs.fileAt (s.sm.chunkPath hash) with
      | none => rfl
      | some target =>
          simp only [StorageManager.run_enforceLimit_afterLimit o hwithin]
          rfl

theorem managed_writeManifest (o : Orders) (s : Store) (manifestId data : Bytes) :
    (managed o).writeManifest manifestId data s =
      match s.fs.fileAt (manifestPath s manifestId) with
      | none => (false, s)
      | some path =>
          (true, { s with fs := { s.fs with files := s.fs.files.insert path data } }) := by
  simp only [managed]
  rw [truncate_eq]
  cases hpath : s.fs.fileAt (manifestPath s manifestId) with
  | none => rfl
  | some path => simp only [append_truncated hpath]

theorem managed_loadChunk_of_file (o : Orders) {s : Store} {hash data : Bytes}
    (hread : s.fs.read (s.sm.chunkPath hash) = .file data) :
    (managed o).loadChunk hash s =
      (.ok data, ⟨s.sm.touch hash, (s.sm.touch hash).saved o s.fs⟩) := by
  simp only [managed, onStore]
  unfold StorageManager.loadChunk
  rw [Prog.run_bind_of_ok (Fs.run_read _ _), hread]
  simp only [StorageManager.fileBuffer_file]
  rw [Prog.run_bind_of_ok (StorageManager.run_persistMetadata_paths o _ _)]
  rfl

theorem managed_loadChunk_of_absent (o : Orders) {s : Store} {hash : Bytes}
    (hread : s.fs.read (s.sm.chunkPath hash) = .absent) :
    (managed o).loadChunk hash s =
      (.error (.runtimeError (str "loadChunk: missing chunk " ++ hash)), s) := by
  simp only [managed, onStore]
  unfold StorageManager.loadChunk
  rw [Prog.run_bind_of_ok (Fs.run_read _ _), hread]
  rfl

end Managed

theorem Layout.fileAt_metadata {base : Bytes} {dir : Path} {fs : FileSystem}
    (layout : Layout base dir fs) :
    fs.fileAt (base ++ str "/metadata.db") = some (metadataAt dir) :=
  fileAt_eq_some.mpr ⟨layout.resolve_metadata, layout.not_blocked_metadata⟩

theorem fileAt_chunkPath {s : Store} {dir : Path} {id : Bytes}
    (layout : Layout s.sm.baseDir dir s.fs) (hid : PlainName id) :
    s.fs.fileAt (s.sm.chunkPath id) = some (chunkAt dir id) := by
  rw [StorageManager.chunkPath_eq]
  exact fileAt_eq_some.mpr ⟨layout.resolve_chunk hid, layout.not_blocked_chunk id⟩

theorem resolve_below (fs : FileSystem) {base : Bytes} (hbase : (0 : UInt8) ∉ base) (rest : Bytes) :
    fs.resolve (base ++ 47 :: rest) =
      (walk fs.isDir (fs.origin (base ++ [47])) (base.splitOn 47)).bind fun dir =>
        walk fs.isDir dir ((cString rest).splitOn 47) := by
  have hcut : cString (base ++ 47 :: rest) = base ++ 47 :: cString rest := by
    unfold cString
    rw [List.takeWhile_append_of_pos fun b hb => by
      simpa using fun hzero : b = 0 => hbase (hzero ▸ hb)]
    rw [List.takeWhile_cons_of_pos (by decide)]
  have hne : base ++ 47 :: cString rest ≠ [] := by simp
  have horigin : fs.origin (base ++ 47 :: cString rest) = fs.origin (base ++ [47]) := by
    unfold origin
    cases base <;> rfl
  simp only [resolve, hcut, if_neg hne, horigin]
  rw [List.splitOn_append_cons_self, walk_append]

theorem walk_singleton {isDir : Path → Bool} {dir path : Path} {name : Bytes}
    (hwalk : walk isDir dir [name] = some path) :
    isDir dir = true ∧ (path = dir ∨ path = dir.dropLast ∨ path = dir ++ [name]) := by
  simp only [walk] at hwalk
  split at hwalk
  · cases hwalk
  · rename_i hdir
    refine ⟨by simpa using hdir, ?_⟩
    split at hwalk
    · exact Or.inl (Option.some.inj hwalk).symm
    · split at hwalk
      · exact Or.inr (Or.inl (Option.some.inj hwalk).symm)
      · exact Or.inr (Or.inr (Option.some.inj hwalk).symm)

theorem cString_slash {name rest : Bytes} (hname : (0 : UInt8) ∉ name) :
    cString (name ++ 47 :: rest) = name ++ 47 :: cString rest := by
  unfold cString
  rw [List.takeWhile_append_of_pos fun b hb => by
    simpa using fun hzero : b = 0 => hname (hzero ▸ hb)]
  rw [List.takeWhile_cons_of_pos (by decide)]

theorem not_mem_cString {b : UInt8} {text : Bytes} (htext : b ∉ text) : b ∉ cString text :=
  fun hb => htext (List.takeWhile_subset _ hb)

/-- The file of an id without a slash is an entry of `chunks/`. -/
theorem chunk_place {sm : StorageManager} {fs : FileSystem} (hbase : (0 : UInt8) ∉ sm.baseDir)
    {hash : Bytes} (hslash : (47 : UInt8) ∉ hash) {path : Path}
    (hpath : fs.fileAt (sm.chunkPath hash) = some path) :
    ∃ dir, walk fs.isDir (fs.origin (sm.baseDir ++ [47])) (sm.baseDir.splitOn 47) = some dir ∧
      path = dir ++ [str "chunks", cString hash] := by
  obtain ⟨hresolve, hblocked⟩ := fileAt_eq_some.mp hpath
  have hfile := (not_blocked hblocked).1
  have htext : sm.chunkPath hash = sm.baseDir ++ 47 :: (str "chunks" ++ 47 :: hash) := by
    have hslash : str "/" = [47] := by decide
    have hchunks : str "/chunks" = 47 :: str "chunks" := by decide
    simp [StorageManager.chunkPath, StorageManager.chunksDir, hslash, hchunks]
  rw [htext, resolve_below fs hbase, cString_slash (by decide)] at hresolve
  obtain ⟨dir, hdir, hwalk⟩ := Option.bind_eq_some_iff.mp hresolve
  rw [List.splitOn_append_cons_self, walk_append, List.splitOn_eq_singleton (by decide),
    List.splitOn_eq_singleton (not_mem_cString hslash)] at hwalk
  obtain ⟨chunks, hchunks, hlast⟩ := Option.bind_eq_some_iff.mp hwalk
  have hbelow : chunks = dir ++ [str "chunks"] := by
    have hname : PlainName (str "chunks") := by decide
    simp only [walk, hname.1, hname.2.1, hname.2.2.1, or_self, ↓reduceIte] at hchunks
    split at hchunks
    · cases hchunks
    · exact (Option.some.inj hchunks).symm
  refine ⟨dir, hdir, ?_⟩
  obtain ⟨hisDir, hself | hup | hentry⟩ := walk_singleton hlast
  · rw [hself, hisDir] at hfile
    cases hfile
  · -- `chunks/..` is the directory itself
    have hdir' : fs.isDir dir = true := (walk_singleton hchunks).1
    rw [hup, hbelow, List.dropLast_concat, hdir'] at hfile
    cases hfile
  · rw [hentry, hbelow, List.append_assoc]
    rfl

theorem chunk_ne_metadata {sm : StorageManager} {fs : FileSystem}
    (hbase : (0 : UInt8) ∉ sm.baseDir) {hash : Bytes} (hslash : (47 : UInt8) ∉ hash)
    {path other : Path} (hpath : fs.fileAt (sm.chunkPath hash) = some path)
    (hother : fs.fileAt sm.metaPath = some other) : path ≠ other := by
  obtain ⟨dir, hdir, rfl⟩ := chunk_place hbase hslash hpath
  obtain ⟨hresolve, -⟩ := fileAt_eq_some.mp hother
  have htext : sm.metaPath = sm.baseDir ++ 47 :: str "metadata.db" := by
    have hmeta : str "/metadata.db" = 47 :: str "metadata.db" := by decide
    rw [StorageManager.metaPath, hmeta]
  have hcut : cString (str "metadata.db") = str "metadata.db" := by decide
  rw [htext, resolve_below fs hbase, hdir, hcut, Option.bind_some,
    List.splitOn_eq_singleton (by decide)] at hresolve
  rintro rfl
  obtain ⟨-, hself | hup | hentry⟩ := walk_singleton hresolve
  · have hlen := congrArg List.length hself
    simp at hlen
  · have hlen := congrArg List.length hup
    rw [List.length_append, List.length_dropLast] at hlen
    simp only [List.length_cons, List.length_nil] at hlen
    omega
  · have hlen := congrArg List.length hentry
    simp at hlen

end DecentStore
