import DecentStore.Proof.ByteAccounting
import DecentStore.Proof.StorePaths

/-!
# Stores that fail

A store opens a temporary file, writes it and renames it, and each of these can fail. It has taken
the old size of its id off the counter by then, and nothing puts it back; and it does not ask
whether all bytes were written. So a failing store leaves everything as it was exactly if there was
nothing to take off and the temporary name was free, and a store that returns has stored the chunk
exactly if all its bytes were written, or the chunk is too large to stay anyway.
-/

namespace DecentStore

open Bytes Posix FileSystem Interaction

/-- What becomes of the temporary file: whether it opens, how many bytes are written to it, and
whether it is renamed. -/
structure Faults where
  opens : Bool
  keeps : Nat
  renames : Bool

namespace Faults

variable (f : Faults)

/-- The file system with these faults at one temporary file. -/
def handle (tmp : Bytes) : Handler FsReply FileSystem
  | .truncate path, fs =>
      if path = tmp ∧ f.opens = false then (false, fs)
      else FileSystem.handle (.truncate path) fs
  | .append path data, fs =>
      FileSystem.handle (.append path (if path = tmp then data.take f.keeps else data)) fs
  | .rename source target, fs =>
      if f.renames = false then (false, fs) else FileSystem.handle (.rename source target) fs
  | call, fs => FileSystem.handle call fs

/-- Where the temporary file of an id is opened, if it is. -/
def opened (s : StorageManager × FileSystem) (id : Bytes) : Option Path :=
  if f.opens then s.2.fileAt (s.1.tmpPath id) else none

/-- Where it is moved, if it is. -/
def moved (s : StorageManager × FileSystem) (id : Bytes) : Option Path :=
  if f.renames then s.2.fileAt (s.1.chunkPath id) else none

def store (o : Orders) (s : StorageManager × FileSystem) (id data : Bytes) :
    Bool × StorageManager × FileSystem :=
  (StoreOp.storeChunk id data).outcome (f.handle (s.1.tmpPath id)) o s

end Faults

/-! ### The limit -/

section Limit

variable {o : Orders} {sm : StorageManager}

/-- Eviction takes entries away and leaves the rest of the object. -/
structure EvictedFrom (sm sm' : StorageManager) : Prop where
  baseDir : sm'.baseDir = sm.baseDir
  maxBytes : sm'.maxBytes = sm.maxBytes
  entries : sm'.metaMap.entries.Sublist sm.metaMap.entries

theorem evictedFrom (o : Orders) (fuel : Nat) (sm : StorageManager) :
    EvictedFrom sm (sm.evicted o fuel) := by
  induction fuel generalizing sm with
  | zero => exact ⟨rfl, rfl, List.Sublist.refl _⟩
  | succ fuel ih =>
      unfold StorageManager.evicted
      split
      · cases sm.lruVictim o with
        | none => exact ⟨rfl, rfl, List.Sublist.refl _⟩
        | some victim =>
            have hrest := ih { sm with
              usedBytes := sm.usedBytes - victim.2.size
              metaMap := sm.metaMap.erase victim.1 }
            exact ⟨hrest.baseDir, hrest.maxBytes,
              hrest.entries.trans (MetaMap.erase_sublist _ _)⟩
      · exact ⟨rfl, rfl, List.Sublist.refl _⟩

theorem EvictedFrom.lookup {sm' : StorageManager} (hfrom : EvictedFrom sm sm') {hash : Bytes}
    {m : ChunkMeta} (hlookup : sm'.metaMap.lookup hash = some m) :
    sm.metaMap.lookup hash = some m :=
  AList.mem_lookup_iff.mpr (hfrom.entries.subset (AList.mem_lookup_iff.mp hlookup))

/-- The counter is the sum of the recorded sizes. -/
def Exact (sm : StorageManager) : Prop := sm.usedBytes.toNat = totalSize sm.metaMap.entries

instance (sm : StorageManager) : Decidable (Exact sm) := inferInstanceAs (Decidable (_ = _))

theorem Exact.covers (hexact : Exact sm) : Covers sm := hexact.ge

theorem Exact.victim (hexact : Exact sm) {victim : MetaEntry}
    (hvictim : sm.lruVictim o = some victim) :
    Exact { sm with
      usedBytes := sm.usedBytes - victim.2.size
      metaMap := sm.metaMap.erase victim.1 } := by
  obtain ⟨hle, -⟩ := hexact.covers.victim hvictim
  have htotal := MetaMap.totalSize_of_lookup (AList.mem_lookup_iff.mpr (lruVictim_spec hvictim).1)
  unfold Exact at hexact ⊢
  rw [UInt64.toNat_sub_of_le _ _ hle, hexact, htotal]
  exact Nat.add_sub_cancel_left _ _

theorem Exact.evicted (hexact : Exact sm) (o : Orders) (fuel : Nat) :
    Exact (sm.evicted o fuel) := by
  induction fuel generalizing sm with
  | zero => exact hexact
  | succ fuel ih =>
      unfold StorageManager.evicted
      split
      · cases hvictim : sm.lruVictim o with
        | none => exact hexact
        | some victim => exact ih (hexact.victim hvictim)
      · exact hexact

theorem Exact.limited (hexact : Exact sm) (o : Orders) : Exact (sm.limited o) := by
  unfold StorageManager.limited
  split
  · exact hexact
  · exact hexact.evicted o _

/-- As many turns as there are entries bring the counter down to the limit. -/
theorem Exact.evicted_le (hexact : Exact sm) (o : Orders) {fuel : Nat}
    (hfuel : sm.metaMap.entries.length ≤ fuel) :
    (sm.evicted o fuel).usedBytes ≤ sm.maxBytes := by
  induction fuel generalizing sm with
  | zero =>
      have hnil := List.eq_nil_of_length_eq_zero (Nat.le_zero.mp hfuel)
      have hzero : sm.usedBytes.toNat = 0 := hexact.trans (by rw [hnil]; rfl)
      rw [StorageManager.evicted, UInt64.le_iff_toNat_le, hzero]
      exact Nat.zero_le _
  | succ fuel ih =>
      unfold StorageManager.evicted
      split
      · rename_i hover
        have hne : sm.metaMap.entries ≠ [] := by
          intro hnil
          have hzero : sm.usedBytes.toNat = 0 := hexact.trans (by rw [hnil]; rfl)
          rw [UInt64.lt_iff_toNat_lt, hzero] at hover
          exact absurd hover (Nat.not_lt_zero _)
        obtain ⟨victim, hvictim⟩ := lruVictim_isSome o hne
        have hmem := (lruVictim_spec hvictim).1
        have hlen := (MetaMap.perm_of_lookup (AList.mem_lookup_iff.mpr hmem)).length_eq
        rw [List.length_cons] at hlen
        have hrest : (sm.metaMap.erase victim.1).entries.length ≤ fuel := by omega
        simp only [hvictim]
        exact @ih { sm with
          usedBytes := sm.usedBytes - victim.2.size
          metaMap := sm.metaMap.erase victim.1 } (hexact.victim hvictim) hrest
      · rename_i hwithin
        exact UInt64.not_lt.mp hwithin

theorem MetaMap.size_le_total {metaMap : MetaMap} {hash : Bytes} {m : ChunkMeta}
    (hlookup : metaMap.lookup hash = some m) : m.size.toNat ≤ totalSize metaMap.entries := by
  rw [MetaMap.totalSize_of_lookup hlookup]
  exact Nat.le_add_right _ _

theorem Exact.not_mem_limited (hexact : Exact sm) (o : Orders) (hlimit : sm.maxBytes ≠ 0)
    {hash : Bytes} {m : ChunkMeta} (hlookup : sm.metaMap.lookup hash = some m)
    (hsize : sm.maxBytes < m.size) : hash ∉ (sm.limited o).metaMap := by
  rw [StorageManager.limited, if_neg hlimit]
  intro hmem
  obtain ⟨m', hlookup'⟩ := Option.isSome_iff_exists.mp (AList.lookup_isSome.mpr hmem)
  have hsame := (evictedFrom o sm.metaMap.entries.length sm).lookup hlookup'
  obtain rfl := Option.some_injective _ (hlookup.symm.trans hsame)
  have hle := hexact.evicted_le o le_rfl
  have htotal := MetaMap.size_le_total hlookup'
  have hused : (sm.evicted o sm.metaMap.entries.length).usedBytes.toNat = _ := hexact.evicted o _
  rw [UInt64.le_iff_toNat_le] at hle
  rw [UInt64.lt_iff_toNat_lt] at hsize
  omega

theorem Exact.mem_evicted (hexact : Exact sm) (o : Orders) {hash : Bytes} {m : ChunkMeta}
    (hlookup : sm.metaMap.lookup hash = some m) (hsize : m.size ≤ sm.maxBytes)
    (hnewest : ∀ e ∈ sm.metaMap.entries, e.1 ≠ hash → e.2.lastAccess < m.lastAccess)
    (fuel : Nat) : hash ∈ (sm.evicted o fuel).metaMap := by
  have hmem : hash ∈ sm.metaMap := AList.lookup_isSome.mp (by rw [hlookup]; rfl)
  induction fuel generalizing sm with
  | zero => exact hmem
  | succ fuel ih =>
      unfold StorageManager.evicted
      split
      · rename_i hover
        cases hvictim : sm.lruVictim o with
        | none => exact hmem
        | some victim =>
            obtain ⟨hin, holdest⟩ := lruVictim_spec hvictim
            have hother : hash ≠ victim.1 := by
              intro hsame
              -- the victim would be the newest, so alone, and within the limit
              have hentry : victim.2 = m := by
                have hvictim' := AList.mem_lookup_iff.mpr hin
                rw [← hsame, hlookup] at hvictim'
                exact (Option.some_injective _ hvictim').symm
              have hrest : (sm.metaMap.erase hash).entries = [] := by
                refine List.eq_nil_iff_forall_not_mem.mpr fun e he => ?_
                have hlt := hnewest e ((MetaMap.erase_sublist _ _).subset he)
                  (MetaMap.ne_of_mem_erase he)
                have hle := holdest e ((MetaMap.erase_sublist _ _).subset he)
                rw [hentry] at hle
                exact absurd hlt (UInt64.not_lt.mpr hle)
              have htotal := MetaMap.totalSize_of_lookup hlookup
              rw [hrest] at htotal
              have hused : sm.usedBytes.toNat = m.size.toNat := hexact.trans htotal
              rw [UInt64.lt_iff_toNat_lt] at hover
              rw [UInt64.le_iff_toNat_le] at hsize
              omega
            exact ih (hexact.victim hvictim)
              ((AList.lookup_erase_ne hother).trans hlookup) hsize
              (fun e he => hnewest e ((MetaMap.erase_sublist _ _).subset he))
              (AList.mem_erase.mpr ⟨hother, hmem⟩)
      · exact hmem

end Limit

theorem metaPath_ne_tmpPath {sm sm' : StorageManager} (hbase : sm'.baseDir = sm.baseDir)
    (hash : Bytes) : sm'.metaPath ≠ sm.tmpPath hash := by
  have hmeta : str "/metadata.db" = 47 :: 109 :: str "etadata.db" := by decide
  have hchunks : str "/chunks" = 47 :: 99 :: str "hunks" := by decide
  simp [StorageManager.metaPath, StorageManager.tmpPath, StorageManager.chunkPath,
    StorageManager.chunksDir, hbase, hmeta, hchunks]

section Runs

variable {f : Faults} {o : Orders} {tmp : Bytes}

theorem handle_append {path : Bytes} (hpath : path ≠ tmp) (data : Bytes) (fs : FileSystem) :
    f.handle tmp (.append path data) fs = FileSystem.handle (.append path data) fs :=
  congrArg (fun bytes => (((), fs.append path bytes) : Unit × FileSystem)) (if_neg hpath)

theorem run_persistMetadata_faulty {sm : StorageManager} (htmp : sm.metaPath ≠ tmp)
    (fs : FileSystem) :
    (StorageManager.persistMetadata o sm).run (f.handle tmp) fs =
      (StorageManager.persistMetadata o sm).run FileSystem.handle fs := by
  have hopen : f.handle tmp (.truncate sm.metaPath) fs =
      FileSystem.handle (.truncate sm.metaPath) fs := if_neg (fun h => htmp h.1)
  unfold StorageManager.persistMetadata Fs.truncate Fs.append
  simp only [Prog.run_bind, Prog.run_ask, hopen]
  split
  · simp only [Prog.run_ask, handle_append htmp]
  · rfl

theorem run_evictLoop_faulty (fuel : Nat) (sm : StorageManager) (fs : FileSystem) :
    (StorageManager.evictLoop o fuel sm).run (f.handle tmp) fs =
      (StorageManager.evictLoop o fuel sm).run FileSystem.handle fs := by
  induction fuel generalizing sm fs with
  | zero => rfl
  | succ fuel ih =>
      unfold StorageManager.evictLoop
      split
      · cases StorageManager.lruVictim o sm with
        | none => rfl
        | some victim => exact ih _ (fs.remove (sm.chunkPath victim.1))
      · rfl

theorem run_enforceLimit_faulty {sm sm' : StorageManager} (hbase : sm'.baseDir = sm.baseDir)
    (hash : Bytes) (fs : FileSystem) :
    (sm'.enforceLimit o).run (f.handle (sm.tmpPath hash)) fs =
      (sm'.enforceLimit o).run FileSystem.handle fs := by
  unfold StorageManager.enforceLimit
  split
  · rfl
  · obtain ⟨fs', hevict⟩ := StorageManager.run_evictLoop FileSystem.handle o
      sm'.metaMap.entries.length sm' fs
    have hbase' := (evictedFrom o sm'.metaMap.entries.length sm').baseDir.trans hbase
    rw [Prog.run_bind_of_ok ((run_evictLoop_faulty _ sm' fs).trans hevict),
      Prog.run_bind_of_ok hevict, Prog.run_bind, Prog.run_bind,
      run_persistMetadata_faulty (metaPath_ne_tmpPath hbase' hash)]
    rfl

theorem exists_files_remove (fs : FileSystem) (raw : Bytes) :
    ∃ files, fs.remove raw = { fs with files := files } ∧ ∀ path,
      fs.blocked path = false → fs.fileAt raw ≠ some path →
        files.lookup path = fs.files.lookup path := by
  unfold FileSystem.remove
  cases hraw : fs.resolve raw with
  | none => exact ⟨fs.files, rfl, fun _ _ _ => rfl⟩
  | some place =>
      refine ⟨_, rfl, fun path hfile hpath => AList.lookup_erase_ne fun heq => hpath ?_⟩
      exact fileAt_eq_some.mpr ⟨heq ▸ hraw, hfile⟩

theorem run_evictLoop_files (o : Orders) (fuel : Nat) (sm : StorageManager) (fs : FileSystem) :
    ∃ files, (StorageManager.evictLoop o fuel sm).run FileSystem.handle fs =
        (.ok (sm.evicted o fuel), { fs with files := files }) ∧
      ∀ path, fs.blocked path = false →
        (∀ victim ∈ sm.metaMap, victim ∉ (sm.evicted o fuel).metaMap →
          fs.fileAt (sm.chunkPath victim) ≠ some path) →
        files.lookup path = fs.files.lookup path := by
  induction fuel generalizing sm fs with
  | zero => exact ⟨fs.files, rfl, fun _ _ _ => rfl⟩
  | succ fuel ih =>
      unfold StorageManager.evictLoop StorageManager.evicted
      split
      · cases hvictim : sm.lruVictim o with
        | none => exact ⟨fs.files, rfl, fun _ _ _ => rfl⟩
        | some victim =>
            obtain ⟨files, hremove, hkept⟩ := exists_files_remove fs (sm.chunkPath victim.1)
            obtain ⟨files', hrun, hkept'⟩ := ih { sm with
              usedBytes := sm.usedBytes - victim.2.size
              metaMap := sm.metaMap.erase victim.1 } { fs with files := files }
            refine ⟨files', ?_, fun path hfile hpath => ?_⟩
            · simp only
              refine (Prog.run_bind_of_ok (Fs.run_remove _ _) _).trans ?_
              rw [hremove]
              exact hrun
            · have hgone : victim.1 ∉ (StorageManager.evicted o fuel { sm with
                  usedBytes := sm.usedBytes - victim.2.size
                  metaMap := sm.metaMap.erase victim.1 }).metaMap := by
                intro hmem
                obtain ⟨m, hlookup⟩ := Option.isSome_iff_exists.mp (AList.lookup_isSome.mpr hmem)
                have hrest := (evictedFrom o fuel _).lookup hlookup
                simp [AList.lookup_erase] at hrest
              have hresident := MetaMap.fst_mem (lruVictim_spec hvictim).1
              have hsurvives : files'.lookup path = files.lookup path := by
                apply hkept' path hfile
                intro other hother hlost
                rw [fileAt_files]
                exact hpath other (AList.mem_erase.mp hother).2 hlost
              calc files'.lookup path = files.lookup path := hsurvives
                _ = fs.files.lookup path := hkept path hfile (hpath _ hresident hgone)
      · exact ⟨fs.files, rfl, fun _ _ _ => rfl⟩

theorem run_enforceLimit_files (o : Orders) (sm : StorageManager) (fs : FileSystem) :
    ∃ files, (sm.enforceLimit o).run FileSystem.handle fs =
        (.ok (sm.limited o), { fs with files := files }) ∧
      ∀ path, fs.blocked path = false → (sm.maxBytes ≠ 0 → fs.fileAt sm.metaPath ≠ some path) →
        (∀ victim ∈ sm.metaMap, victim ∉ (sm.limited o).metaMap →
          fs.fileAt (sm.chunkPath victim) ≠ some path) →
        files.lookup path = fs.files.lookup path := by
  unfold StorageManager.enforceLimit StorageManager.limited
  split
  · exact ⟨fs.files, rfl, fun _ _ _ _ => rfl⟩
  · rename_i hlimit
    obtain ⟨files, hevict, hkept⟩ := run_evictLoop_files o sm.metaMap.entries.length sm fs
    obtain ⟨files', hsaved, hkept'⟩ := StorageManager.exists_files_saved o
      (sm.evicted o sm.metaMap.entries.length) { fs with files := files }
    refine ⟨files', ?_, fun path hfile hmeta hvictims => ?_⟩
    · rw [Prog.run_bind_of_ok hevict,
        Prog.run_bind_of_ok (StorageManager.run_persistMetadata_paths o _ _), hsaved]
      rfl
    · have hother : FileSystem.fileAt { fs with files := files }
          (sm.evicted o sm.metaMap.entries.length).metaPath ≠ some path := by
        rw [fileAt_files, StorageManager.metaPath, (evictedFrom o _ sm).baseDir]
        exact hmeta hlimit
      calc files'.lookup path = files.lookup path := hkept' path hother
        _ = fs.files.lookup path := hkept path hfile hvictims

/-- **A store with failing steps**, by where its temporary file is opened and moved. -/
theorem run_storeChunk_faulty (f : Faults) (o : Orders) (s : StorageManager × FileSystem)
    {id : Bytes} (hne : id ≠ []) (data : Bytes) :
    (s.1.storeChunk o id data).run (f.handle (s.1.tmpPath id)) s.2 =
      match f.opened s id, f.moved s id with
      | none, _ => (.error (StorageManager.openFailed id, s.1.release id), s.2)
      | some tmp, none => (.error (StorageManager.renameFailed id, s.1.release id),
          { s.2 with files := (s.2.files.insert tmp (data.take f.keeps)).erase tmp })
      | some tmp, some target => ((s.1.stored id data).enforceLimit o).run FileSystem.handle
          { s.2 with
            files := StorageManager.written s.2.files tmp target (data.take f.keeps) } := by
  rw [StorageManager.run_storeChunk (f.handle (s.1.tmpPath id)) o s.1 hne data s.2,
    StorageManager.tmpPath_release, StorageManager.chunkPath_release]
  simp only [Faults.handle, FileSystem.handle, true_and, ↓reduceIte]
  unfold Faults.opened Faults.moved
  cases hopens : f.opens with
  | false => rfl
  | true =>
      simp only [Bool.true_eq_false, ↓reduceIte]
      rw [truncate_eq]
      cases htmp : s.2.fileAt (s.1.tmpPath id) with
      | none => rfl
      | some tmp =>
          have htmp' := (fileAt_files s.2 (s.2.files.insert tmp (data.take f.keeps))
            (s.1.tmpPath id)).trans htmp
          simp only [append_truncated htmp]
          cases hrenames : f.renames with
          | false => simp only [↓reduceIte, Bool.false_eq_true, remove_of_fileAt htmp']
          | true =>
              simp only [Bool.true_eq_false, ↓reduceIte]
              rw [rename_eq htmp' (AList.lookup_insert _), fileAt_files]
              cases s.2.fileAt (s.1.chunkPath id) with
              | none => simp only [remove_of_fileAt htmp']
              | some target =>
                  have hbase : (s.1.stored id data).baseDir = s.1.baseDir :=
                    StorageManager.baseDir_release s.1 id
                  exact run_enforceLimit_faulty hbase id _

end Runs

/-! ### All or nothing -/

/-- The store throws and has changed nothing, or it returns and the chunk is there, if it was not
evicted, and the books are right. -/
def AllOrNothing (s : StorageManager × FileSystem) (id data : Bytes)
    (after : Bool × StorageManager × FileSystem) : Prop :=
  (after.1 = false ∧ after.2.1.metaMap = s.1.metaMap ∧ after.2.1.usedBytes = s.1.usedBytes ∧
      after.2.1.accessCounter = s.1.accessCounter ∧
      ∀ other, after.2.2.read (s.1.chunkPath other) = s.2.read (s.1.chunkPath other)) ∨
    (after.1 = true ∧
      (id ∈ after.2.1.metaMap → after.2.2.read (s.1.chunkPath id) = .file data) ∧
      Exact after.2.1)

/-- There is nothing to take off the counter for the id. -/
def Weightless (sm : StorageManager) (id : Bytes) : Prop :=
  ∀ m, sm.metaMap.lookup id = some m → m.size = 0

/-- The limit has no room for the chunk even alone. -/
def TooLarge (sm : StorageManager) (data : Bytes) : Prop :=
  sm.maxBytes ≠ 0 ∧ sm.maxBytes.toNat < data.length

/-- The file of the id is neither the metadata nor the file of another resident chunk. -/
structure OwnFile (s : StorageManager × FileSystem) (id : Bytes) : Prop where
  metadata : s.2.fileAt s.1.metaPath ≠ s.2.fileAt (s.1.chunkPath id)
  chunks : ∀ other ∈ s.1.metaMap, other ≠ id →
    s.2.fileAt (s.1.chunkPath other) ≠ s.2.fileAt (s.1.chunkPath id)

/-- The faults do no harm to this store. -/
def Faults.Harmless (f : Faults) (s : StorageManager × FileSystem) (id data : Bytes) : Prop :=
  id = [] ∨
    match f.opened s id, f.moved s id with
    | none, _ => Weightless s.1 id
    | some tmp, none => Weightless s.1 id ∧ s.2.files.lookup tmp = none
    | some _, some _ => (s.1.release id).usedBytes.toNat + data.length < 2 ^ 64 ∧
        (TooLarge s.1 data ∨ data.length ≤ f.keeps ∧ (s.1.maxBytes = 0 ∨ OwnFile s id))

section Stored

variable {sm : StorageManager} {id data : Bytes}

theorem Exact.stored (hexact : Exact sm)
    (hfits : (sm.release id).usedBytes.toNat + data.length < 2 ^ 64) :
    Exact (sm.stored id data) := by
  have htotal := totalSize_erase sm.metaMap id
  have hused := hexact.covers.usedBytes_release id
  obtain ⟨hstored, hentries⟩ := totals_stored hfits
  unfold Exact at hexact ⊢
  omega

theorem lookup_stored (sm : StorageManager) (id data : Bytes) :
    (sm.stored id data).metaMap.lookup id =
      some ⟨UInt64.ofNat data.length, (sm.release id).accessCounter + 1⟩ :=
  AList.lookup_insert _

theorem maxBytes_stored (sm : StorageManager) (id data : Bytes) :
    (sm.stored id data).maxBytes = sm.maxBytes :=
  maxBytes_release sm id

theorem accessCounter_release (sm : StorageManager) (id : Bytes) :
    (sm.release id).accessCounter = sm.accessCounter := by
  unfold StorageManager.release
  split <;> rfl

theorem mem_stored {other : Bytes} (hother : other ∈ (sm.stored id data).metaMap)
    (hne : other ≠ id) : other ∈ sm.metaMap := by
  unfold StorageManager.stored StorageManager.record at hother
  rw [StorageManager.metaMap_release] at hother
  exact ((AList.mem_insert _).mp hother).resolve_left hne

theorem mem_limited_stored (hexact : Exact sm) (o : Orders)
    (hfits : (sm.release id).usedBytes.toNat + data.length < 2 ^ 64)
    (hissued : ∀ e ∈ sm.metaMap.entries, e.2.lastAccess ≤ sm.accessCounter)
    (hcounter : sm.accessCounter.toNat + 1 < 2 ^ 64) (hsmall : ¬ TooLarge sm data) :
    id ∈ ((sm.stored id data).limited o).metaMap := by
  have hsize : (UInt64.ofNat data.length).toNat = data.length :=
    UInt64.toNat_ofNat_of_lt' (show data.length < 2 ^ 64 by omega)
  rw [StorageManager.limited, maxBytes_stored]
  split
  · exact AList.lookup_isSome.mp (by rw [lookup_stored]; rfl)
  · rename_i hlimit
    have hle : UInt64.ofNat data.length ≤ (sm.stored id data).maxBytes := by
      rw [maxBytes_stored, UInt64.le_iff_toNat_le, hsize]
      exact Nat.not_lt.mp fun hlt => hsmall ⟨hlimit, hlt⟩
    refine (hexact.stored hfits).mem_evicted o (lookup_stored sm id data) hle
      (fun e he hne => ?_) _
    -- the other entries are older
    have hentries : (sm.stored id data).metaMap.entries =
        ⟨id, ⟨UInt64.ofNat data.length, (sm.release id).accessCounter + 1⟩⟩ ::
          (sm.metaMap.erase id).entries := by
      unfold StorageManager.stored StorageManager.record
      rw [StorageManager.metaMap_release]
      rfl
    rw [hentries] at he
    rcases List.mem_cons.mp he with rfl | he
    · exact absurd rfl hne
    · have hold := hissued e ((MetaMap.erase_sublist _ _).subset he)
      rw [UInt64.le_iff_toNat_le] at hold
      simp only [accessCounter_release]
      rw [UInt64.lt_iff_toNat_lt, toNat_succ hcounter]
      omega

end Stored

section Main

variable {f : Faults} {s : StorageManager × FileSystem} {id data : Bytes}

theorem store_nil (f : Faults) (o : Orders) (s : StorageManager × FileSystem) (data : Bytes) :
    f.store o s [] data = (false, s) := rfl

theorem store_not_opened (o : Orders) (hne : id ≠ []) (hopened : f.opened s id = none) :
    f.store o s id data = (false, s.1.release id, s.2) := by
  have hrun := run_storeChunk_faulty f o s hne data
  rw [hopened] at hrun
  simp only [Faults.store, StoreOp.outcome, StoreOp.prog, hrun]

theorem store_not_moved (o : Orders) (hne : id ≠ []) {tmp : Path}
    (hopened : f.opened s id = some tmp) (hmoved : f.moved s id = none) :
    f.store o s id data = (false, s.1.release id,
      { s.2 with files := (s.2.files.insert tmp (data.take f.keeps)).erase tmp }) := by
  have hrun := run_storeChunk_faulty f o s hne data
  rw [hopened, hmoved] at hrun
  simp only [Faults.store, StoreOp.outcome, StoreOp.prog, hrun]

theorem fileAt_of_moved {target : Path} (hmoved : f.moved s id = some target) :
    s.2.fileAt (s.1.chunkPath id) = some target := by
  unfold Faults.moved at hmoved
  split at hmoved
  · exact hmoved
  · cases hmoved

theorem fileAt_of_opened {tmp : Path} (hopened : f.opened s id = some tmp) :
    s.2.fileAt (s.1.tmpPath id) = some tmp := by
  unfold Faults.opened at hopened
  split at hopened
  · exact hopened
  · cases hopened

/-- A store that returns: the bytes that were written are in the file, unless the limit removes it
or writes over it. -/
theorem store_moved (o : Orders) (hne : id ≠ []) {tmp target : Path}
    (hopened : f.opened s id = some tmp) (hmoved : f.moved s id = some target) :
    ∃ fs', f.store o s id data = (true, (s.1.stored id data).limited o, fs') ∧
      (id ∈ ((s.1.stored id data).limited o).metaMap → s.1.maxBytes = 0 ∨ OwnFile s id →
        fs'.read (s.1.chunkPath id) = .file (data.take f.keeps)) := by
  have hrun := run_storeChunk_faulty f o s hne data
  rw [hopened, hmoved] at hrun
  have htarget := fileAt_of_moved hmoved
  obtain ⟨files, hlimit, hkept⟩ := run_enforceLimit_files o (s.1.stored id data)
    { s.2 with files := StorageManager.written s.2.files tmp target (data.take f.keeps) }
  have hstore : f.store o s id data =
      (true, (s.1.stored id data).limited o, { s.2 with files := files }) := by
    simp only [Faults.store, StoreOp.outcome, StoreOp.prog, hrun, hlimit]
  refine ⟨_, hstore, fun hresident hown => ?_⟩
  have hbase : (s.1.stored id data).baseDir = s.1.baseDir := StorageManager.baseDir_release s.1 id
  have hpath : ∀ other, (s.1.stored id data).chunkPath other = s.1.chunkPath other := fun _ => by
    simp only [StorageManager.chunkPath, StorageManager.chunksDir, hbase]
  have hplace := fileAt_files s.2 (StorageManager.written s.2.files tmp target (data.take f.keeps))
  have hfile : files.lookup target = some (data.take f.keeps) := by
    refine (hkept target (fileAt_eq_some.mp htarget).2 ?_ ?_).trans ?_
    · intro hlimit'
      rw [hplace, StorageManager.metaPath, hbase]
      rcases hown with hzero | hown
      · exact absurd ((maxBytes_stored s.1 id data).trans hzero) hlimit'
      · rw [← htarget]
        exact hown.metadata
    · intro victim hvictim hlost
      have hother : victim ≠ id := fun heq => hlost (heq ▸ hresident)
      rw [hplace, hpath]
      rcases hown with hzero | hown
      · rw [StorageManager.limited, if_pos ((maxBytes_stored s.1 id data).trans hzero)] at hlost
        exact absurd hvictim hlost
      · rw [← htarget]
        exact hown.chunks victim (mem_stored hvictim hother) hother
    · rw [StorageManager.lookup_written, if_pos rfl]
  rw [read_of_fileAt ((fileAt_files s.2 files _).trans htarget), hfile]
  rfl

theorem weightless_iff (hexact : Exact s.1) :
    (s.1.release id).usedBytes = s.1.usedBytes ↔ Weightless s.1 id := by
  rw [StorageManager.usedBytes_release_eq_iff]
  refine forall_congr' fun m => ⟨fun hsize hlookup => ?_, fun hzero hlookup =>
    Or.inl (hzero hlookup)⟩
  rcases hsize hlookup with hzero | hused
  · exact hzero
  · have hle := MetaMap.size_le_total hlookup
    have htotal : s.1.usedBytes.toNat = totalSize s.1.metaMap.entries := hexact
    rw [← htotal, hused] at hle
    exact UInt64.toNat_inj.mp (Nat.le_zero.mp hle)

theorem allOrNothing_not_opened_iff (hexact : Exact s.1) (o : Orders) (hne : id ≠ [])
    (hopened : f.opened s id = none) :
    AllOrNothing s id data (f.store o s id data) ↔ Weightless s.1 id := by
  rw [store_not_opened o hne hopened, ← weightless_iff hexact, AllOrNothing]
  simp only [Bool.false_eq_true, false_and, or_false, true_and, implies_true, and_true,
    StorageManager.metaMap_release, accessCounter_release]

theorem allOrNothing_not_moved_iff (hexact : Exact s.1) (o : Orders) (hne : id ≠ []) {tmp : Path}
    (hopened : f.opened s id = some tmp) (hmoved : f.moved s id = none) :
    AllOrNothing s id data (f.store o s id data) ↔
      Weightless s.1 id ∧ s.2.files.lookup tmp = none := by
  rw [store_not_moved o hne hopened hmoved, ← weightless_iff hexact,
    ← StorageManager.read_abandoned_iff (fileAt_of_opened hopened) (data.take f.keeps),
    AllOrNothing]
  simp only [Bool.false_eq_true, false_and, or_false, true_and,
    StorageManager.metaMap_release, accessCounter_release]

theorem allOrNothing_of_moved (hexact : Exact s.1) (o : Orders) (hne : id ≠ [])
    {tmp target : Path} (hopened : f.opened s id = some tmp) (hmoved : f.moved s id = some target)
    (hfits : (s.1.release id).usedBytes.toNat + data.length < 2 ^ 64)
    (hkept : TooLarge s.1 data ∨ data.length ≤ f.keeps ∧ (s.1.maxBytes = 0 ∨ OwnFile s id)) :
    AllOrNothing s id data (f.store o s id data) := by
  obtain ⟨fs', hstore, hread⟩ := @store_moved f s id data o hne tmp target hopened hmoved
  rw [hstore]
  refine Or.inr ⟨rfl, fun hresident => ?_, (hexact.stored hfits).limited o⟩
  rcases hkept with ⟨hlimit, hlarge⟩ | ⟨hall, hown⟩
  · have hsize : (UInt64.ofNat data.length).toNat = data.length :=
      UInt64.toNat_ofNat_of_lt' (show data.length < 2 ^ 64 by omega)
    refine absurd hresident ((hexact.stored hfits).not_mem_limited o
      ((maxBytes_stored s.1 id data).trans_ne hlimit) (lookup_stored s.1 id data) ?_)
    rw [maxBytes_stored, UInt64.lt_iff_toNat_lt, hsize]
    exact hlarge
  · rw [hread hresident hown, List.take_of_length_le hall]

/-- An ordinary store: no stamp is ahead of the counter, neither counter wraps, and the id has a
file of its own. -/
structure OrdinaryStore (s : StorageManager × FileSystem) (id data : Bytes) : Prop where
  issued : ∀ e ∈ s.1.metaMap.entries, e.2.lastAccess ≤ s.1.accessCounter
  counter : s.1.accessCounter.toNat + 1 < 2 ^ 64
  fits : (s.1.release id).usedBytes.toNat + data.length < 2 ^ 64
  own : OwnFile s id

theorem kept_of_allOrNothing (hexact : Exact s.1) (ordinary : OrdinaryStore s id data) (o : Orders)
    (hne : id ≠ []) {tmp target : Path} (hopened : f.opened s id = some tmp)
    (hmoved : f.moved s id = some target)
    (hall : AllOrNothing s id data (f.store o s id data)) :
    TooLarge s.1 data ∨ data.length ≤ f.keeps ∧ (s.1.maxBytes = 0 ∨ OwnFile s id) := by
  obtain ⟨fs', hstore, hread⟩ := @store_moved f s id data o hne tmp target hopened hmoved
  rw [hstore] at hall
  by_cases hlarge : TooLarge s.1 data
  · exact Or.inl hlarge
  have hresident :=
    mem_limited_stored hexact o ordinary.fits ordinary.issued ordinary.counter hlarge
  rcases hall with ⟨hthrew, -⟩ | ⟨-, hfile, -⟩
  · cases hthrew
  · have hbytes := (hread hresident (Or.inr ordinary.own)).symm.trans (hfile hresident)
    have htake : data.take f.keeps = data := Opened.file.inj hbytes
    have hlen := congrArg List.length htake
    rw [List.length_take] at hlen
    exact Or.inr ⟨by omega, Or.inr ordinary.own⟩

/-- **A store with failing steps is all or nothing exactly if the faults do no harm.** That they do
none is always enough; and for an ordinary store it is needed. -/
theorem store_all_or_nothing (f : Faults) (o : Orders) (s : StorageManager × FileSystem)
    (hexact : Exact s.1) (id data : Bytes) :
    (f.Harmless s id data → AllOrNothing s id data (f.store o s id data)) ∧
      (OrdinaryStore s id data → AllOrNothing s id data (f.store o s id data) →
        f.Harmless s id data) := by
  unfold Faults.Harmless
  by_cases hne : id = []
  · subst hne
    refine ⟨fun _ => ?_, fun _ _ => Or.inl rfl⟩
    rw [store_nil]
    exact Or.inl ⟨rfl, rfl, rfl, rfl, fun _ => rfl⟩
  rw [or_iff_right hne]
  cases hopened : f.opened s id with
  | none =>
      have hiff := @allOrNothing_not_opened_iff f s id data hexact o hne hopened
      exact ⟨hiff.mpr, fun _ => hiff.mp⟩
  | some tmp =>
      cases hmoved : f.moved s id with
      | none =>
          have hiff := @allOrNothing_not_moved_iff f s id data hexact o hne tmp hopened hmoved
          exact ⟨hiff.mpr, fun _ => hiff.mp⟩
      | some target =>
          exact ⟨fun hkept => allOrNothing_of_moved hexact o hne hopened hmoved hkept.1 hkept.2,
            fun ordinary hall => ⟨ordinary.fits,
              kept_of_allOrNothing hexact ordinary o hne hopened hmoved hall⟩⟩

end Main

theorem ordinaryStore_of_ledger {s : Store} {dir : Path} (layout : Layout s.sm.baseDir dir s.fs)
    (hnamed : s.sm.Named) (ledger : Ledger s.sm) {id data : Bytes} (hid : IsHashHex id)
    (hfits : (StoreOp.storeChunk id data).Fits s.sm) : OrdinaryStore (s.sm, s.fs) id data where
  issued e he := (ledger.issued e he).2
  counter := hfits.2
  fits := hfits.1
  own :=
    { metadata := by
        simp only [fileAt_chunkPath layout hid.plainName, StorageManager.metaPath,
          layout.fileAt_metadata]
        exact fun heq => chunkAt_ne_metadataAt dir id (Option.some_injective _ heq).symm
      chunks := fun other hother hne => by
        simp only [fileAt_chunkPath layout hid.plainName,
          fileAt_chunkPath layout (hnamed other hother).plainName]
        exact fun heq => hne ((chunkAt_injective dir).mp (Option.some_injective _ heq)) }

/-- A new peer on which the temporary file does not open. -/
theorem unopened_store_changes_nothing :
    AllOrNothing (newPeer.sm, newPeer.fs) someId (str "data")
      (Faults.store ⟨false, 0, true⟩ default (newPeer.sm, newPeer.fs) someId (str "data")) := by
  have hnone : newPeer.sm.metaMap.lookup someId = none := by decide +kernel
  have hweightless : Weightless newPeer.sm someId := fun m hm => by
    rw [hnone] at hm
    cases hm
  exact (store_all_or_nothing ⟨false, 0, true⟩ default (newPeer.sm, newPeer.fs)
    (by decide +kernel) someId (str "data")).1 (Or.inr hweightless)

def storedPeer : Store := (newPeer.step default (.storeChunk someId (str "data"))).2

/-- Four bytes are taken off for a chunk whose new temporary file does not open. -/
theorem unopened_overwrite_takes_bytes_off :
    ¬ ∀ (s : Store) (dir : Path), Layout s.sm.baseDir dir s.fs → Exact s.sm →
      FilesAgree (s.view dir) → ∀ (f : Faults) (o : Orders) (id data : Bytes),
        AllOrNothing (s.sm, s.fs) id data (f.store o (s.sm, s.fs) id data) := by
  intro hall
  obtain ⟨layout, faithful⟩ := faithful_of_run bareDisk_empty (by decide)
    (Runs.step default (.storeChunk someId (str "data")) Runs.start firstStore_ordinary)
  rcases hall storedPeer [str "peer"] layout faithful.ledger.used faithful.files
    ⟨false, 0, true⟩ default someId (str "more") with ⟨-, -, hused, -⟩ | ⟨hreturned, -⟩
  · exact absurd hused (by decide +kernel)
  · exact absurd hreturned (by decide +kernel)

end DecentStore
