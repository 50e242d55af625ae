import DecentStore.Storage

/-!
# The store on any environment

What an operation does to the object, and which calls it makes, follows from the replies alone. So
here the calls are answered by any handler: a file system that works, one that fails now and then,
or one that stops.
-/

namespace DecentStore

open Bytes Posix Interaction

namespace StorageManager

variable {σ : Type} (h : Handler FsReply σ) (o : Orders)

def evicted : Nat → StorageManager → StorageManager
  | 0, sm => sm
  | fuel + 1, sm =>
      if sm.maxBytes < sm.usedBytes then
        match lruVictim o sm with
        | none => sm
        | some victim => evicted fuel { sm with
            usedBytes := sm.usedBytes - victim.2.size
            metaMap := sm.metaMap.erase victim.1 }
      else sm

def limited (sm : StorageManager) : StorageManager :=
  if sm.maxBytes = 0 then sm else evicted o sm.metaMap.entries.length sm

theorem run_persistMetadata (sm : StorageManager) (env : σ) :
    ∃ env', (persistMetadata o sm).run h env = (.ok (), env') := by
  unfold persistMetadata Fs.truncate
  rw [Prog.run_bind_of_ok (Prog.run_ask h env (FsCall.truncate sm.metaPath))]
  split
  · exact ⟨_, rfl⟩
  · exact ⟨_, rfl⟩

theorem run_evictLoop (fuel : Nat) (sm : StorageManager) (env : σ) :
    ∃ env', (evictLoop o fuel sm).run h env = (.ok (evicted o fuel sm), env') := by
  induction fuel generalizing sm env with
  | zero => exact ⟨env, rfl⟩
  | succ fuel ih =>
      unfold evictLoop evicted
      split
      · cases lruVictim o sm with
        | none => exact ⟨env, rfl⟩
        | some victim => exact ih _ _
      · exact ⟨env, rfl⟩

theorem run_enforceLimit (sm : StorageManager) (env : σ) :
    ∃ env', (sm.enforceLimit o).run h env = (.ok (sm.limited o), env') := by
  unfold enforceLimit limited
  split
  · exact ⟨env, rfl⟩
  · obtain ⟨env₁, hevict⟩ := run_evictLoop h o sm.metaMap.entries.length sm env
    obtain ⟨env₂, hpersist⟩ :=
      run_persistMetadata h o (evicted o sm.metaMap.entries.length sm) env₁
    exact ⟨env₂, by rw [Prog.run_bind_of_ok hevict, Prog.run_bind_of_ok hpersist]; rfl⟩

theorem metaMap_release (sm : StorageManager) (hash : Bytes) :
    (sm.release hash).metaMap = sm.metaMap := by
  unfold release
  split <;> rfl

theorem mem_touch (sm : StorageManager) (hash id : Bytes) :
    id ∈ (sm.touch hash).metaMap ↔ id ∈ sm.metaMap := by
  unfold StorageManager.touch
  cases hlookup : sm.metaMap.lookup hash with
  | none => rfl
  | some m =>
      have hmem : hash ∈ sm.metaMap := AList.lookup_isSome.mp (by rw [hlookup]; rfl)
      simp only [AList.mem_insert]
      exact ⟨fun h => h.elim (fun heq => heq ▸ hmem) (fun h => h), Or.inr⟩

theorem baseDir_release (sm : StorageManager) (hash : Bytes) :
    (sm.release hash).baseDir = sm.baseDir := by
  unfold release
  split <;> rfl

theorem usedBytes_release_eq_iff (sm : StorageManager) (hash : Bytes) :
    (sm.release hash).usedBytes = sm.usedBytes ↔
      ∀ m, sm.metaMap.lookup hash = some m → m.size = 0 ∨ sm.usedBytes = 0 := by
  unfold StorageManager.release
  cases hlookup : sm.metaMap.lookup hash with
  | none => simp
  | some m =>
      simp only [Option.some.injEq, forall_eq']
      split
      · rename_i hle
        rw [← UInt64.toNat_inj, ← UInt64.toNat_inj, ← UInt64.toNat_inj,
          UInt64.toNat_sub_of_le _ _ hle]
        rw [UInt64.le_iff_toNat_le] at hle
        simp only [UInt64.toNat_zero]
        omega
      · rename_i hgt
        refine ⟨fun hzero => Or.inr hzero.symm, ?_⟩
        rintro (hsize | hused)
        · exact absurd (hsize ▸ UInt64.zero_le) hgt
        · exact hused.symm

def openFailed (hash : Bytes) : Exc :=
  .runtimeError (str "storeChunk: failed to open temp file for " ++ hash)

def renameFailed (hash : Bytes) : Exc :=
  .runtimeError (str "storeChunk: rename failed for " ++ hash ++ str ": Success")

def tmpPath (sm : StorageManager) (hash : Bytes) : Bytes := sm.chunkPath hash ++ str ".tmp"

/-- The object before the limit is looked at. -/
def stored (sm : StorageManager) (hash data : Bytes) : StorageManager :=
  (sm.release hash).record hash (UInt64.ofNat data.length)

/-- **A store on any environment**: the temporary file is opened, written and renamed. -/
theorem run_storeChunk (sm : StorageManager) {hash : Bytes} (hne : hash ≠ []) (data : Bytes)
    (env : σ) :
    (sm.storeChunk o hash data).run h env =
      match h (.truncate ((sm.release hash).tmpPath hash)) env with
      | (false, env) => (.error (openFailed hash, sm.release hash), env)
      | (true, env) =>
          match h (.rename ((sm.release hash).tmpPath hash) ((sm.release hash).chunkPath hash))
              (h (.append ((sm.release hash).tmpPath hash) data) env).2 with
          | (false, env) => (.error (renameFailed hash, sm.release hash),
              (h (.remove ((sm.release hash).tmpPath hash)) env).2)
          | (true, env) => ((sm.stored hash data).enforceLimit o).run h env := by
  unfold storeChunk
  rw [if_neg hne]
  simp only [Fs.truncate, Fs.append, Fs.rename, Fs.remove, Prog.run_bind, Prog.run_ask, tmpPath]
  rcases h (.truncate ((sm.release hash).chunkPath hash ++ str ".tmp")) env with ⟨_ | _, env₁⟩
  · rfl
  · simp only [Bool.true_eq_false, ↓reduceIte, Prog.run_bind, Prog.run_ask]
    rcases h (.rename ((sm.release hash).chunkPath hash ++ str ".tmp")
      ((sm.release hash).chunkPath hash))
      (h (.append ((sm.release hash).chunkPath hash ++ str ".tmp") data) env₁).2 with
      ⟨_ | _, env₂⟩
    · rfl
    · rfl

theorem run_loadChunk (sm : StorageManager) (hash : Bytes) (env : σ) :
    (∃ e env', (sm.loadChunk o hash).run h env = (.error (e, sm), env')) ∨
      ∃ data env', (sm.loadChunk o hash).run h env = (.ok (data, sm.touch hash), env') := by
  unfold loadChunk Fs.read
  rw [Prog.run_bind_of_ok (Prog.run_ask h env (FsCall.read (sm.chunkPath hash)))]
  split
  · exact Or.inl ⟨_, _, rfl⟩
  · exact Or.inl ⟨_, _, rfl⟩
  · rename_i data _
    obtain ⟨env', hpersist⟩ := run_persistMetadata h o (sm.touch hash)
      (h (FsCall.read (sm.chunkPath hash)) env).2
    exact Or.inr ⟨data, env', by rw [Prog.run_bind_of_ok hpersist]; rfl⟩

def deleted (sm : StorageManager) (hash : Bytes) : StorageManager :=
  { sm.release hash with metaMap := sm.metaMap.erase hash }

theorem run_deleteChunk (sm : StorageManager) (hash : Bytes) (env : σ) :
    ∃ env', (sm.deleteChunk o hash).run h env = (.ok (sm.deleted hash), env') := by
  obtain ⟨env', hpersist⟩ := run_persistMetadata h o (sm.deleted hash)
    (h (FsCall.remove ((sm.deleted hash).chunkPath hash)) env).2
  have hremove : (Fs.remove ((sm.deleted hash).chunkPath hash) : FsProg Unit).run h env =
      (.ok (), (h (FsCall.remove ((sm.deleted hash).chunkPath hash)) env).2) := rfl
  exact ⟨env', (Prog.run_bind_of_ok hremove _).trans ((Prog.run_bind_of_ok hpersist _).trans rfl)⟩

end StorageManager

end DecentStore
