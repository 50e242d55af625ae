import DecentStore.Proof.StoreCalls
import DecentStore.Proof.StoreEviction

/-!
# The simulation

On a directory that is laid out, each operation of the store on the file system is the operation on
the view, and the directory stays laid out. The invariants of later files are about views.
-/

namespace DecentStore

open Bytes Posix FileSystem Interaction

/-! ### The operations of the object -/

namespace StorageManager

variable (o : Orders) (sm : StorageManager) {dir : Path} {fs : FileSystem}

theorem leaves_persistMetadata (layout : Layout sm.baseDir dir fs) :
    Leaves sm.baseDir dir (persistMetadata o sm) fs ()
      ((diskOf dir fs).save (metadataText o sm)) := by
  have hpath := layout.resolve_metadata
  refine ⟨{ fs with files := fs.files.insert (metadataAt dir) (metadataText o sm) }, ?_,
    layout.of_files _, diskOf_insert_metadata dir fs _⟩
  have hopen := truncate_of_resolve hpath layout.not_blocked_metadata
  have hpath' := (layout.of_files (fs.files.insert (metadataAt dir) [])).resolve_metadata
  have hwrite := @append_of_resolve _ _ (metadataText o sm) _ _ hpath' (AList.lookup_insert _)
  rw [AList.insert_insert, List.nil_append] at hwrite
  rw [persistMetadata, Prog.run_bind_of_ok (Fs.run_truncate _ _), metaPath, hopen]
  simp only [↓reduceIte, Fs.run_append, hwrite]

/-- Every id in the map is a hash. -/
def Named : Prop := ∀ hash ∈ sm.metaMap, IsHashHex hash

variable {sm}

theorem Named.erase (hnamed : sm.Named) {usedBytes : UInt64} (hash : Bytes) :
    Named { sm with usedBytes := usedBytes, metaMap := sm.metaMap.erase hash } :=
  fun other hother => hnamed other (AList.mem_erase.mp hother).2

theorem leaves_evictLoop (fuel : Nat) (hnamed : sm.Named) (layout : Layout sm.baseDir dir fs) :
    Leaves sm.baseDir dir (evictLoop o fuel sm) fs (View.evictLoop o fuel ⟨sm, diskOf dir fs⟩).sm
      (View.evictLoop o fuel ⟨sm, diskOf dir fs⟩).disk := by
  induction fuel generalizing sm fs with
  | zero => exact leaves_pure layout sm
  | succ fuel ih =>
      unfold evictLoop View.evictLoop
      split
      · cases hvictim : sm.lruVictim o with
        | none => exact leaves_pure layout sm
        | some victim =>
            have hhash := hnamed victim.1
              (MetaMap.fst_mem (lruVictim_spec hvictim).1)
            refine leaves_bind (leaves_remove layout (resolve_chunkPath layout hhash)) ?_
            intro fs' layout' hdisk
            have hrest := @ih { sm with
              usedBytes := sm.usedBytes - victim.2.size
              metaMap := sm.metaMap.erase victim.1 } fs' (hnamed.erase victim.1) layout'
            rw [hdisk] at hrest
            exact hrest
      · exact leaves_pure layout sm

theorem leaves_enforceLimit (hnamed : sm.Named) (layout : Layout sm.baseDir dir fs) :
    Leaves sm.baseDir dir (sm.enforceLimit o) fs (View.enforceLimit o ⟨sm, diskOf dir fs⟩).sm
      (View.enforceLimit o ⟨sm, diskOf dir fs⟩).disk := by
  unfold enforceLimit View.enforceLimit
  split
  · exact leaves_pure layout sm
  · refine leaves_bind (leaves_evictLoop o sm.metaMap.entries.length hnamed layout) ?_
    intro fs' layout' hdisk
    have hbase := (evictLoop_frame o sm.metaMap.entries.length ⟨sm, diskOf dir fs⟩).baseDir
    rw [← hbase] at layout' ⊢
    refine leaves_bind (leaves_persistMetadata o _ layout') ?_
    intro fs'' layout'' hdisk'
    rw [hdisk] at hdisk'
    exact ⟨fs'', rfl, layout'', hdisk'⟩

theorem Named.record (hnamed : sm.Named) {hash : Bytes} (hhash : IsHashHex hash)
    (newSize : UInt64) : ((sm.release hash).record hash newSize).Named := by
  intro other hother
  rcases (AList.mem_insert _).mp hother with rfl | hold
  · exact hhash
  · refine hnamed other ?_
    unfold release at hold
    split at hold <;> exact hold

theorem leaves_storeChunk (hnamed : sm.Named) (layout : Layout sm.baseDir dir fs) {hash : Bytes}
    (hhash : IsHashHex hash) (data : Bytes) :
    Leaves sm.baseDir dir (sm.storeChunk o hash data) fs
      (View.storeChunk o ⟨sm, diskOf dir fs⟩ hash data).sm
      (View.storeChunk o ⟨sm, diskOf dir fs⟩ hash data).disk := by
  have hbase := baseDir_release sm hash
  have hwritten : ∀ fs', Layout sm.baseDir dir fs' →
      diskOf dir fs' = ((diskOf dir fs).drop (hash ++ str ".tmp")).put hash data →
      Leaves sm.baseDir dir
        (((sm.release hash).record hash (UInt64.ofNat data.length)).enforceLimit o) fs'
        (View.storeChunk o ⟨sm, diskOf dir fs⟩ hash data).sm
        (View.storeChunk o ⟨sm, diskOf dir fs⟩ hash data).disk := by
    intro fs' layout' hdisk
    rw [← hbase] at layout'
    have hlimited := leaves_enforceLimit o (hnamed.record hhash (UInt64.ofNat data.length)) layout'
    rw [hdisk] at hlimited
    rw [← hbase]
    exact hlimited
  unfold storeChunk
  rw [if_neg hhash.ne_nil]
  rw [← hbase] at layout hwritten ⊢
  have htmp := resolve_tmpPath layout hhash
  refine leaves_bind (leaves_truncate layout htmp) fun fs₁ layout₁ hdisk₁ => ?_
  simp only [Bool.true_eq_false, ↓reduceIte]
  have hold₁ : (diskOf dir fs₁).chunk (hash ++ str ".tmp") = some [] := by
    rw [hdisk₁]
    simp [Disk.put]
  refine leaves_bind (leaves_append layout₁ (resolve_tmpPath layout₁ hhash) hold₁)
    fun fs₂ layout₂ hdisk₂ => ?_
  have hold₂ : (diskOf dir fs₂).chunk (hash ++ str ".tmp") = some data := by
    rw [hdisk₂]
    simp [Disk.put]
  refine leaves_bind (leaves_rename layout₂ (resolve_tmpPath layout₂ hhash)
    (resolve_chunkPath layout₂ hhash) hold₂) fun fs₃ layout₃ hdisk₃ => ?_
  simp only [Bool.true_eq_false, ↓reduceIte]
  refine hwritten fs₃ layout₃ ?_
  rw [hdisk₃, hdisk₂, hdisk₁]
  simp [Disk.put, Disk.drop, Function.update_idem]

theorem leaves_deleteChunk (layout : Layout sm.baseDir dir fs) {hash : Bytes}
    (hhash : IsHashHex hash) :
    Leaves sm.baseDir dir (sm.deleteChunk o hash) fs
      (View.deleteChunk o ⟨sm, diskOf dir fs⟩ hash).sm
      (View.deleteChunk o ⟨sm, diskOf dir fs⟩ hash).disk := by
  have hbase := baseDir_release sm hash
  unfold deleteChunk View.deleteChunk View.persist
  rw [← hbase] at layout ⊢
  refine leaves_bind (leaves_remove layout (@resolve_chunkPath
    { sm.release hash with metaMap := sm.metaMap.erase hash } _ _ layout _ hhash))
    fun fs₁ layout₁ hdisk₁ => ?_
  refine leaves_bind (leaves_persistMetadata o
    { sm.release hash with metaMap := sm.metaMap.erase hash } layout₁) fun fs₂ layout₂ hdisk₂ => ?_
  rw [hdisk₁] at hdisk₂
  exact ⟨fs₂, rfl, layout₂, hdisk₂⟩

theorem baseDir_touch (sm : StorageManager) (hash : Bytes) :
    (sm.touch hash).baseDir = sm.baseDir := by
  unfold touch
  split <;> rfl

theorem leaves_loadChunk (layout : Layout sm.baseDir dir fs) {hash data : Bytes}
    (hhash : IsHashHex hash) (hfile : (diskOf dir fs).chunk hash = some data) :
    Leaves sm.baseDir dir (sm.loadChunk o hash) fs
      (data, (View.loadChunk o ⟨sm, diskOf dir fs⟩ hash).sm)
      (View.loadChunk o ⟨sm, diskOf dir fs⟩ hash).disk := by
  have hbase := baseDir_touch sm hash
  have hread := read_of_resolve (resolve_chunkPath layout hhash) (layout.not_blocked_chunk hash)
  have hdata : fs.read (sm.chunkPath hash) = .file data := by
    rw [hread, show fs.files.lookup (chunkAt dir hash) = some data from hfile]
    rfl
  unfold loadChunk View.loadChunk View.persist
  obtain ⟨fs', hrun, layout', hdisk⟩ :=
    @leaves_persistMetadata o (sm.touch hash) dir fs (by rwa [hbase])
  refine ⟨fs', ?_, by rwa [hbase] at layout', hdisk⟩
  rw [Prog.run_bind_of_ok (Fs.run_read _ _), hdata]
  simp only [fileBuffer_file]
  rw [Prog.run_bind_of_ok hrun]
  rfl

theorem run_loadChunk_missing (layout : Layout sm.baseDir dir fs) {hash : Bytes}
    (hhash : IsHashHex hash) (hfile : (diskOf dir fs).chunk hash = none) :
    (sm.loadChunk o hash).run FileSystem.handle fs =
      (.error (.runtimeError (str "loadChunk: missing chunk " ++ hash), sm), fs) := by
  have hread := read_of_resolve (resolve_chunkPath layout hhash) (layout.not_blocked_chunk hash)
  have hnone : fs.read (sm.chunkPath hash) = .absent := by
    rw [hread, show fs.files.lookup (chunkAt dir hash) = none from hfile]
    rfl
  unfold loadChunk
  rw [Prog.run_bind_of_ok (Fs.run_read _ _), hnone]
  rfl

/-! ### Starting up -/

theorem scan_filesIn (o : Orders) (dir : Path) (fs : FileSystem) :
    (diskOf dir fs).Scan (o.directory.order (fs.filesIn (chunksAt dir))) := by
  have hperm := o.directory.perm (fs.filesIn (chunksAt dir))
  refine ⟨(hperm.map Prod.fst).nodup_iff.mpr (filesIn_names_nodup _), fun name size => ?_⟩
  rw [hperm.mem_iff]
  exact mem_filesIn

theorem baseDir_foldl_addScanned (files : List (Bytes × Nat)) (sm : StorageManager) :
    (files.foldl addScanned sm).baseDir = sm.baseDir := by
  induction files generalizing sm with
  | nil => rfl
  | cons file files ih => exact ih _

theorem leaves_rebuildMetadataFromDisk (baseDir : Bytes) (maxBytes : UInt64)
    (layout : Layout baseDir dir fs) :
    ∃ files, (diskOf dir fs).Scan files ∧
      Leaves baseDir dir (rebuildMetadataFromDisk o (fresh baseDir maxBytes)) fs
        (files.foldl addScanned (fresh baseDir maxBytes))
        (View.persist o ⟨files.foldl addScanned (fresh baseDir maxBytes), diskOf dir fs⟩).disk := by
  refine ⟨_, scan_filesIn o dir fs, ?_⟩
  have hlist := list_of_resolve layout.resolve_chunksDir layout.isDir_chunks
  have hbase := baseDir_foldl_addScanned (o.directory.order (fs.filesIn (chunksAt dir)))
    (fresh baseDir maxBytes)
  have hpersist := @leaves_persistMetadata o
    ((o.directory.order (fs.filesIn (chunksAt dir))).foldl addScanned (fresh baseDir maxBytes))
    dir fs (by rw [hbase]; exact layout)
  rw [hbase] at hpersist
  obtain ⟨fs', hrun, layout', hdisk⟩ := hpersist
  refine ⟨fs', ?_, layout', hdisk⟩
  rw [rebuildMetadataFromDisk, Prog.run_bind_of_ok (Fs.run_list _ _), chunksDir]
  simp only [fresh] at hlist ⊢
  rw [hlist]
  simp only
  exact (Prog.run_bind_of_ok hrun _).trans rfl

theorem run_init (baseDir : Bytes) (maxBytes : UInt64) (fs : FileSystem) :
    (init o (fresh baseDir maxBytes)).run FileSystem.handle fs =
      (loadMetadata o (fresh baseDir maxBytes)).run FileSystem.handle
        (((fs.createDirectories baseDir).createDirectories
          (baseDir ++ str "/chunks")).createDirectories (baseDir ++ str "/manifests")) := by
  rw [init, Prog.run_bind_of_ok (Fs.run_createDirectories _ _),
    Prog.run_bind_of_ok (Fs.run_createDirectories _ _),
    Prog.run_bind_of_ok (Fs.run_createDirectories _ _)]
  rfl

theorem createDirectories_of_layout {baseDir : Bytes} (layout : Layout baseDir dir fs) :
    ((fs.createDirectories baseDir).createDirectories
      (baseDir ++ str "/chunks")).createDirectories (baseDir ++ str "/manifests") = fs := by
  have hmanifests : fs.resolve (baseDir ++ str "/manifests") = some (manifestsAt dir) :=
    resolve_child layout.text layout.resolves layout.isDir_base (by decide)
  rw [createDirectories_of_isDir layout.resolves layout.isDir_base,
    createDirectories_of_isDir layout.resolve_chunksDir layout.isDir_chunks,
    createDirectories_of_isDir hmanifests layout.isDir_manifests]

theorem leaves_loadMetadata (baseDir : Bytes) (maxBytes : UInt64)
    (layout : Layout baseDir dir fs) :
    ∃ v, Boots o (fresh baseDir maxBytes) (diskOf dir fs) v ∧
      Leaves baseDir dir (loadMetadata o (fresh baseDir maxBytes)) fs v.sm v.disk := by
  have hread : fs.read (fresh baseDir maxBytes).metaPath =
      (diskOf dir fs).metadata.elim .absent .file :=
    read_of_resolve layout.resolve_metadata layout.not_blocked_metadata
  -- without a text, or with one that is not understood, the files are scanned
  have hrebuilds : (∀ text, (diskOf dir fs).metadata = some text →
        (fresh baseDir maxBytes).parseMetadata text = none) →
      ∃ v, Boots o (fresh baseDir maxBytes) (diskOf dir fs) v ∧
        Leaves baseDir dir (loadMetadata o (fresh baseDir maxBytes)) fs v.sm v.disk := by
    intro hlost
    obtain ⟨files, hscan, fs', hrun, hleft⟩ :=
      leaves_rebuildMetadataFromDisk o baseDir maxBytes layout
    refine ⟨_, .rebuild hlost hscan, fs', ?_, hleft⟩
    refine Eq.trans ?_ hrun
    rw [loadMetadata, Prog.run_bind_of_ok (Fs.run_read _ _), hread]
    cases htext : (diskOf dir fs).metadata with
    | none => rfl
    | some text => simp only [Option.elim_some, hlost text htext]
  cases htext : (diskOf dir fs).metadata with
  | none => exact hrebuilds (by simp [htext])
  | some text =>
      cases hparse : (fresh baseDir maxBytes).parseMetadata text with
      | none =>
          refine hrebuilds ?_
          rintro other hother
          cases htext.symm.trans hother
          exact hparse
      | some sm' =>
          refine ⟨_, .recover htext hparse, fs, ?_, layout, rfl⟩
          rw [loadMetadata, Prog.run_bind_of_ok (Fs.run_read _ _), hread, htext]
          simp only [Option.elim_some, hparse]
          rfl

end StorageManager

/-- The directories `init` makes in an empty directory. -/
def laidOut (dir : Path) (fs : FileSystem) : FileSystem :=
  { fs with dirs := manifestsAt dir :: chunksAt dir :: fs.dirs }

theorem EmptyDir.layout {base : Bytes} {dir : Path} {fs : FileSystem}
    (empty : EmptyDir base dir fs) : Layout base dir (laidOut dir fs) where
  text := empty.text
  resolves := resolve_cons (manifestsAt dir) (resolve_cons (chunksAt dir) empty.resolves)
  isDir_base := isDir_cons (manifestsAt dir) (isDir_cons (chunksAt dir) empty.isDir_base)
  isDir_chunks := by simp [isDir, laidOut]
  isDir_manifests := by simp [isDir, laidOut]
  below := by
    intro p hp hbelow
    simp only [laidOut, List.mem_cons] at hp
    rcases hp with hp | hp | hp
    · exact Or.inr (Or.inr hp)
    · exact Or.inr (Or.inl hp)
    · exact Or.inl (empty.no_dirs p hp hbelow)
  regular := empty.regular

theorem EmptyDir.createDirectories {base : Bytes} {dir : Path} {fs : FileSystem}
    (empty : EmptyDir base dir fs) :
    ((fs.createDirectories base).createDirectories (base ++ str "/chunks")).createDirectories
      (base ++ str "/manifests") = laidOut dir fs := by
  have hnew : ∀ name, dir ++ [name] ∉ fs.dirs := fun name hmem => by
    have heq := empty.no_dirs _ hmem (List.prefix_append _ _)
    simp at heq
  have hfile : ∀ name, fs.files.lookup (dir ++ [name]) = none := fun name =>
    empty.no_files _ (List.prefix_append _ _)
  have hregular : ∀ name, fs.unseekable.lookup (dir ++ [name]) = none := fun name =>
    empty.regular _ (List.prefix_append _ _)
  have hchunks := @createDirectories_child fs base (str "chunks") dir empty.text empty.resolves
    empty.isDir_base (by decide) (by simp [blocked, isDir, hnew, hregular]) (hfile _)
  have hbase := resolve_cons (chunksAt dir) empty.resolves
  have hdir := isDir_cons (chunksAt dir) empty.isDir_base
  have hother : dir ++ [str "manifests"] ≠ dir ++ [str "chunks"] := by
    simp only [ne_eq, List.append_cancel_left_eq, List.cons.injEq, and_true]
    decide
  have hmanifests := @createDirectories_child _ base (str "manifests") dir empty.text hbase hdir
    (by decide)
    (by simp [blocked, isDir, hnew, hregular, chunksAt, hother]) (hfile _)
  rw [createDirectories_of_isDir empty.resolves empty.isDir_base]
  exact (congrArg (fun fs' => FileSystem.createDirectories fs' (base ++ str "/manifests"))
    hchunks).trans hmanifests

/-! ### One operation -/

/-- The ids an operation is called with are hashes. -/
def StoreOp.HexId : StoreOp → Prop
  | .storeChunk hash _ => IsHashHex hash
  | .loadChunk hash => IsHashHex hash
  | .deleteChunk hash => IsHashHex hash
  | .setMaxBytes _ => True
  | .restart _ _ => True

def Store.view (dir : Path) (s : Store) : View := ⟨s.sm, diskOf dir s.fs⟩

theorem Store.exec_of_leaves {base : Bytes} {dir : Path} {fs : FileSystem}
    {prog : FsProg StorageManager} {sm : StorageManager} {d : Disk}
    (hprog : Leaves base dir prog fs sm d) :
    (exec prog fs).1 = .done ∧ (exec prog fs).2.view dir = ⟨sm, d⟩ ∧
      Layout base dir (exec prog fs).2.fs := by
  obtain ⟨fs', hrun, layout', hdisk⟩ := hprog
  have hexec : exec prog fs = (.done, ⟨sm, fs'⟩) := by rw [exec, hrun]
  rw [hexec]
  exact ⟨rfl, by rw [view, hdisk], layout'⟩

theorem parseMetadata_baseDir {sm sm' : StorageManager} {text : Bytes}
    (hparse : sm.parseMetadata text = some sm') :
    sm'.baseDir = sm.baseDir ∧ sm'.maxBytes = sm.maxBytes := by
  unfold StorageManager.parseMetadata at hparse
  simp only at hparse
  split at hparse
  · simp at hparse
  · cases hparse
    exact ⟨rfl, rfl⟩

theorem baseDir_enforceLimit (o : Orders) (v : View) :
    (v.enforceLimit o).sm.baseDir = v.sm.baseDir := by
  unfold View.enforceLimit
  split
  · rfl
  · exact (evictLoop_frame o _ v).baseDir

theorem Boots.baseDir {o : Orders} {sm : StorageManager} {d : Disk} {v : View}
    (hboot : Boots o sm d v) : v.sm.baseDir = sm.baseDir := by
  cases hboot with
  | recover htext hparse => exact (parseMetadata_baseDir hparse).1
  | rebuild hlost hscan => exact StorageManager.baseDir_foldl_addScanned _ _

theorem ViewStep.baseDir {o : Orders} {v v' : View} {op : StoreOp} {outcome : Outcome}
    (hstep : ViewStep o v op outcome v') : v'.sm.baseDir = v.sm.baseDir := by
  cases hstep with
  | storeChunk hash data =>
      calc (v.storeChunk o hash data).sm.baseDir = (v.write hash data).sm.baseDir :=
            baseDir_enforceLimit o _
        _ = v.sm.baseDir := StorageManager.baseDir_release v.sm hash
  | loadChunk hfile => exact StorageManager.baseDir_touch v.sm _
  | missing hfile => rfl
  | deleteChunk hash => exact StorageManager.baseDir_release v.sm hash
  | setMaxBytes bytes => exact baseDir_enforceLimit o _
  | restart hboot => exact hboot.baseDir

theorem boot_of_layout (o : Orders) {base : Bytes} {dir : Path} {fs : FileSystem}
    (layout : Layout base dir fs) (maxBytes : UInt64) :
    (Store.boot o base maxBytes fs).1 = .done ∧
      Boots o (.fresh base maxBytes) (diskOf dir fs)
        ((Store.boot o base maxBytes fs).2.view dir) ∧
      Layout base dir (Store.boot o base maxBytes fs).2.fs := by
  obtain ⟨v, hboot, fs', hrun, hleft⟩ :=
    StorageManager.leaves_loadMetadata o base maxBytes layout
  rw [← StorageManager.createDirectories_of_layout layout, ← StorageManager.run_init] at hrun
  obtain ⟨hout, hview, layout'⟩ := Store.exec_of_leaves ⟨fs', hrun, hleft⟩
  rw [Store.boot, ← StorageManager.fresh, hview]
  exact ⟨hout, hboot, layout'⟩

/-- **The simulation.** -/
theorem step_view (o : Orders) {op : StoreOp} {s : Store} {dir : Path} (hop : op.HexId)
    (hnamed : s.sm.Named) (layout : Layout s.sm.baseDir dir s.fs) :
    ViewStep o (s.view dir) op (s.step o op).1 ((s.step o op).2.view dir) ∧
      Layout (s.step o op).2.sm.baseDir dir (s.step o op).2.fs := by
  -- the object of the next state is that of its view, so the layout follows from the view's step
  suffices hsuff : ViewStep o (s.view dir) op (s.step o op).1 ((s.step o op).2.view dir) ∧
      Layout s.sm.baseDir dir (s.step o op).2.fs by
    exact ⟨hsuff.1, hsuff.1.baseDir ▸ hsuff.2⟩
  cases op with
  | storeChunk hash data =>
      obtain ⟨hout, hview, layout'⟩ := Store.exec_of_leaves
        (StorageManager.leaves_storeChunk o hnamed layout hop data)
      refine ⟨?_, layout'⟩
      rw [Store.step, hout, hview]
      exact .storeChunk hash data
  | loadChunk hash =>
      cases hfile : (diskOf dir s.fs).chunk hash with
      | none =>
          have hrun := StorageManager.run_loadChunk_missing o layout hop hfile
          simp only [Store.step, Store.execLoad, hrun]
          exact ⟨.missing hfile, layout⟩
      | some data =>
          obtain ⟨fs', hrun, layout', hdisk⟩ :=
            StorageManager.leaves_loadChunk o layout hop hfile
          have hview : Store.view dir ⟨((s.view dir).loadChunk o hash).sm, fs'⟩ =
              (s.view dir).loadChunk o hash := by
            rw [Store.view, hdisk]
            rfl
          simp only [Store.step, Store.execLoad, hrun]
          refine ⟨?_, layout'⟩
          have hload : ViewStep o (s.view dir) (.loadChunk hash) (.loaded data)
              ((s.view dir).loadChunk o hash) := .loadChunk hfile
          rw [← hview] at hload
          exact hload
  | deleteChunk hash =>
      obtain ⟨hout, hview, layout'⟩ := Store.exec_of_leaves
        (StorageManager.leaves_deleteChunk o layout hop)
      refine ⟨?_, layout'⟩
      rw [Store.step, hout, hview]
      exact .deleteChunk hash
  | setMaxBytes bytes =>
      obtain ⟨hout, hview, layout'⟩ := Store.exec_of_leaves
        (@StorageManager.leaves_enforceLimit o { s.sm with maxBytes := bytes } dir s.fs hnamed
          layout)
      refine ⟨?_, layout'⟩
      rw [Store.step, StorageManager.setMaxBytes, hout, hview]
      exact .setMaxBytes bytes
  | restart maxBytes keepMetadata =>
      have hlost : diskOf dir (if keepMetadata then s.fs else s.fs.remove s.sm.metaPath) =
          (if keepMetadata then diskOf dir s.fs else (diskOf dir s.fs).lose) ∧
          Layout s.sm.baseDir dir
            (if keepMetadata then s.fs else s.fs.remove s.sm.metaPath) := by
        cases keepMetadata with
        | true => exact ⟨rfl, layout⟩
        | false =>
            have hremove := remove_of_resolve layout.resolve_metadata
            simp only [Bool.false_eq_true, ↓reduceIte]
            rw [StorageManager.metaPath, hremove, diskOf_erase_metadata]
            exact ⟨rfl, layout.of_files _⟩
      obtain ⟨hout, hboot, layout'⟩ := boot_of_layout o hlost.2 maxBytes
      refine ⟨?_, layout'⟩
      rw [Store.step, hout]
      exact .restart (hlost.1 ▸ hboot)

theorem boot_view (o : Orders) {base : Bytes} {dir : Path} {fs : FileSystem}
    (empty : EmptyDir base dir fs) (maxBytes : UInt64) :
    (Store.boot o base maxBytes fs).1 = .done ∧
      Boots o (.fresh base maxBytes) ⟨fun _ => none, none⟩
        ((Store.boot o base maxBytes fs).2.view dir) ∧
      Layout base dir (Store.boot o base maxBytes fs).2.fs := by
  have hdisk : diskOf dir (laidOut dir fs) = ⟨fun _ => none, none⟩ := by
    unfold diskOf
    congr 1
    · funext name
      exact empty.no_files _ ⟨[str "chunks", name], by simp [chunkAt, chunksAt]⟩
    · exact empty.no_files _ (List.prefix_append _ _)
  obtain ⟨v, hboot, fs', hrun, hleft⟩ :=
    StorageManager.leaves_loadMetadata o base maxBytes empty.layout
  rw [← empty.createDirectories, ← StorageManager.run_init] at hrun
  obtain ⟨hout, hview, layout'⟩ := Store.exec_of_leaves ⟨fs', hrun, hleft⟩
  rw [Store.boot, ← StorageManager.fresh, hview]
  exact ⟨hout, hdisk ▸ hboot, layout'⟩

end DecentStore
