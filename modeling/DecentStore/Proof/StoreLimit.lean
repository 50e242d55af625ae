import DecentStore.Proof.Acknowledged

/-!
# The limit

A store and a new limit end with the eviction, a load and a delete add nothing, but a start takes
the limit it is given and evicts nothing. So the limit holds along every run in which no restart
lowers it below what is there, as long as a restart that reads `metadata.db` finds the files of
`chunks/` in it.
-/

namespace DecentStore

open Bytes Posix FileSystem

/-- The text of `metadata.db` was written from books that list the files. -/
def Disk.ListsFiles (d : Disk) : Prop := ∃ sm : StorageManager, d.Records sm ∧ FilesAgree ⟨sm, d⟩

/-- Right books, right texts, and every file in the books. -/
structure Balanced (v : View) : Prop where
  booked : Booked v
  files : FilesAgree v

theorem balanced_first {o : Orders} {baseDir : Bytes} {maxBytes : UInt64} {v : View}
    (hboot : Boots o (.fresh baseDir maxBytes) ⟨fun _ => none, none⟩ v) : Balanced v := by
  refine ⟨booked_first hboot, ?_⟩
  rw [hboot.of_empty]
  exact fun _ => rfl

theorem Balanced.boots {v v' : View} {d : Disk} {o : Orders} {maxBytes : UInt64}
    (balanced : Balanced v) (hboot : Boots o (.fresh v.sm.baseDir maxBytes) d v')
    (hchunk : d.chunk = v.disk.chunk)
    (htext : d.metadata = none ∨ d.metadata = v.disk.metadata ∧ v.disk.ListsFiles) :
    Balanced v' := by
  have hnamed : Named v' := balanced.booked.named.boots hboot hchunk (htext.imp_right And.left)
  cases hboot with
  | recover htext' hparse =>
      rcases htext with hlost | ⟨hkept, sm, hrecords, hlists⟩
      · simp [hlost] at htext'
      · have hboot' : Boots o (.fresh v.sm.baseDir maxBytes) d ⟨_, d⟩ := .recover htext' hparse
        obtain ⟨sm₁, hsm₁, hledger₁, hrecords₁⟩ := balanced.booked.saved
        have hsame₁ := (hboot'.of_records hsm₁ (d := d)
          (by rwa [Disk.Records, hkept] : d.Records sm₁)).1
        have hsm : sm.Named := by
          intro name hname
          have hsize := hlists name
          obtain ⟨m, hm⟩ := Option.isSome_iff_exists.mp (AList.lookup_isSome.mpr hname)
          rw [hm, Option.map_some] at hsize
          obtain ⟨data, hdata, -⟩ := Option.map_eq_some_iff.mp hsize
          exact balanced.booked.named.files name data hdata
        have hsame := (hboot'.of_records hsm (d := d)
          (by rwa [Disk.Records, hkept] : d.Records sm)).1
        refine ⟨⟨hnamed, hsame₁.ledger hledger₁, sm₁, hsm₁, hledger₁,
          by rwa [Disk.Records, hkept]⟩, ?_⟩
        exact FilesAgree.congr hlists hchunk (hsame.entries.map _)
  | @rebuild files hlost hscan =>
      obtain ⟨hledger, -, hlisted⟩ := rebuild_books balanced.booked.ledger balanced.files hchunk
        hscan v.sm.baseDir maxBytes
      exact ⟨⟨hnamed, hledger, _, hnamed.books, hledger, records_persist o _⟩,
        balanced.files.congr hchunk hlisted⟩

/-- Whatever walk over `chunks/` adds the lengths up, it finds the number in the books. -/
theorem Balanced.sum_scan {v : View} (balanced : Balanced v) {d : Disk}
    (hchunk : d.chunk = v.disk.chunk) {files : List (Bytes × Nat)} (hscan : d.Scan files) :
    (files.map Prod.snd).sum = v.sm.usedBytes.toNat := by
  have hscan' : v.disk.Scan files := ⟨hscan.nodup, fun name size => hchunk ▸ hscan.mem name size⟩
  calc (files.map Prod.snd).sum
      = ((v.sm.metaMap.entries.map MetaEntry.listed).map Prod.snd).sum :=
        ((hscan'.perm balanced.files).map Prod.snd).sum_eq
    _ = totalSize v.sm.metaMap.entries := by
        rw [List.map_map]
        rfl
    _ = v.sm.usedBytes.toNat := balanced.booked.ledger.used.symm

theorem Boots.maxBytes {o : Orders} {sm : StorageManager} {d : Disk} {v : View}
    (hboot : Boots o sm d v) : v.sm.maxBytes = sm.maxBytes := by
  cases hboot with
  | recover htext hparse => exact (parseMetadata_baseDir hparse).2
  | rebuild hlost hscan => exact maxBytes_foldl_addScanned _ sm

def View.WithinLimit (v : View) : Prop := v.sm.maxBytes = 0 ∨ v.sm.usedBytes ≤ v.sm.maxBytes

/-- **Eviction goes down to the limit.** -/
theorem Ledger.withinLimit (o : Orders) {v : View} (ledger : Ledger v.sm) :
    (v.enforceLimit o).WithinLimit := by
  by_cases hzero : v.sm.maxBytes = 0
  · rw [enforceLimit_of_zero o hzero]
    exact Or.inl hzero
  · obtain ⟨items, hrecency⟩ := ledger.exists_recency
    have hfit := (ledger.evictLoop_fit o hrecency).2
    have hmax := (evictLoop_frame o v.sm.metaMap.entries.length v).maxBytes
    have hle := Lru.total_fit_le MetaEntry.size v.sm.maxBytes.toNat items
    refine Or.inr ?_
    rw [View.enforceLimit, if_neg hzero, UInt64.le_iff_toNat_le]
    simp only [View.persist]
    calc _ = totalSize (Lru.fit MetaEntry.size v.sm.maxBytes.toNat items) := hfit
      _ ≤ v.sm.maxBytes.toNat := hle
      _ = _ := by rw [hmax]

theorem usedBytes_touch (sm : StorageManager) (hash : Bytes) :
    (sm.touch hash).usedBytes = sm.usedBytes ∧ (sm.touch hash).maxBytes = sm.maxBytes := by
  unfold StorageManager.touch
  split <;> exact ⟨rfl, rfl⟩

theorem usedBytes_release_le (sm : StorageManager) (hash : Bytes) :
    (sm.release hash).usedBytes ≤ sm.usedBytes := by
  unfold StorageManager.release
  split
  · exact UInt64.le_refl _
  · simp only
    split
    · rename_i hle
      rw [UInt64.le_iff_toNat_le, UInt64.toNat_sub_of_le _ _ hle]
      exact Nat.sub_le _ _
    · exact UInt64.zero_le

/-- A restart may have this limit: there is none, or what is there is within it. -/
def StoreOp.RestartFits (used : Nat) : StoreOp → Prop
  | .restart maxBytes _ => maxBytes = 0 ∨ used ≤ maxBytes.toNat
  | _ => True

/-- A restart that reads `metadata.db` finds the files in it. -/
def StoreOp.FindsFiles (d : Disk) : StoreOp → Prop
  | .restart _ keepMetadata => keepMetadata = true → d.ListsFiles
  | _ => True

theorem ViewStep.withinLimit {o : Orders} {v v' : View} {op : StoreOp} {outcome : Outcome}
    (hstep : ViewStep o v op outcome v') (hfits : op.Fits v.sm) (balanced : Balanced v)
    (hwithin : v.WithinLimit)
    (hrestart : ∀ maxBytes keepMetadata, op = .restart maxBytes keepMetadata → v'.WithinLimit) :
    v'.WithinLimit := by
  have ledger := balanced.booked.ledger
  cases hstep with
  | storeChunk hash data => exact (ledger.write hfits).withinLimit o
  | @loadChunk hash data hfile =>
      obtain ⟨hused, hmax⟩ := usedBytes_touch v.sm hash
      unfold View.WithinLimit
      rwa [show (v.loadChunk o hash).sm = v.sm.touch hash from rfl, hused, hmax]
  | missing hfile => exact hwithin
  | deleteChunk hash =>
      exact hwithin.imp (maxBytes_release v.sm hash).trans fun hle =>
        UInt64.le_trans (usedBytes_release_le v.sm hash)
          (hle.trans_eq (maxBytes_release v.sm hash).symm)
  | setMaxBytes bytes =>
      have hbooks : Ledger { v.sm with maxBytes := bytes } :=
        ⟨ledger.used, ledger.distinct, ledger.issued⟩
      exact @Ledger.withinLimit o { v with sm := { v.sm with maxBytes := bytes } } hbooks
  | restart hboot => exact hrestart _ _ rfl

theorem ViewStep.balanced {o : Orders} {v v' : View} {op : StoreOp} {outcome : Outcome}
    (hstep : ViewStep o v op outcome v') (hop : op.HexId) (hfits : op.Fits v.sm)
    (hfinds : op.FindsFiles v.disk) (balanced : Balanced v) : Balanced v' := by
  by_cases hrestart : ∃ maxBytes keepMetadata, op = .restart maxBytes keepMetadata
  · obtain ⟨maxBytes, keepMetadata, rfl⟩ := hrestart
    cases hstep with
    | restart hboot =>
        cases keepMetadata with
        | true => exact balanced.boots hboot rfl (Or.inr ⟨rfl, hfinds rfl⟩)
        | false => exact balanced.boots hboot rfl (Or.inl rfl)
  · have hkeep : op.KeepsMetadata := by
      cases op <;> first | exact trivial | exact absurd ⟨_, _, rfl⟩ hrestart
    refine ⟨hstep.booked hop hkeep hfits balanced.booked, ?_⟩
    exact hstep.filesAgree hop hfits balanced.booked.named balanced.files fun m k h =>
      absurd ⟨m, k, h⟩ hrestart

/-- The total size of the files in `chunks/`. -/
def Store.chunkBytes (dir : Path) (s : Store) : Nat :=
  ((s.fs.filesIn (chunksAt dir)).map Prod.snd).sum

def Store.WithinLimit (dir : Path) (s : Store) : Prop :=
  s.sm.maxBytes = 0 ∨ s.chunkBytes dir ≤ s.sm.maxBytes.toNat

theorem Balanced.chunkBytes_eq {dir : Path} {s : Store} (balanced : Balanced (s.view dir)) :
    s.chunkBytes dir = s.sm.usedBytes.toNat :=
  balanced.sum_scan rfl (StorageManager.scan_filesIn default dir s.fs)

theorem Balanced.withinLimit_iff {dir : Path} {s : Store} (balanced : Balanced (s.view dir)) :
    s.WithinLimit dir ↔ (s.view dir).WithinLimit := by
  rw [Store.WithinLimit, View.WithinLimit, balanced.chunkBytes_eq, UInt64.le_iff_toNat_le]
  rfl

theorem chunkBytes_of_chunk_eq {dir : Path} {s s' : Store}
    (hchunk : (diskOf dir s'.fs).chunk = (diskOf dir s.fs).chunk) :
    s'.chunkBytes dir = s.chunkBytes dir := by
  have hscan : (diskOf dir s.fs).Scan (s.fs.filesIn (chunksAt dir)) :=
    StorageManager.scan_filesIn default dir s.fs
  have hscan' : (diskOf dir s'.fs).Scan (s'.fs.filesIn (chunksAt dir)) :=
    StorageManager.scan_filesIn default dir s'.fs
  have hperm : (s'.fs.filesIn (chunksAt dir)).Perm (s.fs.filesIn (chunksAt dir)) := by
    refine (List.perm_ext_iff_of_nodup hscan'.nodup.of_map hscan.nodup.of_map).mpr ?_
    rintro ⟨name, size⟩
    rw [hscan'.mem, hscan.mem, hchunk]
  exact (hperm.map Prod.snd).sum_eq

/-- The operations that keep to the limit. The counters fit; a restart has no limit or one that
what is there is within, and it finds the files in `metadata.db` if it reads it. -/
def StoreOp.KeepsLimit (dir : Path) (s : Store) (op : StoreOp) : Prop :=
  op.HexId ∧ op.Fits s.sm ∧ op.RestartFits (s.chunkBytes dir) ∧ op.FindsFiles (diskOf dir s.fs)

theorem ViewStep.restarted {o : Orders} {v v' : View} {maxBytes : UInt64} {keepMetadata : Bool}
    {outcome : Outcome} (hstep : ViewStep o v (.restart maxBytes keepMetadata) outcome v') :
    v'.disk.chunk = v.disk.chunk ∧ v'.sm.maxBytes = maxBytes := by
  cases hstep with
  | restart hboot => exact ⟨hboot.chunk.trans (by split <;> rfl), hboot.maxBytes⟩

/-- After a restart the limit holds exactly if it is one that what is there is within. -/
theorem withinLimit_restart_iff {dir : Path} {s : Store} (layout : Layout s.sm.baseDir dir s.fs)
    (hnamed : s.sm.Named) (o : Orders) (maxBytes : UInt64) (keepMetadata : Bool) :
    (s.step o (.restart maxBytes keepMetadata)).2.WithinLimit dir ↔
      (StoreOp.restart maxBytes keepMetadata).RestartFits (s.chunkBytes dir) := by
  obtain ⟨hstep, -⟩ := @step_view o (.restart maxBytes keepMetadata) s dir trivial hnamed layout
  obtain ⟨hchunk, hmax⟩ := hstep.restarted
  have hmax' : (s.step o (.restart maxBytes keepMetadata)).2.sm.maxBytes = maxBytes := hmax
  rw [Store.WithinLimit, hmax', chunkBytes_of_chunk_eq hchunk]
  rfl

theorem balanced_of_run {o₀ : Orders} {base : Bytes} {dir : Path} {fs : FileSystem}
    (empty : EmptyDir base dir fs) {maxBytes : UInt64} {trace : Trace} {s : Store}
    (hrun : Runs (StoreOp.KeepsLimit dir) (Store.boot o₀ base maxBytes fs).2 trace s) :
    Layout s.sm.baseDir dir s.fs ∧ Balanced (s.view dir) ∧ (s.view dir).WithinLimit := by
  have hfirst : ∀ v, Boots o₀ (.fresh base maxBytes) ⟨fun _ => none, none⟩ v →
      Balanced v ∧ v.WithinLimit := by
    intro v hboot
    refine ⟨balanced_first hboot, ?_⟩
    rw [hboot.of_empty]
    exact Or.inr UInt64.zero_le
  refine Runs.invariant_of_empty empty (fun _ v => Balanced v ∧ v.WithinLimit) hfirst
    (fun _ _ hv => hv.1.booked.named.books) (fun _ _ hop => hop.1) ?_ hrun
  intro o trace s op outcome v hop hv hstep
  obtain ⟨hhex, hfits, hlimit, hfinds⟩ := hop
  have balanced := hstep.balanced hhex hfits hfinds hv.1
  refine ⟨balanced, hstep.withinLimit hfits hv.1 hv.2 fun bytes keepMetadata hrestart => ?_⟩
  subst hrestart
  obtain ⟨hchunk, hmax⟩ := hstep.restarted
  have hused : v.sm.usedBytes.toNat = s.chunkBytes dir := by
    exact (balanced.sum_scan hchunk.symm (StorageManager.scan_filesIn default dir s.fs)).symm
  rw [View.WithinLimit, hmax, UInt64.le_iff_toNat_le, hused]
  exact hlimit

/-- **The limit holds along every run that keeps to it**, and a restart keeps to it only if it has
no limit or one that what is there is within. -/
theorem limit_holds_while_restarts_fit (o₀ : Orders) {base : Bytes} {dir : Path} {fs : FileSystem}
    (empty : EmptyDir base dir fs) (maxBytes : UInt64) {trace : Trace} {s : Store}
    (hrun : Runs (StoreOp.KeepsLimit dir) (Store.boot o₀ base maxBytes fs).2 trace s) :
    s.WithinLimit dir ∧ ∀ (o : Orders) (limit : UInt64) (keepMetadata : Bool),
      (s.step o (.restart limit keepMetadata)).2.WithinLimit dir ↔
        limit = 0 ∨ s.chunkBytes dir ≤ limit.toNat := by
  obtain ⟨layout, balanced, hwithin⟩ := balanced_of_run empty hrun
  exact ⟨balanced.withinLimit_iff.mpr hwithin, fun o limit keepMetadata =>
    withinLimit_restart_iff layout balanced.booked.named.books o limit keepMetadata⟩

/-- A peer with a limit of 10 bytes after a chunk of 4. -/
def usedPeer : Store := (newPeer.step default (.storeChunk someId (str "data"))).2

theorem usedPeer_restarted : ((usedPeer.step default (.restart 4 false)).2).WithinLimit
    [str "peer"] := by
  obtain ⟨hhex, -, hfits⟩ := firstStore_ordinary
  have hbytes : usedPeer.chunkBytes [str "peer"] ≤ (4 : UInt64).toNat := by decide +kernel
  exact (limit_holds_while_restarts_fit default bareDisk_empty 10
    (Runs.step default (.restart 4 false) (Runs.step default (.storeChunk someId (str "data"))
      Runs.start ⟨hhex, hfits, trivial, trivial⟩)
      ⟨trivial, trivial, Or.inr hbytes, fun hkeep => by cases hkeep⟩)).1

/-- The peer restarted with a limit of 1 byte still has the chunk of 4. -/
theorem restart_ignores_limit :
    ¬ ∀ (o₀ : Orders) (maxBytes : UInt64) (trace : Trace) (s : Store),
      Runs StoreOp.Counted (Store.boot o₀ (str "/peer") maxBytes bareDisk).2 trace s →
        s.WithinLimit [str "peer"] := by
  intro hall
  obtain ⟨hhex, -, hfits⟩ := firstStore_ordinary
  have hwithin := hall default 10 _ (usedPeer.step default (.restart 1 true)).2
    (Runs.step default (.restart 1 true) (Runs.step default (.storeChunk someId (str "data"))
      Runs.start ⟨hhex, trivial, hfits⟩) ⟨trivial, rfl, trivial⟩)
  have hover : ¬ (usedPeer.step default (.restart 1 true)).2.WithinLimit [str "peer"] := by
    unfold Store.WithinLimit
    decide +kernel
  exact hover hwithin

end DecentStore
