import DecentStore.Proof.StoreRecency

/-!
# The store is a map

A chunk is there from a store within the limit to its next delete, unless it is evicted, and nothing
is evicted while there is room. So the history of the stores and deletes, up to eviction, is the map
the store is meant to be.
-/

namespace DecentStore

open Bytes Posix FileSystem

/-- The bytes that stay are within the limit, so that nothing has to be evicted. -/
def StoreOp.Roomy (sm : StorageManager) : StoreOp → Prop
  | .storeChunk hash data =>
      (sm.release hash).usedBytes.toNat + data.length ≤ sm.maxBytes.toNat
  | .setMaxBytes bytes => sm.usedBytes ≤ bytes
  | _ => True

/-- An operation after which the chunk is as it was: it neither stores nor deletes it and does not
evict it. -/
def StoreOp.Retains (hash : Bytes) (s : Store) (op : StoreOp) : Prop :=
  op.Ordinary s ∧ (∀ data, op ≠ .storeChunk hash data) ∧ op ≠ .deleteChunk hash ∧
    ∀ o, (s.step o op).2.sm.hasChunk hash = true

theorem enforceLimit_of_within (o : Orders) {v : View} (hwithin : v.sm.usedBytes ≤ v.sm.maxBytes) :
    (v.enforceLimit o).sm = v.sm := by
  have hloop : ∀ fuel, View.evictLoop o fuel v = v := by
    intro fuel
    cases fuel with
    | zero => rfl
    | succ fuel => rw [View.evictLoop, if_neg (UInt64.not_lt.mpr hwithin)]
  unfold View.enforceLimit
  split
  · rfl
  · rw [hloop]
    rfl

theorem mem_of_listed {sm sm' : StorageManager} {name : Bytes}
    (hlisted : (sm'.metaMap.entries.map MetaEntry.listed).Perm
      (sm.metaMap.entries.map MetaEntry.listed)) (hname : name ∈ sm.metaMap) :
    name ∈ sm'.metaMap := by
  obtain ⟨m, hm⟩ := Option.isSome_iff_exists.mp (AList.lookup_isSome.mpr hname)
  have hentry : (name, m.size.toNat) ∈ sm.metaMap.entries.map MetaEntry.listed :=
    mem_listed.mpr (by rw [hm]; rfl)
  obtain ⟨m', hm', -⟩ := Option.map_eq_some_iff.mp (mem_listed.mp (hlisted.symm.subset hentry))
  exact AList.lookup_isSome.mp (Option.isSome_iff_exists.mpr ⟨m', hm'⟩)

/-- **While there is room nothing is evicted.** -/
theorem ViewStep.mem_of_roomy {o : Orders} {trace : Trace} {v v' : View} {op : StoreOp}
    {outcome : Outcome} (hstep : ViewStep o v op outcome v') (faithful : Faithful trace v)
    (hfits : op.Fits v.sm) (hroomy : op.Roomy v.sm) {name : Bytes}
    (hdelete : op ≠ .deleteChunk name) (hname : name ∈ v.sm.metaMap) : name ∈ v'.sm.metaMap := by
  cases hstep with
  | storeChunk hash data =>
      have hlength : (UInt64.ofNat data.length).toNat = data.length :=
        UInt64.toNat_ofNat_of_lt' (lt_of_le_of_lt (Nat.le_add_left _ _) hfits.1)
      have hused : (v.write hash data).sm.usedBytes.toNat =
          (v.sm.release hash).usedBytes.toNat + data.length := by
        change ((v.sm.release hash).usedBytes + UInt64.ofNat data.length).toNat = _
        rw [UInt64.toNat_add, hlength, Nat.mod_eq_of_lt hfits.1]
      have hwithin : (v.write hash data).sm.usedBytes ≤ (v.write hash data).sm.maxBytes := by
        rw [UInt64.le_iff_toNat_le, hused,
          show (v.write hash data).sm.maxBytes = v.sm.maxBytes from maxBytes_release v.sm hash]
        exact hroomy
      rw [View.storeChunk, enforceLimit_of_within o hwithin]
      refine (AList.mem_insert _).mpr (Or.inr ?_)
      rwa [StorageManager.metaMap_release]
  | loadChunk hfile => exact (StorageManager.mem_touch v.sm _ _).mpr hname
  | missing hfile => exact hname
  | deleteChunk hash => exact AList.mem_erase.mpr ⟨fun heq => hdelete (by rw [heq]), hname⟩
  | setMaxBytes bytes =>
      rw [View.setMaxBytes, @enforceLimit_of_within o
        { v with sm := { v.sm with maxBytes := bytes } } hroomy]
      exact hname
  | restart hboot =>
      obtain ⟨-, -, -, -, hlisted⟩ := faithful.boots hboot (by split <;> rfl)
        (by split <;> simp [Disk.lose])
      exact mem_of_listed hlisted hname

section Reached

variable {o₀ : Orders} {base : Bytes} {dir : Path} {fs : FileSystem} {maxBytes : UInt64}
  {trace : Trace} {s : Store} {hash data : Bytes}

theorem hasChunk_iff_mem : s.sm.hasChunk hash = true ↔ hash ∈ s.sm.metaMap := AList.lookup_isSome

theorem hasChunk_iff_loaded (layout : Layout s.sm.baseDir dir s.fs)
    (faithful : Faithful trace (s.view dir)) (o : Orders) (hhash : IsHashHex hash) :
    s.sm.hasChunk hash = true ↔ ∃ data, (s.step o (.loadChunk hash)).1 = .loaded data := by
  simp only [loadChunk_loaded layout faithful.named.books hhash]
  have hagree := congrArg Option.isSome (faithful.files hash)
  rw [Option.isSome_map, Option.isSome_map] at hagree
  rw [StorageManager.hasChunk, ← Option.isSome_iff_exists]
  exact (congrArg (· = true) hagree).symm.to_iff

/-- A chunk that is in the map is the latest one stored. -/
theorem loaded_of_hasChunk (layout : Layout s.sm.baseDir dir s.fs)
    (faithful : Faithful trace (s.view dir)) (o : Orders) (hhash : IsHashHex hash)
    (hhas : s.sm.hasChunk hash = true) (hlatest : latestStore hash trace = some data) :
    (s.step o (.loadChunk hash)).1 = .loaded data := by
  obtain ⟨found, hfound⟩ := (hasChunk_iff_loaded layout faithful o hhash).mp hhas
  have hfile := (loadChunk_loaded layout faithful.named.books hhash found).mp hfound
  rw [hfound, Option.some.inj ((faithful.latest hash found hfile).symm.trans hlatest)]

theorem hasChunk_after_store (layout : Layout s.sm.baseDir dir s.fs)
    (faithful : Faithful trace (s.view dir)) (o : Orders)
    (hop : (StoreOp.storeChunk hash data).Ordinary s)
    (hlength : data.length ≤ s.sm.maxBytes.toNat) :
    (s.step o (.storeChunk hash data)).1 = .done ∧
      (s.step o (.storeChunk hash data)).2.sm.hasChunk hash = true := by
  obtain ⟨hstep, -⟩ := step_view o hop.1 faithful.named.books layout
  have hkeeps := storeChunk_keepsMostRecent faithful.ledger hop.2.2 faithful.limited
    hstep.of_storeChunk.2
  have hkept := newestEntry_kept faithful.ledger hop.2.2.2
    (lt_of_le_of_lt (Nat.le_add_left _ _) hop.2.2.1) hkeeps
  exact ⟨hstep.of_storeChunk.1, hasChunk_iff_mem.mpr (hkept.1 hlength)⟩

theorem not_hasChunk_after_delete (layout : Layout s.sm.baseDir dir s.fs)
    (faithful : Faithful trace (s.view dir)) (o : Orders) (hhash : IsHashHex hash) :
    (s.step o (.deleteChunk hash)).2.sm.hasChunk hash = false := by
  obtain ⟨hstep, -⟩ := @step_view o (.deleteChunk hash) s dir hhash faithful.named.books layout
  have hview : (s.step o (.deleteChunk hash)).2.view dir = (s.view dir).deleteChunk o hash := by
    generalize (s.step o (.deleteChunk hash)).1 = outcome at *
    generalize (s.step o (.deleteChunk hash)).2.view dir = v at *
    cases hstep
    rfl
  have hsm : (s.step o (.deleteChunk hash)).2.sm.metaMap = s.sm.metaMap.erase hash :=
    congrArg (fun v : View => v.sm.metaMap) hview
  rw [StorageManager.hasChunk, hsm, AList.lookup_erase]
  rfl

/-- **From a store on.** While a chunk is retained it is what its latest store gave. -/
theorem loaded_while_retained (empty : EmptyDir base dir fs) (hpositive : maxBytes ≠ 0)
    (hrun : Runs StoreOp.Ordinary (Store.boot o₀ base maxBytes fs).2 trace s)
    (hhash : IsHashHex hash) (hhas : s.sm.hasChunk hash = true)
    (hlatest : latestStore hash trace = some data) {later : Trace} {s' : Store}
    (hlater : Runs (StoreOp.Retains hash) s later s') (o : Orders) :
    (s'.step o (.loadChunk hash)).1 = .loaded data := by
  have hreached : ∃ trace', Runs StoreOp.Ordinary (Store.boot o₀ base maxBytes fs).2 trace' s' ∧
      latestStore hash trace' = some data ∧ s'.sm.hasChunk hash = true := by
    induction hlater with
    | start => exact ⟨trace, hrun, hlatest, hhas⟩
    | step o' op hlater hretains ih =>
        obtain ⟨trace', hrun', hlatest', -⟩ := ih
        obtain ⟨hop, hstore, hdelete, hhas'⟩ := hretains
        refine ⟨_, .step o' op hrun' hop, ?_, hhas' o'⟩
        rw [latestStore_cons_of_ne hstore hdelete]
        exact hlatest'
  obtain ⟨trace', hrun', hlatest', hhas'⟩ := hreached
  obtain ⟨layout, faithful⟩ := faithful_of_run empty hpositive hrun'
  exact loaded_of_hasChunk layout faithful o hhash hhas' hlatest'

end Reached

/-- **The store is a map.** In every state of a run from an empty directory, with positive limits
and any restarts, the books list exactly the files of `chunks/` with their sizes, `usedBytes_` is
their sum, an id is in the map exactly when it can be loaded, and a load returns what the latest
store gave, with no delete after it. A chunk stored within the limit is loaded for as long as it is
not stored again, deleted or evicted, an operation for which there is room evicts nothing, and a
deleted chunk is gone. A restart on the metadata or on the files recovers the ids, the sizes and the
bytes. -/
theorem store_is_faithful_map (o₀ : Orders) {base : Bytes} {dir : Path} {fs : FileSystem}
    (empty : EmptyDir base dir fs) {maxBytes : UInt64} (hpositive : maxBytes ≠ 0) {trace : Trace}
    {s : Store} (hrun : Runs StoreOp.Ordinary (Store.boot o₀ base maxBytes fs).2 trace s) :
    (s.fs.filesIn (chunksAt dir)).Perm (s.sm.metaMap.entries.map MetaEntry.listed) ∧
      s.sm.usedBytes.toNat = ((s.fs.filesIn (chunksAt dir)).map Prod.snd).sum ∧
      (∀ o hash, IsHashHex hash → (s.sm.hasChunk hash = true ↔
        ∃ data, (s.step o (.loadChunk hash)).1 = .loaded data)) ∧
      (∀ o hash data, IsHashHex hash → (s.step o (.loadChunk hash)).1 = .loaded data →
        latestStore hash trace = some data) ∧
      (∀ o hash data, (StoreOp.storeChunk hash data).Ordinary s →
        data.length ≤ s.sm.maxBytes.toNat → ∀ later s',
          Runs (StoreOp.Retains hash) (s.step o (.storeChunk hash data)).2 later s' →
            ∀ o', (s'.step o' (.loadChunk hash)).1 = .loaded data) ∧
      (∀ o op hash, op.Ordinary s → op.Roomy s.sm → op ≠ .deleteChunk hash →
        s.sm.hasChunk hash = true → (s.step o op).2.sm.hasChunk hash = true) ∧
      (∀ o hash, IsHashHex hash → (s.step o (.deleteChunk hash)).2.sm.hasChunk hash = false) ∧
      ∀ o limit keepMetadata,
        ((s.step o (.restart limit keepMetadata)).2.sm.metaMap.entries.map
          MetaEntry.listed).Perm (s.sm.metaMap.entries.map MetaEntry.listed) ∧
        (s.step o (.restart limit keepMetadata)).2.sm.usedBytes = s.sm.usedBytes := by
  obtain ⟨layout, faithful⟩ := faithful_of_run empty hpositive hrun
  have hnamed : s.sm.Named := faithful.named.books
  have hscan : (diskOf dir s.fs).Scan (s.fs.filesIn (chunksAt dir)) :=
    StorageManager.scan_filesIn default dir s.fs
  have hlisted := @Disk.Scan.perm (s.view dir) _ hscan faithful.files
  refine ⟨hlisted, ?_, fun o hash hhash => hasChunk_iff_loaded layout faithful o hhash,
    fun o hash data hhash hload => ?_, fun o hash data hop hlength later s' hlater o' => ?_,
    fun o op hash hop hroomy hdelete hhas => ?_,
    fun o hash hhash => not_hasChunk_after_delete layout faithful o hhash,
    fun o limit keepMetadata => ?_⟩
  · have hsum := (hlisted.map Prod.snd).sum_eq
    rw [List.map_map] at hsum
    exact faithful.ledger.used.trans hsum.symm
  · exact faithful.latest hash data ((loadChunk_loaded layout hnamed hhash data).mp hload)
  · obtain ⟨hdone, hhas⟩ := hasChunk_after_store layout faithful o hop hlength
    refine loaded_while_retained empty hpositive (Runs.step o _ hrun hop) hop.1 hhas ?_ hlater o'
    rw [hdone, latestStore, if_pos rfl]
  · obtain ⟨hstep, -⟩ := step_view o hop.1 hnamed layout
    exact hasChunk_iff_mem.mpr
      (hstep.mem_of_roomy faithful hop.2.2 hroomy hdelete (hasChunk_iff_mem.mp hhas))
  · obtain ⟨hstep, -⟩ := @step_view o (.restart limit keepMetadata) s dir trivial hnamed layout
    generalize (s.step o (.restart limit keepMetadata)).1 = outcome at *
    generalize (s.step o (.restart limit keepMetadata)).2 = next at *
    cases hstep with
    | restart hboot =>
        obtain ⟨-, hused, -, -, hlisted'⟩ := faithful.boots hboot (by split <;> rfl)
          (by split <;> simp [Disk.lose])
        exact ⟨hlisted', hused⟩

/-- A chunk of four bytes is loaded after a change of the limit and gone after a delete. -/
theorem firstStore_mapped :
    let s := (newPeer.step default (.storeChunk someId (str "data"))).2
    ((s.step default (.setMaxBytes 4)).2.step default (.loadChunk someId)).1 =
        .loaded (str "data") ∧
      (s.step default (.deleteChunk someId)).2.sm.hasChunk someId = false := by
  have hrun := Runs.step default _ Runs.start firstStore_ordinary
  have hordinary : (StoreOp.setMaxBytes 4).Ordinary
      (newPeer.step default (.storeChunk someId (str "data"))).2 :=
    ⟨trivial, (by decide : (4 : UInt64) ≠ 0), trivial⟩
  have hkept := (store_is_faithful_map default bareDisk_empty (by decide) hrun).2.2.2.2.2.1
  have hdeleted := (store_is_faithful_map default bareDisk_empty (by decide) hrun).2.2.2.2.2.2.1
  have hloaded := (store_is_faithful_map default bareDisk_empty (by decide : (10 : UInt64) ≠ 0)
    Runs.start).2.2.2.2.1
  refine ⟨hloaded default someId (str "data") firstStore_ordinary (by decide +kernel) _ _
    (Runs.step default (.setMaxBytes 4) Runs.start ⟨hordinary, by simp, by simp, fun o => ?_⟩)
    default, hdeleted default someId someId_hash⟩
  exact hkept o (.setMaxBytes 4) someId hordinary (by decide +kernel : _ ≤ (4 : UInt64)) (by simp)
    (by decide +kernel)

end DecentStore
