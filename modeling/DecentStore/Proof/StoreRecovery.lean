import DecentStore.Proof.MetadataText
import DecentStore.Proof.StoreSimulation

/-!
# What a restart recovers

A new object reads its books from `metadata.db`, so a restart loses nothing exactly when the text
was written from the books the running object has. Every operation ends by writing the text, except
that `enforceLimit` returns before it when there is no limit. `storeChunk` leaves the writing to
`enforceLimit`, so under the limit 0 a store is lost by a restart, and no other operation is.
-/

namespace DecentStore

open Bytes Posix FileSystem

/-- The same ids, sizes, stamps and counters, up to the order of the map. -/
structure SameBooks (sm sm' : StorageManager) : Prop where
  entries : sm'.metaMap.entries.Perm sm.metaMap.entries
  usedBytes : sm'.usedBytes = sm.usedBytes
  accessCounter : sm'.accessCounter = sm.accessCounter

/-- `metadata.db` was written from these books. -/
def Disk.Records (d : Disk) (sm : StorageManager) : Prop :=
  ∃ entries : List MetaEntry, entries.Perm sm.metaMap.entries ∧
    d.metadata = some (metadataOf sm.accessCounter sm.usedBytes entries)

theorem records_persist (o : Orders) (v : View) : (v.persist o).disk.Records v.sm :=
  ⟨_, o.metaMap.perm _, rfl⟩

theorem Disk.Records.congr {d : Disk} {sm sm' : StorageManager} (hrecords : d.Records sm)
    (hsame : SameBooks sm sm') : d.Records sm' := by
  obtain ⟨entries, hperm, htext⟩ := hrecords
  refine ⟨entries, hperm.trans hsame.entries.symm, ?_⟩
  rw [htext, hsame.usedBytes, hsame.accessCounter]

theorem SameBooks.named {sm sm' : StorageManager} (hsame : SameBooks sm sm') (hnamed : sm.Named) :
    sm'.Named :=
  fun hash hhash => hnamed hash ((AList.mem_of_perm hsame.entries).mp hhash)

theorem SameBooks.ledger {sm sm' : StorageManager} (hsame : SameBooks sm sm')
    (ledger : Ledger sm) : Ledger sm' where
  used := by
    rw [hsame.usedBytes, ledger.used]
    exact Lru.total_perm MetaEntry.size hsame.entries.symm
  distinct := (hsame.entries.pairwise_iff fun h => h.symm).mpr ledger.distinct
  issued := fun e he => hsame.accessCounter ▸ ledger.issued e (hsame.entries.subset he)

theorem Boots.of_records {o : Orders} {baseDir : Bytes} {maxBytes : UInt64} {d : Disk} {v : View}
    {sm : StorageManager} (hnamed : sm.Named) (hrecords : d.Records sm)
    (hboot : Boots o (.fresh baseDir maxBytes) d v) :
    SameBooks sm v.sm ∧ v.disk = d ∧ v.sm.maxBytes = maxBytes := by
  obtain ⟨entries, hperm, htext⟩ := hrecords
  have hids : ∀ e ∈ entries, Token e.1 := fun e he =>
    (hnamed e.1 (MetaMap.fst_mem (hperm.subset he))).token
  have hnodup : (entries.map Sigma.fst).Nodup :=
    (hperm.map Sigma.fst).nodup_iff.mpr sm.metaMap.keys_nodup
  obtain ⟨metaMap, hmap, hread⟩ := parseMetadata_metadataOf (.fresh baseDir maxBytes)
    sm.accessCounter sm.usedBytes hids hnodup
  cases hboot with
  | recover htext' hparse =>
      cases htext.symm.trans htext'
      cases hread.symm.trans hparse
      exact ⟨⟨hmap.trans hperm, rfl, rfl⟩, rfl, rfl⟩
  | rebuild hlost hscan => exact absurd (hread.symm.trans (hlost _ htext)) (by simp)

theorem Boots.of_empty {o : Orders} {baseDir : Bytes} {maxBytes : UInt64} {v : View}
    (hboot : Boots o (.fresh baseDir maxBytes) ⟨fun _ => none, none⟩ v) :
    v = View.persist o ⟨.fresh baseDir maxBytes, ⟨fun _ => none, none⟩⟩ := by
  cases hboot with
  | recover htext hparse => simp at htext
  | @rebuild files hlost hscan =>
      cases files with
      | nil => rfl
      | cons file files =>
          obtain ⟨data, hdata, _⟩ := (hscan.mem file.1 file.2).mp List.mem_cons_self
          simp at hdata

/-- A property of views that the operations keep holds along a run, and so does the layout. -/
theorem Runs.invariant {allowed : Store → StoreOp → Prop} {first : Store} {dir : Path}
    (inv : Trace → View → Prop) (layout : Layout first.sm.baseDir dir first.fs)
    (hinit : inv [] (first.view dir)) (hnamed : ∀ trace v, inv trace v → v.sm.Named)
    (hhex : ∀ s op, allowed s op → op.HexId)
    (hstep : ∀ {o : Orders} {trace : Trace} {s : Store} {op : StoreOp} {outcome : Outcome}
      {v : View}, allowed s op → inv trace (s.view dir) →
      ViewStep o (s.view dir) op outcome v → inv ((op, outcome) :: trace) v)
    {trace : Trace} {s : Store} (hrun : Runs allowed first trace s) :
    Layout s.sm.baseDir dir s.fs ∧ inv trace (s.view dir) := by
  induction hrun with
  | start => exact ⟨layout, hinit⟩
  | step o op hrun hop ih =>
      obtain ⟨hview, layout'⟩ := step_view o (hhex _ op hop) (hnamed _ _ ih.2) ih.1
      exact ⟨layout', hstep hop ih.2 hview⟩

/-- The same along a run from a directory with nothing in it. -/
theorem Runs.invariant_of_empty {allowed : Store → StoreOp → Prop} {o₀ : Orders} {base : Bytes}
    {dir : Path} {fs : FileSystem} (empty : EmptyDir base dir fs) {maxBytes : UInt64}
    (inv : Trace → View → Prop)
    (hinit : ∀ v, Boots o₀ (.fresh base maxBytes) ⟨fun _ => none, none⟩ v → inv [] v)
    (hnamed : ∀ trace v, inv trace v → v.sm.Named) (hhex : ∀ s op, allowed s op → op.HexId)
    (hstep : ∀ {o : Orders} {trace : Trace} {s : Store} {op : StoreOp} {outcome : Outcome}
      {v : View}, allowed s op → inv trace (s.view dir) →
      ViewStep o (s.view dir) op outcome v → inv ((op, outcome) :: trace) v)
    {trace : Trace} {s : Store} (hrun : Runs allowed (Store.boot o₀ base maxBytes fs).2 trace s) :
    Layout s.sm.baseDir dir s.fs ∧ inv trace (s.view dir) := by
  obtain ⟨-, hboot, layout⟩ := boot_view o₀ empty maxBytes
  have hbase : (Store.boot o₀ base maxBytes fs).2.sm.baseDir = base := hboot.baseDir
  exact Runs.invariant inv (hbase.symm ▸ layout) (hinit _ hboot) hnamed hhex hstep hrun

/-- Restarts do not remove `metadata.db`. -/
def StoreOp.KeepsMetadata : StoreOp → Prop
  | .restart _ keepMetadata => keepMetadata = true
  | _ => True

/-- A store happens under a limit. -/
def StoreOp.StoresLimited (sm : StorageManager) : StoreOp → Prop
  | .storeChunk _ _ => sm.maxBytes ≠ 0
  | _ => True

theorem maxBytes_release (sm : StorageManager) (hash : Bytes) :
    (sm.release hash).maxBytes = sm.maxBytes := by
  unfold StorageManager.release
  split <;> rfl

theorem records_enforceLimit (o : Orders) {v : View} (hlimit : v.sm.maxBytes ≠ 0) :
    (v.enforceLimit o).disk.Records (v.enforceLimit o).sm := by
  obtain ⟨v', -, heq⟩ := enforceLimit_frame o hlimit
  rw [heq]
  exact records_persist o v'

/-- Each operation leaves the text in step with the books, or leaves both as they were. -/
theorem ViewStep.records {o : Orders} {v v' : View} {op : StoreOp} {outcome : Outcome}
    (hstep : ViewStep o v op outcome v') (hnamed : v.sm.Named) (hkeep : op.KeepsMetadata)
    (hlimited : op.StoresLimited v.sm) (hrecords : v.disk.Records v.sm) :
    v'.disk.Records v'.sm := by
  cases hstep with
  | storeChunk hash data =>
      exact records_enforceLimit o ((maxBytes_release v.sm hash).trans_ne hlimited)
  | loadChunk hfile => exact records_persist o _
  | missing hfile => exact hrecords
  | deleteChunk hash => exact records_persist o _
  | setMaxBytes bytes =>
      by_cases hbytes : bytes = 0
      · rw [View.setMaxBytes, enforceLimit_of_zero o hbytes]
        exact hrecords
      · exact records_enforceLimit o hbytes
  | restart hboot =>
      rw [StoreOp.KeepsMetadata] at hkeep
      rw [if_pos hkeep] at hboot
      obtain ⟨hsame, hdisk, -⟩ := hboot.of_records hnamed hrecords
      rw [hdisk]
      exact hrecords.congr hsame

/-- The ids in the map, those in the text and the names of the files are hashes. -/
structure Named (v : View) : Prop where
  books : v.sm.Named
  text : ∃ sm : StorageManager, sm.Named ∧ v.disk.Records sm
  files : ∀ name data, v.disk.chunk name = some data → IsHashHex name

theorem Boots.named_of_empty {o : Orders} {baseDir : Bytes} {maxBytes : UInt64} {v : View}
    (hboot : Boots o (.fresh baseDir maxBytes) ⟨fun _ => none, none⟩ v) :
    Named v ∧ v.disk.Records v.sm := by
  have hfresh : (StorageManager.fresh baseDir maxBytes).Named := fun hash hhash =>
    absurd hhash (AList.notMem_empty hash)
  rw [hboot.of_empty]
  exact ⟨⟨hfresh, ⟨_, hfresh, records_persist o _⟩, by simp [View.persist, Disk.save]⟩,
    records_persist o _⟩

theorem EvictFrame.named {v v' : View} (frame : EvictFrame v v') (hnamed : Named v) :
    Named v' where
  books := fun hash hhash => hnamed.books hash (frame.mem hhash)
  text := by
    obtain ⟨sm, hsm, entries, hperm, htext⟩ := hnamed.text
    exact ⟨sm, hsm, entries, hperm, frame.metadata.trans htext⟩
  files := fun name data hdata => by
    rw [frame.chunk] at hdata
    split at hdata
    · simp at hdata
    · exact hnamed.files name data hdata

theorem Named.persist {v : View} (hnamed : Named v) (o : Orders) : Named (v.persist o) :=
  ⟨hnamed.books, ⟨v.sm, hnamed.books, records_persist o v⟩, hnamed.files⟩

theorem Named.enforceLimit {v : View} (hnamed : Named v) (o : Orders) :
    Named (v.enforceLimit o) := by
  by_cases hzero : v.sm.maxBytes = 0
  · rw [enforceLimit_of_zero o hzero]
    exact hnamed
  · obtain ⟨v', frame, heq⟩ := enforceLimit_frame o hzero
    rw [heq]
    exact (frame.named hnamed).persist o

theorem Named.write {v : View} (hnamed : Named v) {hash : Bytes} (hhash : IsHashHex hash)
    (data : Bytes) : Named (v.write hash data) where
  books := hnamed.books.record hhash _
  text := hnamed.text
  files := fun name bytes hbytes => by
    simp only [View.write, Disk.put, Disk.drop] at hbytes
    by_cases hname : name = hash
    · exact hname ▸ hhash
    · rw [Function.update_of_ne hname] at hbytes
      by_cases htmp : name = hash ++ str ".tmp"
      · simp [htmp] at hbytes
      · rw [Function.update_of_ne htmp] at hbytes
        exact hnamed.files name bytes hbytes

theorem Named.delete {v : View} (hnamed : Named v) (hash : Bytes) :
    Named
      { sm := { v.sm.release hash with metaMap := v.sm.metaMap.erase hash }
        disk := v.disk.drop hash } where
  books := fun other hother => hnamed.books other (AList.mem_erase.mp hother).2
  text := hnamed.text
  files := fun name data hdata => by
    simp only [Disk.drop] at hdata
    by_cases hname : name = hash
    · simp [hname] at hdata
    · rw [Function.update_of_ne hname] at hdata
      exact hnamed.files name data hdata

theorem named_touch {sm : StorageManager} (hnamed : sm.Named) (hash : Bytes) :
    (sm.touch hash).Named := by
  unfold StorageManager.touch
  cases hlookup : sm.metaMap.lookup hash with
  | none => exact hnamed
  | some m =>
      intro other hother
      rcases (AList.mem_insert _).mp hother with rfl | hold
      · exact hnamed other (AList.lookup_isSome.mp (by simp [hlookup]))
      · exact hnamed other hold

theorem foldl_addScanned_mem (files : List (Bytes × Nat)) (sm : StorageManager) {hash : Bytes}
    (hhash : hash ∈ (files.foldl StorageManager.addScanned sm).metaMap) :
    hash ∈ sm.metaMap ∨ hash ∈ files.map Prod.fst := by
  induction files generalizing sm with
  | nil => exact Or.inl hhash
  | cons file files ih =>
      rcases ih (sm.addScanned file) hhash with hold | hnew
      · rcases (AList.mem_insert _).mp hold with rfl | hold
        · exact Or.inr List.mem_cons_self
        · exact Or.inl hold
      · exact Or.inr (List.mem_cons_of_mem _ hnew)

theorem Named.boots {v v' : View} {d : Disk} {o : Orders} {maxBytes : UInt64} (hnamed : Named v)
    (hboot : Boots o (.fresh v.sm.baseDir maxBytes) d v') (hchunk : d.chunk = v.disk.chunk)
    (htext : d.metadata = none ∨ d.metadata = v.disk.metadata) : Named v' := by
  obtain ⟨sm, hsm, entries, hperm, hmetadata⟩ := hnamed.text
  cases hboot with
  | recover htext' hparse =>
      rcases htext with hlost | hkept
      · simp [hlost] at htext'
      · have hrecords : d.Records sm := ⟨entries, hperm, hkept.trans hmetadata⟩
        have hboot' : Boots o (.fresh v.sm.baseDir maxBytes) d ⟨_, d⟩ := .recover htext' hparse
        obtain ⟨hsame, -, -⟩ := hboot'.of_records hsm hrecords
        exact ⟨hsame.named hsm, ⟨sm, hsm, hrecords⟩, hchunk ▸ hnamed.files⟩
  | @rebuild files hlost hscan =>
      have hbooks : (files.foldl StorageManager.addScanned
          (.fresh v.sm.baseDir maxBytes)).Named := by
        intro hash hhash
        rcases foldl_addScanned_mem files _ hhash with hold | hnew
        · exact absurd hold (AList.notMem_empty hash)
        · obtain ⟨⟨name, size⟩, hmem, rfl⟩ := List.mem_map.mp hnew
          obtain ⟨data, hdata, -⟩ := (hscan.mem name size).mp hmem
          exact hnamed.files name data (hchunk ▸ hdata)
      exact ⟨hbooks, ⟨_, hbooks, records_persist o _⟩, hchunk ▸ hnamed.files⟩

theorem ViewStep.named {o : Orders} {v v' : View} {op : StoreOp} {outcome : Outcome}
    (hstep : ViewStep o v op outcome v') (hop : op.HexId) (hnamed : Named v) : Named v' := by
  cases hstep with
  | storeChunk hash data => exact (hnamed.write hop data).enforceLimit o
  | @loadChunk hash data hfile =>
      have htouched : Named { v with sm := v.sm.touch hash } :=
        ⟨named_touch hnamed.books hash, hnamed.text, hnamed.files⟩
      exact htouched.persist o
  | missing hfile => exact hnamed
  | deleteChunk hash => exact (hnamed.delete hash).persist o
  | setMaxBytes bytes =>
      have hlimited : Named { v with sm := { v.sm with maxBytes := bytes } } :=
        ⟨hnamed.books, hnamed.text, hnamed.files⟩
      exact hlimited.enforceLimit o
  | restart hboot =>
      split at hboot
      · exact hnamed.boots hboot rfl (Or.inr rfl)
      · exact hnamed.boots hboot rfl (Or.inl rfl)

end DecentStore
