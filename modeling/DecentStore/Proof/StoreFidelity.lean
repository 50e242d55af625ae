import DecentStore.Proof.StoreRecovery

/-!
# Books, files and metadata

Three views of the chunks are kept in step: the books in memory, the files of `chunks/`, and the
text of `metadata.db`. The files decide what a load returns, which is the latest store of the
history; and since either of the other two determines the ids, the sizes and the number of bytes,
both ways of starting again recover them.
-/

namespace DecentStore

open Bytes Posix FileSystem

/-- The bytes the last successful store of an id gave it, unless a delete has come after it. -/
def latestStore (hash : Bytes) : Trace → Option Bytes
  | [] => none
  | (.storeChunk other data, .done) :: trace =>
      if other = hash then some data else latestStore hash trace
  | (.deleteChunk other, .done) :: trace =>
      if other = hash then none else latestStore hash trace
  | _ :: trace => latestStore hash trace

/-- No limit is 0. -/
def StoreOp.Positive : StoreOp → Prop
  | .setMaxBytes bytes => bytes ≠ 0
  | .restart maxBytes _ => maxBytes ≠ 0
  | _ => True

/-- The total bytes and the access counter stay below `2 ^ 64`. -/
def StoreOp.Fits (sm : StorageManager) : StoreOp → Prop
  | .storeChunk hash data =>
      (sm.release hash).usedBytes.toNat + data.length < 2 ^ 64 ∧
        sm.accessCounter.toNat + 1 < 2 ^ 64
  | .loadChunk _ => sm.accessCounter.toNat + 1 < 2 ^ 64
  | _ => True

/-! ### Books and files -/

/-- The same ids, and for each its file's length. -/
def FilesAgree (v : View) : Prop :=
  ∀ name, (v.disk.chunk name).map List.length =
    (v.sm.metaMap.lookup name).map fun m => m.size.toNat

abbrev MetaEntry.listed (e : MetaEntry) : Bytes × Nat := (e.1, e.2.size.toNat)

theorem Disk.Scan.perm {v : View} {files : List (Bytes × Nat)} (hscan : v.disk.Scan files)
    (hagree : FilesAgree v) : files.Perm (v.sm.metaMap.entries.map MetaEntry.listed) := by
  have hkeys : (v.sm.metaMap.entries.map Sigma.fst).Nodup := v.sm.metaMap.keys_nodup
  have hlisted : ((v.sm.metaMap.entries.map MetaEntry.listed).map Prod.fst).Nodup := by
    rwa [List.map_map]
  refine (List.perm_ext_iff_of_nodup hscan.nodup.of_map hlisted.of_map).mpr ?_
  rintro ⟨name, size⟩
  have hname := hagree name
  rw [hscan.mem, List.mem_map]
  constructor
  · rintro ⟨data, hdata, rfl⟩
    rw [hdata, Option.map_some] at hname
    obtain ⟨m, hm, hsize⟩ := Option.map_eq_some_iff.mp hname.symm
    exact ⟨⟨name, m⟩, AList.mem_lookup_iff.mp hm, by rw [MetaEntry.listed, hsize]⟩
  · rintro ⟨⟨name', m⟩, hmem, heq⟩
    cases heq
    rw [AList.mem_lookup_iff.mpr hmem, Option.map_some] at hname
    obtain ⟨data, hdata, hlen⟩ := Option.map_eq_some_iff.mp hname
    exact ⟨data, hdata, hlen⟩

theorem EvictFrame.lookup {v v' : View} (frame : EvictFrame v v') {name : Bytes}
    (hname : name ∈ v'.sm.metaMap) : v'.sm.metaMap.lookup name = v.sm.metaMap.lookup name := by
  obtain ⟨m, hm⟩ := Option.isSome_iff_exists.mp (AList.lookup_isSome.mpr hname)
  have hmem := frame.entries.subset (AList.mem_lookup_iff.mp hm)
  rw [hm, AList.mem_lookup_iff.mpr hmem]

theorem EvictFrame.filesAgree {v v' : View} (frame : EvictFrame v v') (hagree : FilesAgree v) :
    FilesAgree v' := by
  intro name
  rw [frame.chunk]
  by_cases hkept : name ∈ v'.sm.metaMap
  · rw [if_neg (by tauto), frame.lookup hkept]
    exact hagree name
  · have hnone : v'.sm.metaMap.lookup name = none := AList.lookup_eq_none.mpr hkept
    split
    · rw [hnone]
      rfl
    · rename_i hout
      have hgone : v.sm.metaMap.lookup name = none := AList.lookup_eq_none.mpr (by tauto)
      rw [hagree name, hgone, hnone]

theorem filesAgree_enforceLimit (o : Orders) {v : View} (hagree : FilesAgree v) :
    FilesAgree (v.enforceLimit o) := by
  by_cases hzero : v.sm.maxBytes = 0
  · rw [enforceLimit_of_zero o hzero]
    exact hagree
  · obtain ⟨v', frame, heq⟩ := enforceLimit_frame o hzero
    rw [heq]
    exact frame.filesAgree hagree

theorem chunk_write {v : View} {hash data name : Bytes} (htmp : name ≠ hash ++ str ".tmp") :
    (v.write hash data).disk.chunk name = if name = hash then some data else v.disk.chunk name := by
  simp only [View.write, Disk.put, Disk.drop]
  by_cases hname : name = hash
  · subst hname
    rw [Function.update_self, if_pos rfl]
  · rw [Function.update_of_ne hname, Function.update_of_ne htmp, if_neg hname]

/-- The file of a stored chunk goes exactly when its entry does. -/
theorem chunk_storeChunk (o : Orders) (v : View) {hash : Bytes} (hhash : IsHashHex hash)
    (data : Bytes) :
    (v.storeChunk o hash data).disk.chunk hash =
      if hash ∈ (v.storeChunk o hash data).sm.metaMap then some data else none := by
  have hwrite : (v.write hash data).disk.chunk hash = some data := by
    rw [chunk_write (hhash.ne_tmp hhash), if_pos rfl]
  have hmem : hash ∈ (v.write hash data).sm.metaMap :=
    (AList.mem_insert _).mpr (Or.inl rfl)
  by_cases hzero : (v.write hash data).sm.maxBytes = 0
  · rw [View.storeChunk, enforceLimit_of_zero o hzero, hwrite, if_pos hmem]
  · obtain ⟨v', frame, heq⟩ := enforceLimit_frame o hzero
    rw [View.storeChunk, heq]
    change v'.disk.chunk hash = if hash ∈ v'.sm.metaMap then some data else none
    rw [frame.chunk, hwrite]
    by_cases hkept : hash ∈ v'.sm.metaMap
    · rw [if_pos hkept, if_neg (by tauto)]
    · rw [if_neg hkept, if_pos ⟨hmem, hkept⟩]

theorem filesAgree_write {v : View} (hnamed : Named v) (hagree : FilesAgree v) {hash data : Bytes}
    (hhash : IsHashHex hash) (hlen : data.length < 2 ^ 64) : FilesAgree (v.write hash data) := by
  intro name
  simp only [View.write, Disk.put, Disk.drop, StorageManager.record,
    StorageManager.metaMap_release]
  by_cases hname : name = hash
  · subst hname
    rw [Function.update_self, AList.lookup_insert, Option.map_some, Option.map_some,
      UInt64.toNat_ofNat_of_lt' hlen]
  · rw [Function.update_of_ne hname, AList.lookup_insert_ne hname]
    by_cases htmp : name = hash ++ str ".tmp"
    · have habsent : v.sm.metaMap.lookup name = none := by
        refine AList.lookup_eq_none.mpr fun hmem => ?_
        exact hhash.ne_tmp (hnamed.books name hmem) htmp
      rw [habsent, htmp, Function.update_self]
      rfl
    · rw [Function.update_of_ne htmp]
      exact hagree name

theorem lookup_touch_size (sm : StorageManager) (hash name : Bytes) :
    ((sm.touch hash).metaMap.lookup name).map (fun m => m.size.toNat) =
      (sm.metaMap.lookup name).map fun m => m.size.toNat := by
  unfold StorageManager.touch
  cases hlookup : sm.metaMap.lookup hash with
  | none => rfl
  | some m =>
      by_cases hname : name = hash
      · subst hname
        rw [AList.lookup_insert, hlookup]
        rfl
      · rw [AList.lookup_insert_ne hname]

theorem foldl_addScanned (files : List (Bytes × Nat)) {sm : StorageManager} (ledger : Ledger sm)
    (hnodup : (files.map Prod.fst).Nodup) (hnew : ∀ file ∈ files, file.1 ∉ sm.metaMap)
    (hbytes : sm.usedBytes.toNat + (files.map Prod.snd).sum < 2 ^ 64)
    (hcount : sm.accessCounter.toNat + files.length < 2 ^ 64) :
    Ledger (files.foldl StorageManager.addScanned sm) ∧
      (files.foldl StorageManager.addScanned sm).usedBytes.toNat =
        sm.usedBytes.toNat + (files.map Prod.snd).sum ∧
      ((files.foldl StorageManager.addScanned sm).metaMap.entries.map MetaEntry.listed).Perm
        (files ++ sm.metaMap.entries.map MetaEntry.listed) := by
  induction files generalizing sm with
  | nil => exact ⟨ledger, rfl, List.Perm.refl _⟩
  | cons file files ih =>
      obtain ⟨name, size⟩ := file
      simp only [List.map_cons, List.sum_cons, List.length_cons, List.nodup_cons] at *
      have hsize : (UInt64.ofNat size).toNat = size :=
        UInt64.toNat_ofNat_of_lt' (show size < 2 ^ 64 by omega)
      have hused : (sm.usedBytes + UInt64.ofNat size).toNat = sm.usedBytes.toNat + size := by
        rw [UInt64.toNat_add, hsize, Nat.mod_eq_of_lt (by omega)]
      have hgone : sm.metaMap.lookup name = none :=
        AList.lookup_eq_none.mpr (hnew _ List.mem_cons_self)
      have herase := MetaMap.erase_of_lookup hgone
      have hledger : Ledger (sm.addScanned (name, size)) := by
        refine ledger.stamp (by omega) ?_
        rw [hused, hsize, herase, ledger.used]
        exact Nat.add_comm _ _
      have hentries : ((sm.addScanned (name, size)).metaMap.entries.map MetaEntry.listed) =
          (name, size) :: sm.metaMap.entries.map MetaEntry.listed := by
        rw [StorageManager.addScanned, AList.entries_insert_of_notMem (hnew _ List.mem_cons_self)]
        rw [List.map_cons, MetaEntry.listed, hsize]
      have hfresh : ∀ file ∈ files, file.1 ∉ (sm.addScanned (name, size)).metaMap := by
        intro file hfile hmem
        rcases (AList.mem_insert _).mp hmem with heq | hold
        · exact hnodup.1 (List.mem_map.mpr ⟨file, hfile, heq⟩)
        · exact hnew file (List.mem_cons_of_mem _ hfile) hold
      have hcounter : (sm.addScanned (name, size)).accessCounter.toNat =
          sm.accessCounter.toNat + 1 := toNat_succ (by omega)
      have husedBytes : (sm.addScanned (name, size)).usedBytes.toNat =
          sm.usedBytes.toNat + size := hused
      obtain ⟨hledger', hused', hentries'⟩ := ih hledger hnodup.2 hfresh (by omega) (by omega)
      refine ⟨hledger', by rw [List.foldl_cons, hused', husedBytes]; omega, ?_⟩
      rw [hentries] at hentries'
      exact hentries'.trans List.perm_middle

theorem maxBytes_foldl_addScanned (files : List (Bytes × Nat)) (sm : StorageManager) :
    (files.foldl StorageManager.addScanned sm).maxBytes = sm.maxBytes := by
  induction files generalizing sm with
  | nil => rfl
  | cons file files ih => exact ih _

theorem rebuild_books {v : View} {files : List (Bytes × Nat)} {d : Disk} (ledger : Ledger v.sm)
    (hagree : FilesAgree v) (hchunk : d.chunk = v.disk.chunk) (hscan : d.Scan files)
    (baseDir : Bytes) (maxBytes : UInt64) :
    Ledger (files.foldl StorageManager.addScanned (.fresh baseDir maxBytes)) ∧
      (files.foldl StorageManager.addScanned (.fresh baseDir maxBytes)).usedBytes =
        v.sm.usedBytes ∧
      ((files.foldl StorageManager.addScanned (.fresh baseDir maxBytes)).metaMap.entries.map
        MetaEntry.listed).Perm (v.sm.metaMap.entries.map MetaEntry.listed) := by
  have hscan' : v.disk.Scan files := ⟨hscan.nodup, fun name size => hchunk ▸ hscan.mem name size⟩
  have hperm := hscan'.perm hagree
  have hsum : (files.map Prod.snd).sum = v.sm.usedBytes.toNat := by
    rw [(hperm.map Prod.snd).sum_eq, List.map_map, ledger.used]
    rfl
  have hcount : files.length ≤ v.sm.accessCounter.toNat := by
    rw [hperm.length_eq, List.length_map]
    exact ledger.length_le
  have hused : (StorageManager.fresh baseDir maxBytes).usedBytes.toNat = 0 := rfl
  have hcounter : (StorageManager.fresh baseDir maxBytes).accessCounter.toNat = 0 := rfl
  have hlt := v.sm.usedBytes.toNat_lt
  have hlt' := v.sm.accessCounter.toNat_lt
  obtain ⟨hledger, hused', hentries⟩ := foldl_addScanned files (ledger_fresh baseDir maxBytes)
    hscan.nodup (fun file _ => AList.notMem_empty file.1) (by omega) (by omega)
  refine ⟨hledger, UInt64.toNat_inj.mp (by omega), ?_⟩
  rw [show (StorageManager.fresh baseDir maxBytes).metaMap.entries = [] from rfl, List.map_nil,
    List.append_nil] at hentries
  exact hentries.trans hperm

/-! ### One operation -/

structure Faithful (trace : Trace) (v : View) : Prop where
  named : Named v
  ledger : Ledger v.sm
  records : v.disk.Records v.sm
  files : FilesAgree v
  latest : ∀ name data, v.disk.chunk name = some data → latestStore name trace = some data
  limited : v.sm.maxBytes ≠ 0

theorem Boots.chunk {o : Orders} {sm : StorageManager} {d : Disk} {v : View}
    (hboot : Boots o sm d v) : v.disk.chunk = d.chunk := by
  cases hboot <;> rfl

/-- Files come from stores only. -/
theorem ViewStep.chunk {o : Orders} {v v' : View} {op : StoreOp} {outcome : Outcome}
    (hstep : ViewStep o v op outcome v') {name data : Bytes}
    (hdata : v'.disk.chunk name = some data) :
    (op = .storeChunk name data ∧ outcome = .done) ∨
      (v.disk.chunk name = some data ∧ (∀ data', op ≠ .storeChunk name data') ∧
        op ≠ .deleteChunk name) := by
  have hlimit : ∀ u : View, (u.enforceLimit o).disk.chunk name = some data →
      u.disk.chunk name = some data := by
    intro u hu
    by_cases hzero : u.sm.maxBytes = 0
    · rwa [enforceLimit_of_zero o hzero] at hu
    · obtain ⟨u', frame, heq⟩ := enforceLimit_frame o hzero
      rw [heq] at hu
      have hchunk := (frame.chunk name).symm.trans hu
      split at hchunk
      · simp at hchunk
      · exact hchunk
  cases hstep with
  | storeChunk hash bytes =>
      have hwrite := hlimit _ hdata
      simp only [View.write, Disk.put, Disk.drop] at hwrite
      by_cases hname : name = hash
      · subst hname
        rw [Function.update_self, Option.some.injEq] at hwrite
        exact Or.inl ⟨by rw [hwrite], rfl⟩
      · rw [Function.update_of_ne hname] at hwrite
        refine Or.inr ⟨?_, fun data' heq => hname (by cases heq; rfl), by simp⟩
        by_cases htmp : name = hash ++ str ".tmp"
        · simp [htmp] at hwrite
        · rwa [Function.update_of_ne htmp] at hwrite
  | loadChunk hfile => exact Or.inr ⟨hdata, by simp, by simp⟩
  | missing hfile => exact Or.inr ⟨hdata, by simp, by simp⟩
  | deleteChunk hash =>
      simp only [View.deleteChunk, View.persist, Disk.save, Disk.drop] at hdata
      by_cases hname : name = hash
      · simp [hname] at hdata
      · rw [Function.update_of_ne hname] at hdata
        exact Or.inr ⟨hdata, by simp, fun heq => hname (by cases heq; rfl)⟩
  | setMaxBytes bytes =>
      exact Or.inr ⟨hlimit { v with sm := { v.sm with maxBytes := bytes } } hdata, by simp, by simp⟩
  | restart hboot =>
      refine Or.inr ⟨?_, by simp, by simp⟩
      rw [hboot.chunk] at hdata
      split at hdata <;> exact hdata

theorem latestStore_cons_of_ne {op : StoreOp} {outcome : Outcome} {name : Bytes} {trace : Trace}
    (hop : ∀ data, op ≠ .storeChunk name data) (hdelete : op ≠ .deleteChunk name) :
    latestStore name ((op, outcome) :: trace) = latestStore name trace := by
  cases op with
  | storeChunk hash data =>
      have hname : hash ≠ name := fun heq => hop data (by rw [heq])
      cases outcome with
      | done => rw [latestStore, if_neg hname]
      | loaded bytes => rfl
      | threw e => rfl
  | loadChunk hash => rfl
  | deleteChunk hash =>
      have hname : hash ≠ name := fun heq => hdelete (by rw [heq])
      cases outcome with
      | done => rw [latestStore, if_neg hname]
      | loaded bytes => rfl
      | threw e => rfl
  | setMaxBytes bytes => rfl
  | restart maxBytes keepMetadata => rfl

theorem ViewStep.latest {o : Orders} {v v' : View} {op : StoreOp} {outcome : Outcome}
    {trace : Trace} (hstep : ViewStep o v op outcome v')
    (hlatest : ∀ name data, v.disk.chunk name = some data → latestStore name trace = some data) :
    ∀ name data, v'.disk.chunk name = some data →
      latestStore name ((op, outcome) :: trace) = some data := by
  intro name data hdata
  rcases hstep.chunk hdata with ⟨rfl, rfl⟩ | ⟨hold, hop, hdelete⟩
  · rw [latestStore, if_pos rfl]
  · rw [latestStore_cons_of_ne hop hdelete]
    exact hlatest name data hold

theorem Ledger.write {v : View} (ledger : Ledger v.sm) {hash data : Bytes}
    (hfits : (StoreOp.storeChunk hash data).Fits v.sm) : Ledger (v.write hash data).sm := by
  obtain ⟨hbytes, hcounter⟩ := hfits
  have hsize : (UInt64.ofNat data.length).toNat = data.length :=
    UInt64.toNat_ofNat_of_lt' (show data.length < 2 ^ 64 by omega)
  exact ledger.record hcounter (by rwa [hsize])

/-- The books survive every operation whose counters fit, if they survive the restarts. -/
theorem ViewStep.ledger {o : Orders} {v v' : View} {op : StoreOp} {outcome : Outcome}
    (hstep : ViewStep o v op outcome v') (hfits : op.Fits v.sm) (ledger : Ledger v.sm)
    (hrestart : ∀ maxBytes keepMetadata, op = .restart maxBytes keepMetadata → Ledger v'.sm) :
    Ledger v'.sm := by
  cases hstep with
  | storeChunk hash data => exact (ledger.write hfits).enforceLimit o
  | @loadChunk hash data hfile => exact ledger.touch hfits hash
  | missing hfile => exact ledger
  | deleteChunk hash => exact ledger.delete hash
  | setMaxBytes bytes =>
      have hbooks : Ledger { v.sm with maxBytes := bytes } :=
        ⟨ledger.used, ledger.distinct, ledger.issued⟩
      exact @Ledger.enforceLimit o { v with sm := { v.sm with maxBytes := bytes } } hbooks
  | restart hboot => exact hrestart _ _ rfl

theorem mem_listed {sm : StorageManager} {name : Bytes} {size : Nat} :
    (name, size) ∈ sm.metaMap.entries.map MetaEntry.listed ↔
      (sm.metaMap.lookup name).map (fun m => m.size.toNat) = some size := by
  rw [List.mem_map, Option.map_eq_some_iff]
  constructor
  · rintro ⟨⟨name', m⟩, hmem, heq⟩
    cases heq
    exact ⟨m, AList.mem_lookup_iff.mpr hmem, rfl⟩
  · rintro ⟨m, hm, rfl⟩
    exact ⟨⟨name, m⟩, AList.mem_lookup_iff.mp hm, rfl⟩

theorem FilesAgree.congr {v v' : View} (hagree : FilesAgree v)
    (hchunk : v'.disk.chunk = v.disk.chunk)
    (hlisted : (v'.sm.metaMap.entries.map MetaEntry.listed).Perm
      (v.sm.metaMap.entries.map MetaEntry.listed)) : FilesAgree v' := by
  intro name
  rw [hchunk, hagree name]
  refine Option.ext fun size => ?_
  rw [← mem_listed, ← mem_listed, hlisted.mem_iff]

/-- Both ways of starting again recover the ids, the sizes and the number of bytes. -/
theorem Faithful.boots {trace : Trace} {v v' : View} {d : Disk} {o : Orders} {maxBytes : UInt64}
    (faithful : Faithful trace v) (hboot : Boots o (.fresh v.sm.baseDir maxBytes) d v')
    (hchunk : d.chunk = v.disk.chunk) (htext : d.metadata = none ∨ d.metadata = v.disk.metadata) :
    Ledger v'.sm ∧ v'.sm.usedBytes = v.sm.usedBytes ∧ v'.sm.maxBytes = maxBytes ∧
      v'.disk.Records v'.sm ∧
      (v'.sm.metaMap.entries.map MetaEntry.listed).Perm
        (v.sm.metaMap.entries.map MetaEntry.listed) := by
  cases hboot with
  | recover htext' hparse =>
      rcases htext with hlost | hkept
      · simp [hlost] at htext'
      · obtain ⟨entries, hperm, hmetadata⟩ := faithful.records
        have hrecords : d.Records v.sm := ⟨entries, hperm, hkept.trans hmetadata⟩
        have hboot' : Boots o (.fresh v.sm.baseDir maxBytes) d ⟨_, d⟩ := .recover htext' hparse
        obtain ⟨hsame, -, hlimit⟩ := hboot'.of_records faithful.named.books hrecords
        exact ⟨hsame.ledger faithful.ledger, hsame.usedBytes, hlimit, hrecords.congr hsame,
          hsame.entries.map _⟩
  | @rebuild files hlost hscan =>
      obtain ⟨hledger, hused, hlisted⟩ := rebuild_books faithful.ledger faithful.files hchunk hscan
        v.sm.baseDir maxBytes
      exact ⟨hledger, hused, maxBytes_foldl_addScanned files _, records_persist o _, hlisted⟩

theorem maxBytes_enforceLimit (o : Orders) (v : View) :
    (v.enforceLimit o).sm.maxBytes = v.sm.maxBytes := by
  by_cases hzero : v.sm.maxBytes = 0
  · rw [enforceLimit_of_zero o hzero]
  · obtain ⟨v', frame, heq⟩ := enforceLimit_frame o hzero
    rw [heq]
    exact frame.maxBytes

theorem ViewStep.filesAgree {o : Orders} {v v' : View} {op : StoreOp} {outcome : Outcome}
    (hstep : ViewStep o v op outcome v') (hop : op.HexId) (hfits : op.Fits v.sm)
    (hnamed : Named v) (hagree : FilesAgree v)
    (hrestart : ∀ maxBytes keepMetadata, op = .restart maxBytes keepMetadata → FilesAgree v') :
    FilesAgree v' := by
  cases hstep with
  | storeChunk hash data =>
      have hlen : data.length < 2 ^ 64 := by
        have hbytes := hfits.1
        omega
      exact filesAgree_enforceLimit o (filesAgree_write hnamed hagree hop hlen)
  | @loadChunk hash data hfile =>
      exact fun name => (hagree name).trans (lookup_touch_size v.sm hash name).symm
  | missing hfile => exact hagree
  | deleteChunk hash =>
      intro name
      simp only [View.deleteChunk, View.persist, Disk.save, Disk.drop]
      by_cases hname : name = hash
      · subst hname
        rw [Function.update_self, AList.lookup_erase]
        rfl
      · rw [Function.update_of_ne hname, AList.lookup_erase_ne hname]
        exact hagree name
  | setMaxBytes bytes =>
      exact @filesAgree_enforceLimit o { v with sm := { v.sm with maxBytes := bytes } } hagree
  | restart hboot => exact hrestart _ _ rfl

theorem ViewStep.limited {o : Orders} {v v' : View} {op : StoreOp} {outcome : Outcome}
    (hstep : ViewStep o v op outcome v') (hpositive : op.Positive) (hlimited : v.sm.maxBytes ≠ 0)
    (hrestart : ∀ maxBytes keepMetadata, op = .restart maxBytes keepMetadata →
      v'.sm.maxBytes = maxBytes) : v'.sm.maxBytes ≠ 0 := by
  cases hstep with
  | storeChunk hash data =>
      exact ((maxBytes_enforceLimit o _).trans (maxBytes_release v.sm hash)).trans_ne hlimited
  | @loadChunk hash data hfile =>
      have hkeep : (v.sm.touch hash).maxBytes = v.sm.maxBytes := by
        unfold StorageManager.touch
        split <;> rfl
      exact hkeep.trans_ne hlimited
  | missing hfile => exact hlimited
  | deleteChunk hash => exact (maxBytes_release v.sm hash).trans_ne hlimited
  | setMaxBytes bytes => exact (maxBytes_enforceLimit o _).trans_ne hpositive
  | restart hboot => exact (hrestart _ _ rfl).trans_ne hpositive

theorem ViewStep.faithful {o : Orders} {trace : Trace} {v v' : View} {op : StoreOp}
    {outcome : Outcome} (hstep : ViewStep o v op outcome v') (hop : op.HexId)
    (hpositive : op.Positive) (hfits : op.Fits v.sm) (faithful : Faithful trace v) :
    Faithful ((op, outcome) :: trace) v' := by
  have hboots : ∀ maxBytes keepMetadata, op = .restart maxBytes keepMetadata →
      Ledger v'.sm ∧ v'.sm.maxBytes = maxBytes ∧ v'.disk.Records v'.sm ∧ FilesAgree v' := by
    rintro maxBytes keepMetadata rfl
    cases hstep with
    | restart hboot =>
        have hchunk : (if keepMetadata then v.disk else v.disk.lose).chunk = v.disk.chunk := by
          split <;> rfl
        obtain ⟨hledger, -, hlimit, hrecords, hlisted⟩ :=
          faithful.boots hboot hchunk (by split <;> simp [Disk.lose])
        exact ⟨hledger, hlimit, hrecords,
          faithful.files.congr (hboot.chunk.trans hchunk) hlisted⟩
  constructor
  case named => exact hstep.named hop faithful.named
  case ledger => exact hstep.ledger hfits faithful.ledger fun m k h => (hboots m k h).1
  case records =>
    by_cases hkeep : op.KeepsMetadata
    · refine hstep.records faithful.named.books hkeep ?_ faithful.records
      cases op <;> first | exact faithful.limited | exact trivial
    · cases op with
      | restart maxBytes keepMetadata => exact (hboots maxBytes keepMetadata rfl).2.2.1
      | _ => exact absurd trivial hkeep
  case files =>
    exact hstep.filesAgree hop hfits faithful.named faithful.files fun m k h =>
      (hboots m k h).2.2.2
  case latest => exact hstep.latest faithful.latest
  case limited =>
    exact hstep.limited hpositive faithful.limited fun m k h => (hboots m k h).2.1

/-! ### Runs -/

theorem faithful_first {o : Orders} {baseDir : Bytes} {maxBytes : UInt64} {v : View}
    (hpositive : maxBytes ≠ 0) (hboot : Boots o (.fresh baseDir maxBytes) ⟨fun _ => none, none⟩ v) :
    Faithful [] v := by
  obtain ⟨hnamed, hrecords⟩ := hboot.named_of_empty
  rw [hboot.of_empty] at hnamed hrecords ⊢
  constructor
  case named => exact hnamed
  case ledger => exact ledger_fresh baseDir maxBytes
  case records => exact hrecords
  case files => exact fun name => rfl
  case latest => simp [View.persist, Disk.save]
  case limited => exact hpositive

/-- The operations on a store that always has a limit, with counters that fit. -/
def StoreOp.Ordinary (s : Store) (op : StoreOp) : Prop :=
  op.HexId ∧ op.Positive ∧ op.Fits s.sm

theorem faithful_of_run {o₀ : Orders} {base : Bytes} {dir : Path} {fs : FileSystem}
    (empty : EmptyDir base dir fs) {maxBytes : UInt64} (hpositive : maxBytes ≠ 0) {trace : Trace}
    {s : Store} (hrun : Runs StoreOp.Ordinary (Store.boot o₀ base maxBytes fs).2 trace s) :
    Layout s.sm.baseDir dir s.fs ∧ Faithful trace (s.view dir) := by
  exact Runs.invariant_of_empty empty Faithful (fun _ hboot => faithful_first hpositive hboot)
    (fun _ _ hv => hv.named.books) (fun _ _ hop => hop.1)
    (fun hop hv hstep => hstep.faithful hop.1 hop.2.1 hop.2.2 hv) hrun

theorem loadChunk_loaded {o : Orders} {s : Store} {dir : Path} {hash : Bytes}
    (layout : Layout s.sm.baseDir dir s.fs) (hnamed : s.sm.Named) (hhash : IsHashHex hash)
    (data : Bytes) :
    (s.step o (.loadChunk hash)).1 = .loaded data ↔ (diskOf dir s.fs).chunk hash = some data := by
  obtain ⟨hstep, -⟩ := @step_view o (.loadChunk hash) s dir hhash hnamed layout
  generalize (s.step o (.loadChunk hash)).1 = outcome at *
  generalize (s.step o (.loadChunk hash)).2.view dir = v at *
  cases hstep with
  | loadChunk hfound =>
      rw [show (diskOf dir s.fs).chunk hash = _ from hfound]
      simp
  | missing hmissing =>
      rw [show (diskOf dir s.fs).chunk hash = none from hmissing]
      simp

def newPeer : Store := (Store.boot default (str "/peer") 10 bareDisk).2

theorem firstStore_ordinary : (StoreOp.storeChunk someId (str "data")).Ordinary newPeer := by
  have hbytes : (newPeer.sm.release someId).usedBytes.toNat + (str "data").length < 2 ^ 64 := by
    decide +kernel
  have hcounter : newPeer.sm.accessCounter.toNat + 1 < 2 ^ 64 := by decide +kernel
  exact ⟨someId_hash, trivial, hbytes, hcounter⟩

end DecentStore
