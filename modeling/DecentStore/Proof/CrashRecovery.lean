import DecentStore.Lib.Stopping
import DecentStore.Proof.StoreFailures
import DecentStore.Proof.TornMetadata

/-!
# Recovery from a stop

An operation changes the files first and then writes the metadata anew, from the front. So when it
is stopped, `metadata.db` is that of before, or the files are those of after and `metadata.db` holds
a part of the new text. A start recovers from the first exactly if no chunk has another length than
before, and from the second exactly if the part has no header, so that the files are scanned, or
goes up to the last number of the text.
-/

namespace DecentStore

open Bytes Posix FileSystem Interaction

/-- The directories are in place, and this holds of the disk. -/
def OnDisk (base : Bytes) (dir : Path) (inv : Disk → Prop) (fs : FileSystem) : Prop :=
  Layout base dir fs ∧ inv (diskOf dir fs)

section Stops

variable {base : Bytes} {dir : Path} {inv : Disk → Prop} {fs : FileSystem} {k : Nat} {α β : Type}

theorem stops_seq {prog : FsProg α} {next : α → FsProg β} {a : α} {d : Disk}
    (hprog : prog.Stops FileSystem.handle (FileSystem.cut k) (OnDisk base dir inv) fs)
    (hleaves : Leaves base dir prog fs a d)
    (hnext : ∀ fs', Layout base dir fs' → diskOf dir fs' = d →
      (next a).Stops FileSystem.handle (FileSystem.cut k) (OnDisk base dir inv) fs') :
    (prog >>= next).Stops FileSystem.handle (FileSystem.cut k) (OnDisk base dir inv) fs := by
  obtain ⟨fs', hrun, layout', hdisk⟩ := hleaves
  refine Prog.stops_bind hprog fun a' s' hrun' => ?_
  cases hrun.symm.trans hrun'
  exact hnext fs' layout' hdisk

theorem stops_call {c : FsCall} (hcut : FileSystem.cut k c fs = fs) (layout : Layout base dir fs)
    (hbefore : inv (diskOf dir fs)) {r : FsReply c} {d : Disk}
    (hleaves : Leaves base dir (Prog.ask c) fs r d) (hafter : inv d) :
    (Prog.ask c : FsProg (FsReply c)).Stops FileSystem.handle (FileSystem.cut k)
      (OnDisk base dir inv) fs := by
  obtain ⟨fs', hrun, layout', hdisk⟩ := hleaves
  have hdone : (FileSystem.handle c fs).2 = fs' := congrArg Prod.snd hrun
  refine Prog.stops_ask ?_ ?_
  · rw [hcut]
    exact ⟨layout, hbefore⟩
  · rw [hdone]
    exact ⟨layout', hdisk ▸ hafter⟩

end Stops

/-- The metadata of before, or the files of after and a part of the new text. -/
def CutShort (o : Orders) (before after : View) (d : Disk) : Prop :=
  d.metadata = before.disk.metadata ∨
    d.chunk = after.disk.chunk ∧ ∃ k, d.metadata = some ((after.sm.metadataText o).take k)

theorem cutShort_persist (o : Orders) (before v : View) :
    CutShort o before (v.persist o) (v.persist o).disk :=
  Or.inr ⟨rfl, (v.sm.metadataText o).length, congrArg some List.take_length.symm⟩

namespace StorageManager

variable (o : Orders) {sm : StorageManager} {dir : Path} {fs : FileSystem} {k : Nat}
  {inv : Disk → Prop}

theorem stops_persist (layout : Layout sm.baseDir dir fs) {before : View}
    (htext : (diskOf dir fs).metadata = before.disk.metadata) {α : Type} (a : α) :
    (do persistMetadata o sm; pure a : FsProg α).Stops FileSystem.handle (FileSystem.cut k)
      (OnDisk sm.baseDir dir (CutShort o before (View.persist o ⟨sm, diskOf dir fs⟩))) fs := by
  have hopen := truncate_of_resolve layout.resolve_metadata layout.not_blocked_metadata
  have htruncate : (Fs.truncate sm.metaPath : FsProg Bool).run FileSystem.handle fs =
      (.ok true, { fs with files := fs.files.insert (metadataAt dir) [] }) := by
    rw [Fs.run_truncate, metaPath, hopen]
  have hwrite : ∀ bytes, FileSystem.append
      { fs with files := fs.files.insert (metadataAt dir) [] } sm.metaPath bytes =
        { fs with files := fs.files.insert (metadataAt dir) bytes } := by
    intro bytes
    have hpath := (layout.of_files (fs.files.insert (metadataAt dir) [])).resolve_metadata
    have happend := @append_of_resolve _ _ bytes _ _ hpath (AList.lookup_insert _)
    rwa [AList.insert_insert, List.nil_append] at happend
  have hpart : ∀ j, OnDisk sm.baseDir dir (CutShort o before (View.persist o ⟨sm, diskOf dir fs⟩))
      { fs with files := fs.files.insert (metadataAt dir) ((metadataText o sm).take j) } := by
    intro j
    refine ⟨layout.of_files _, ?_⟩
    rw [diskOf_insert_metadata]
    exact Or.inr ⟨rfl, j, rfl⟩
  have hall := hpart (metadataText o sm).length
  rw [List.take_length] at hall
  unfold persistMetadata
  refine Prog.stops_bind (Prog.stops_bind (Prog.stops_ask ⟨layout, Or.inl htext⟩ ?_)
    fun opened fs' hrun => ?_) fun _ fs' hrun => Prog.stops_pure ?_ a
  · rw [FileSystem.handle, metaPath, hopen]
    exact hpart 0
  · cases htruncate.symm.trans hrun
    simp only [↓reduceIte]
    refine Prog.stops_ask ?_ ?_
    · rw [FileSystem.cut, hwrite]
      exact hpart k
    · rw [FileSystem.handle, hwrite]
      exact hall
  · rw [Prog.run_bind_of_ok htruncate] at hrun
    simp only [↓reduceIte, Fs.run_append, hwrite] at hrun
    cases hrun
    exact hall

theorem stops_evictLoop (fuel : Nat) (hnamed : sm.Named) (layout : Layout sm.baseDir dir fs)
    {text : Option Bytes} (htext : (diskOf dir fs).metadata = text) :
    (evictLoop o fuel sm).Stops FileSystem.handle (FileSystem.cut k)
      (OnDisk sm.baseDir dir fun d => d.metadata = text) fs := by
  induction fuel generalizing sm fs with
  | zero => exact Prog.stops_pure ⟨layout, htext⟩ sm
  | succ fuel ih =>
      unfold evictLoop
      split
      · cases hvictim : sm.lruVictim o with
        | none => exact Prog.stops_pure ⟨layout, htext⟩ sm
        | some victim =>
            have hhash := hnamed victim.1 (MetaMap.fst_mem (lruVictim_spec hvictim).1)
            have hleaves := leaves_remove layout (resolve_chunkPath layout hhash)
            refine stops_seq (stops_call rfl layout htext hleaves htext) hleaves
              fun fs' layout' hdisk => ?_
            exact @ih { sm with
              usedBytes := sm.usedBytes - victim.2.size
              metaMap := sm.metaMap.erase victim.1 } fs' (hnamed.erase victim.1) layout'
              (by rw [hdisk]; exact htext)
      · exact Prog.stops_pure ⟨layout, htext⟩ sm

theorem stops_enforceLimit (hnamed : sm.Named) (layout : Layout sm.baseDir dir fs)
    {before : View} (htext : (diskOf dir fs).metadata = before.disk.metadata) :
    (sm.enforceLimit o).Stops FileSystem.handle (FileSystem.cut k)
      (OnDisk sm.baseDir dir (CutShort o before (View.enforceLimit o ⟨sm, diskOf dir fs⟩))) fs := by
  unfold enforceLimit View.enforceLimit
  split
  · exact Prog.stops_pure ⟨layout, Or.inl htext⟩ sm
  · refine stops_seq (Prog.stops_mono (fun fs' hfs' => ⟨hfs'.1, Or.inl hfs'.2⟩)
      (stops_evictLoop o sm.metaMap.entries.length hnamed layout htext))
      (leaves_evictLoop o sm.metaMap.entries.length hnamed layout) fun fs' layout' hdisk => ?_
    have frame := evictLoop_frame o sm.metaMap.entries.length ⟨sm, diskOf dir fs⟩
    have hbase : (View.evictLoop o sm.metaMap.entries.length ⟨sm, diskOf dir fs⟩).sm.baseDir =
        sm.baseDir := frame.baseDir
    rw [← hbase] at layout' ⊢
    have hsaved := @stops_persist o (View.evictLoop o sm.metaMap.entries.length
      ⟨sm, diskOf dir fs⟩).sm dir fs' k layout' before
      (by rw [hdisk]; exact frame.metadata.trans htext) _
      (View.evictLoop o sm.metaMap.entries.length ⟨sm, diskOf dir fs⟩).sm
    rw [hdisk] at hsaved
    exact hsaved

theorem stops_storeChunk (hnamed : sm.Named) (layout : Layout sm.baseDir dir fs) {hash : Bytes}
    (hhash : IsHashHex hash) (data : Bytes) :
    (sm.storeChunk o hash data).Stops FileSystem.handle (FileSystem.cut k)
      (OnDisk sm.baseDir dir (CutShort o ⟨sm, diskOf dir fs⟩
        (View.storeChunk o ⟨sm, diskOf dir fs⟩ hash data))) fs := by
  have hbase := baseDir_release sm hash
  -- the calls before the limit leave the metadata alone
  have hkept : ∀ d : Disk, d.metadata = (diskOf dir fs).metadata → CutShort o ⟨sm, diskOf dir fs⟩
      (View.storeChunk o ⟨sm, diskOf dir fs⟩ hash data) d := fun d hd => Or.inl hd
  unfold storeChunk
  rw [if_neg hhash.ne_nil]
  rw [← hbase] at layout ⊢
  have htmp := resolve_tmpPath layout hhash
  have hopens := leaves_truncate layout htmp
  refine stops_seq (stops_call rfl layout (hkept _ rfl) hopens (hkept _ rfl)) hopens
    fun fs₁ layout₁ hdisk₁ => ?_
  simp only [Bool.true_eq_false, ↓reduceIte]
  have hold₁ : (diskOf dir fs₁).chunk (hash ++ str ".tmp") = some [] := by
    rw [hdisk₁]
    simp [Disk.put]
  have hmeta₁ : (diskOf dir fs₁).metadata = (diskOf dir fs).metadata := by
    rw [hdisk₁]
    rfl
  have hwrites : ∀ bytes, Leaves (sm.release hash).baseDir dir
      (Fs.append ((sm.release hash).chunkPath hash ++ str ".tmp") bytes) fs₁ ()
      ((diskOf dir fs₁).put (hash ++ str ".tmp") bytes) := fun bytes =>
    leaves_append layout₁ (resolve_tmpPath layout₁ hhash) hold₁
  have hstops : ∀ bytes, OnDisk (sm.release hash).baseDir dir
      (CutShort o ⟨sm, diskOf dir fs⟩ (View.storeChunk o ⟨sm, diskOf dir fs⟩ hash data))
      (fs₁.append ((sm.release hash).chunkPath hash ++ str ".tmp") bytes) := by
    intro bytes
    obtain ⟨fs', hrun, layout', hdisk'⟩ := hwrites bytes
    cases hrun
    exact ⟨layout', hkept _ ((congrArg Disk.metadata hdisk').trans hmeta₁)⟩
  refine stops_seq (Prog.stops_ask (hstops _) (hstops _)) (hwrites data)
    fun fs₂ layout₂ hdisk₂ => ?_
  have hmeta₂ : (diskOf dir fs₂).metadata = (diskOf dir fs).metadata := by
    rw [hdisk₂]
    exact hmeta₁
  have hold₂ : (diskOf dir fs₂).chunk (hash ++ str ".tmp") = some data := by
    rw [hdisk₂]
    simp [Disk.put]
  have hrenames := leaves_rename layout₂ (resolve_tmpPath layout₂ hhash)
    (resolve_chunkPath layout₂ hhash) hold₂
  refine stops_seq (stops_call rfl layout₂ (hkept _ hmeta₂) hrenames (hkept _ hmeta₂)) hrenames
    fun fs₃ layout₃ hdisk₃ => ?_
  simp only [Bool.true_eq_false, ↓reduceIte]
  have hwritten : diskOf dir fs₃ = ((diskOf dir fs).drop (hash ++ str ".tmp")).put hash data := by
    rw [hdisk₃, hdisk₂, hdisk₁]
    simp [Disk.put, Disk.drop, Function.update_idem]
  have hlimited := @stops_enforceLimit o ((sm.release hash).record hash (UInt64.ofNat data.length))
    dir fs₃ k (hnamed.record hhash _) layout₃ ⟨sm, diskOf dir fs⟩ (by rw [hwritten]; rfl)
  rw [hwritten] at hlimited
  exact hlimited

theorem stops_deleteChunk (layout : Layout sm.baseDir dir fs) {hash : Bytes}
    (hhash : IsHashHex hash) :
    (sm.deleteChunk o hash).Stops FileSystem.handle (FileSystem.cut k)
      (OnDisk sm.baseDir dir (CutShort o ⟨sm, diskOf dir fs⟩
        (View.deleteChunk o ⟨sm, diskOf dir fs⟩ hash))) fs := by
  have hbase := baseDir_release sm hash
  unfold deleteChunk View.deleteChunk
  rw [← hbase] at layout ⊢
  have hremoves := leaves_remove layout (@resolve_chunkPath
    { sm.release hash with metaMap := sm.metaMap.erase hash } _ _ layout _ hhash)
  refine stops_seq (stops_call rfl layout (Or.inl rfl) hremoves (Or.inl rfl)) hremoves
    fun fs₁ layout₁ hdisk₁ => ?_
  have hsaved := @stops_persist o { sm.release hash with metaMap := sm.metaMap.erase hash } dir fs₁
    k layout₁ ⟨sm, diskOf dir fs⟩ (by rw [hdisk₁]; rfl) _
    { sm.release hash with metaMap := sm.metaMap.erase hash }
  rw [hdisk₁] at hsaved
  exact hsaved

theorem stops_loadChunk (layout : Layout sm.baseDir dir fs) {hash : Bytes} {after : View}
    (hmissing : ∀ data, (diskOf dir fs).chunk hash = some data →
      after = View.loadChunk o ⟨sm, diskOf dir fs⟩ hash)
    (hhash : IsHashHex hash) :
    (sm.loadChunk o hash).Stops FileSystem.handle (FileSystem.cut k)
      (OnDisk sm.baseDir dir (CutShort o ⟨sm, diskOf dir fs⟩ after)) fs := by
  have hread := read_of_resolve (resolve_chunkPath layout hhash) (layout.not_blocked_chunk hash)
  unfold loadChunk
  refine Prog.stops_bind (Prog.stops_ask ⟨layout, Or.inl rfl⟩ ⟨layout, Or.inl rfl⟩)
    fun file fs' hrun => ?_
  cases hrun
  simp only [FileSystem.handle, hread]
  cases hfile : fs.files.lookup (chunkAt dir hash) with
  | none => exact Prog.stops_throw ⟨layout, Or.inl rfl⟩ _
  | some data =>
      have hbase := baseDir_touch sm hash
      rw [hmissing data hfile]
      simp only [Option.elim_some, fileBuffer]
      rw [← hbase] at layout ⊢
      exact stops_persist o layout rfl _

end StorageManager

/-- The disk on which the operation is stopped after `n` calls, the next one cut short to `k`
bytes. -/
def StoreOp.stopped (op : StoreOp) (o : Orders) (s : Store) (n k : Nat) : FileSystem :=
  Prog.stopped FileSystem.handle (FileSystem.cut k) n (op.prog o s.sm) s.fs

def StoreOp.IsRestart : StoreOp → Prop
  | .restart _ _ => True
  | _ => False

/-- **A stop leaves the metadata of before, or the files of after and a part of the new text.** -/
theorem cutShort_of_stopped {s : Store} {dir : Path} (layout : Layout s.sm.baseDir dir s.fs)
    (hnamed : s.sm.Named) (o : Orders) {op : StoreOp} (hop : op.HexId) (hcall : ¬ op.IsRestart)
    (n k : Nat) :
    Layout s.sm.baseDir dir (op.stopped o s n k) ∧
      CutShort o (s.view dir) ((s.step o op).2.view dir) (diskOf dir (op.stopped o s n k)) := by
  obtain ⟨hstep, -⟩ := step_view o hop hnamed layout
  generalize (s.step o op).1 = outcome at *
  generalize (s.step o op).2.view dir = after at *
  cases hstep with
  | storeChunk hash data => exact StorageManager.stops_storeChunk o hnamed layout hop data n
  | @loadChunk hash data hfile =>
      refine Prog.stops_bind (StorageManager.stops_loadChunk o layout (fun _ _ => rfl) hop)
        (fun a fs' hrun => Prog.stops_pure ?_ _) n
      obtain ⟨fs₁, hrun', layout₁, hdisk₁⟩ := StorageManager.leaves_loadChunk o layout hop hfile
      cases hrun'.symm.trans hrun
      refine ⟨layout₁, ?_⟩
      rw [hdisk₁]
      exact cutShort_persist o _ ⟨s.sm.touch hash, diskOf dir s.fs⟩
  | @missing hash hfile =>
      have hmissing : ∀ data, (diskOf dir s.fs).chunk hash = some data →
          s.view dir = View.loadChunk o ⟨s.sm, diskOf dir s.fs⟩ hash := fun data hdata => by
        rw [show (diskOf dir s.fs).chunk hash = none from hfile] at hdata
        cases hdata
      refine Prog.stops_bind (StorageManager.stops_loadChunk o layout hmissing hop)
        (fun a fs' hrun => ?_) n
      cases (StorageManager.run_loadChunk_missing o layout hop hfile).symm.trans hrun
  | deleteChunk hash => exact StorageManager.stops_deleteChunk o layout hop n
  | setMaxBytes bytes =>
      exact @StorageManager.stops_enforceLimit o { s.sm with maxBytes := bytes } dir s.fs k hnamed
        layout (s.view dir) rfl n
  | restart hboot => exact absurd trivial hcall

/-! ### A start on what is left -/

/-- The keys of the map are the ids whose final file exists, every size is the length of the file,
and the counter is the sum of the sizes. -/
structure Recovered (v : View) : Prop where
  keys : ∀ id, id ∈ v.sm.metaMap ↔ IsHashHex id ∧ (v.disk.chunk id).isSome
  sizes : ∀ id m, v.sm.metaMap.lookup id = some m →
    ∃ data, v.disk.chunk id = some data ∧ data.length = m.size.toNat
  used : Exact v.sm

theorem recovered_iff {v : View} (hnamed : v.sm.Named) : Recovered v ↔
    (∀ id, IsHashHex id → (v.disk.chunk id).map List.length =
      (v.sm.metaMap.lookup id).map fun m => m.size.toNat) ∧ Exact v.sm := by
  constructor
  · intro recovered
    refine ⟨fun id hid => ?_, recovered.used⟩
    cases hlookup : v.sm.metaMap.lookup id with
    | some m =>
        obtain ⟨data, hdata, hlen⟩ := recovered.sizes id m hlookup
        rw [hdata, Option.map_some, Option.map_some, hlen]
    | none =>
        have hkey := recovered.keys id
        rw [← AList.lookup_isSome, hlookup] at hkey
        cases hchunk : v.disk.chunk id with
        | none => rfl
        | some data => exact absurd (hkey.mpr ⟨hid, by rw [hchunk]; rfl⟩) (by simp)
  · rintro ⟨hlengths, hexact⟩
    refine ⟨fun id => ?_, fun id m hlookup => ?_, hexact⟩
    · rw [← AList.lookup_isSome]
      constructor
      · intro hsome
        have hid := hnamed id (AList.lookup_isSome.mp hsome)
        have hlength := congrArg Option.isSome (hlengths id hid)
        rw [Option.isSome_map, Option.isSome_map] at hlength
        exact ⟨hid, hlength.trans hsome⟩
      · rintro ⟨hid, hsome⟩
        have hlength := congrArg Option.isSome (hlengths id hid)
        rw [Option.isSome_map, Option.isSome_map] at hlength
        exact hlength.symm.trans hsome
    · have hid := hnamed id (AList.lookup_isSome.mp (by rw [hlookup]; rfl))
      have hlength := hlengths id hid
      rw [hlookup, Option.map_some] at hlength
      exact Option.map_eq_some_iff.mp hlength

theorem recovered_of_filesAgree {v : View} (hagree : FilesAgree v) (hexact : Exact v.sm)
    (hfiles : ∀ name data, v.disk.chunk name = some data → IsHashHex name) : Recovered v := by
  refine (recovered_iff fun id hid => ?_).mpr ⟨fun id _ => hagree id, hexact⟩
  have hsome := congrArg Option.isSome (hagree id)
  rw [Option.isSome_map, Option.isSome_map, AList.lookup_isSome.mpr hid] at hsome
  obtain ⟨data, hdata⟩ := Option.isSome_iff_exists.mp hsome
  exact hfiles id data hdata

inductive SafelyCut (o : Orders) (before after : View) (d : Disk) : Prop where
  /-- The metadata is that of before, and so are the lengths of the chunks. -/
  | unwritten (hmeta : d.metadata = before.disk.metadata)
      (hlengths : ∀ id, IsHashHex id → (d.chunk id).map List.length =
        (before.disk.chunk id).map List.length)
  /-- Of the new text there is no digit of the byte total. -/
  | headless (k : Nat) (hchunk : d.chunk = after.disk.chunk)
      (hmeta : d.metadata = some ((after.sm.metadataText o).take k))
      (hk : k ≤ (decimal after.sm.accessCounter.toNat).length + 1)
  /-- Of the new text there is a digit of the last number. -/
  | complete (k : Nat) (hchunk : d.chunk = after.disk.chunk)
      (hmeta : d.metadata = some ((after.sm.metadataText o).take k))
      (hk : (after.sm.metadataText o).length ≤
        k + lastNumber after.sm.usedBytes (o.metaMap.order after.sm.metaMap.entries))

section Boots

variable {o o' : Orders} {base : Bytes} {maxBytes : UInt64} {before after v : View} {d : Disk}
  {trace trace' : Trace}

theorem recovered_unwritten_iff (faithful : Faithful trace before)
    (hmeta : d.metadata = before.disk.metadata) (hboot : Boots o' (.fresh base maxBytes) d v) :
    Recovered v ↔ ∀ id, IsHashHex id → (d.chunk id).map List.length =
      (before.disk.chunk id).map List.length := by
  have hrecords : d.Records before.sm := by
    obtain ⟨entries, hperm, htext⟩ := faithful.records
    exact ⟨entries, hperm, hmeta.trans htext⟩
  obtain ⟨hsame, hdisk, -⟩ := hboot.of_records faithful.named.books hrecords
  have hexact : Exact v.sm := (hsame.ledger faithful.ledger).used
  have hlookup : ∀ id, v.sm.metaMap.lookup id = before.sm.metaMap.lookup id := fun id =>
    AList.perm_lookup hsame.entries
  rw [recovered_iff (hsame.named faithful.named.books), and_iff_left hexact]
  refine forall₂_congr fun id hid => ?_
  rw [hlookup, hdisk, faithful.files id]

theorem recovered_of_headless (faithful : Faithful trace after)
    (hchunk : d.chunk = after.disk.chunk) {k : Nat}
    (hmeta : d.metadata = some ((after.sm.metadataText o).take k))
    (hk : k ≤ (decimal after.sm.accessCounter.toNat).length + 1)
    (hboot : Boots o' (.fresh base maxBytes) d v) : Recovered v := by
  have hnone := parseMetadata_headless (.fresh base maxBytes) after.sm.accessCounter
    after.sm.usedBytes (o.metaMap.order after.sm.metaMap.entries) hk
  have hfiles := hboot.chunk.trans hchunk
  cases hboot with
  | recover htext hparse =>
      cases hmeta.symm.trans htext
      cases hnone.symm.trans hparse
  | rebuild hlost hscan =>
      obtain ⟨hledger, -, hlisted⟩ := rebuild_books faithful.ledger faithful.files hchunk hscan
        base maxBytes
      exact recovered_of_filesAgree (faithful.files.congr hfiles hlisted) hledger.used
        fun name data hdata => faithful.named.files name data
          ((congrFun hfiles name).symm.trans hdata)

theorem recovered_torn_iff (faithful : Faithful trace after)
    (hchunk : d.chunk = after.disk.chunk) {k : Nat}
    (hmeta : d.metadata = some ((after.sm.metadataText o).take k))
    (hk : (decimal after.sm.accessCounter.toNat).length + 1 < k)
    (hboot : Boots o' (.fresh base maxBytes) d v) :
    Recovered v ↔ (after.sm.metadataText o).length ≤
      k + lastNumber after.sm.usedBytes (o.metaMap.order after.sm.metaMap.entries) := by
  have hperm := o.metaMap.perm after.sm.metaMap.entries
  have hids : ∀ e ∈ o.metaMap.order after.sm.metaMap.entries, Token e.1 := fun e he =>
    (faithful.named.books e.1 (MetaMap.fst_mem (hperm.subset he))).token
  have hnodup : ((o.metaMap.order after.sm.metaMap.entries).map Sigma.fst).Nodup :=
    (hperm.map Sigma.fst).nodup_iff.mpr after.sm.metaMap.keys_nodup
  have hused : after.sm.usedBytes.toNat = totalSize (o.metaMap.order after.sm.metaMap.entries) :=
    calc after.sm.usedBytes.toNat = totalSize after.sm.metaMap.entries := faithful.ledger.used
      _ = totalSize (o.metaMap.order after.sm.metaMap.entries) :=
          Lru.total_perm MetaEntry.size hperm.symm
  obtain ⟨sm', hparse, hcomplete, hcut⟩ := parseMetadata_torn (.fresh base maxBytes)
    after.sm.accessCounter hids hnodup hused hk
  cases hboot with
  | rebuild hlost hscan => cases hparse.symm.trans (hlost _ hmeta)
  | recover htext hread =>
      cases hmeta.symm.trans htext
      cases hparse.symm.trans hread
      constructor
      · intro recovered
        by_contra hshort
        obtain ⟨e, he, hmissing⟩ := hcut (Nat.not_le.mp hshort)
        -- the file of the missing entry is there
        have hresident := MetaMap.fst_mem (hperm.subset he)
        have hsome := congrArg Option.isSome (faithful.files e.1)
        rw [Option.isSome_map, Option.isSome_map, AList.lookup_isSome.mpr hresident,
          ← hchunk] at hsome
        exact hmissing ((recovered.keys e.1).mpr ⟨faithful.named.books _ hresident, hsome⟩)
      · intro hall
        obtain ⟨hlisted, hsame⟩ := hcomplete hall
        have hexact : Exact sm' := by
          have htotal := (hlisted.map Prod.snd).sum_eq
          rw [List.map_map, List.map_map] at htotal
          calc sm'.usedBytes.toNat = after.sm.usedBytes.toNat := congrArg UInt64.toNat hsame
            _ = totalSize (o.metaMap.order after.sm.metaMap.entries) := hused
            _ = totalSize sm'.metaMap.entries := htotal.symm
        have hagree : FilesAgree ⟨sm', d⟩ :=
          faithful.files.congr hchunk (hlisted.trans (hperm.map _))
        exact recovered_of_filesAgree hagree hexact fun name data hdata =>
          faithful.named.files name data ((congrFun hchunk name).symm.trans hdata)

end Boots

/-- **Recovery from a stop.** A start after a stopped operation recovers the store exactly if the
operation was cut safely. -/
theorem crash_recovered_iff (o₀ : Orders) {base : Bytes} {dir : Path} {fs : FileSystem}
    (empty : EmptyDir base dir fs) {maxBytes : UInt64} (hpositive : maxBytes ≠ 0) {trace : Trace}
    {s : Store} (hrun : Runs StoreOp.Ordinary (Store.boot o₀ base maxBytes fs).2 trace s)
    (o : Orders) {op : StoreOp} (hop : op.Ordinary s) (hcall : ¬ op.IsRestart) (n k : Nat)
    (o' : Orders) (limit : UInt64) :
    Recovered ((Store.boot o' s.sm.baseDir limit (op.stopped o s n k)).2.view dir) ↔
      SafelyCut o (s.view dir) ((s.step o op).2.view dir) (diskOf dir (op.stopped o s n k)) := by
  obtain ⟨layout, faithful⟩ := faithful_of_run empty hpositive hrun
  obtain ⟨hstep, -⟩ := step_view o hop.1 faithful.named.books layout
  have faithful' := hstep.faithful hop.1 hop.2.1 hop.2.2 faithful
  obtain ⟨layout', hcut⟩ := cutShort_of_stopped layout faithful.named.books o hop.1 hcall n k
  obtain ⟨-, hboot, -⟩ := boot_of_layout o' layout' limit
  constructor
  · intro recovered
    rcases hcut with hmeta | ⟨hchunk, j, hmeta⟩
    · exact .unwritten hmeta ((recovered_unwritten_iff faithful hmeta hboot).mp recovered)
    · by_cases hj : j ≤ (decimal (s.step o op).2.sm.accessCounter.toNat).length + 1
      · exact .headless j hchunk hmeta hj
      · exact .complete j hchunk hmeta
          ((recovered_torn_iff faithful' hchunk hmeta (Nat.not_le.mp hj) hboot).mp recovered)
  · rintro (⟨hmeta, hlengths⟩ | ⟨j, hchunk, hmeta, hj⟩ | ⟨j, hchunk, hmeta, hj⟩)
    · exact (recovered_unwritten_iff faithful hmeta hboot).mpr hlengths
    · exact recovered_of_headless faithful' hchunk hmeta hj hboot
    · by_cases hshort : j ≤ (decimal (s.step o op).2.sm.accessCounter.toNat).length + 1
      · exact recovered_of_headless faithful' hchunk hmeta hshort hboot
      · exact (recovered_torn_iff faithful' hchunk hmeta (Nat.not_le.mp hshort) hboot).mpr hj

/-- A store that is stopped before the rename is cut safely: only the temporary file is there. -/
theorem safelyCut_before_rename {s : Store} {dir : Path} (layout : Layout s.sm.baseDir dir s.fs)
    (o : Orders) {hash : Bytes} (hhash : IsHashHex hash) (data : Bytes) (after : View) {n : Nat}
    (hn : n ≤ 2) (k : Nat) :
    SafelyCut o (s.view dir) after
      (diskOf dir ((StoreOp.storeChunk hash data).stopped o s n k)) := by
  have hput : ∀ bytes, SafelyCut o (s.view dir) after
      ((diskOf dir s.fs).put (hash ++ str ".tmp") bytes) := fun bytes =>
    .unwritten rfl fun id hid => congrArg (Option.map List.length)
      (Function.update_of_ne (hhash.ne_tmp hid) _ _)
  rw [← StorageManager.baseDir_release s.sm hash] at layout
  obtain ⟨fs₁, hrun₁, layout₁, hdisk₁⟩ :=
    leaves_truncate layout (StorageManager.resolve_tmpPath layout hhash)
  rw [Fs.run_truncate, Prod.mk.injEq, Except.ok.injEq] at hrun₁
  have hopened : FileSystem.handle (.truncate ((s.sm.release hash).chunkPath hash ++ str ".tmp"))
      s.fs = (true, fs₁) := Prod.ext hrun₁.1 hrun₁.2
  have hold₁ : (diskOf dir fs₁).chunk (hash ++ str ".tmp") = some [] := by
    rw [hdisk₁]
    simp [Disk.put]
  have hwrite : ∀ bytes, diskOf dir
      (fs₁.append ((s.sm.release hash).chunkPath hash ++ str ".tmp") bytes) =
        (diskOf dir s.fs).put (hash ++ str ".tmp") bytes := by
    intro bytes
    have hleaves : Leaves (s.sm.release hash).baseDir dir
        (Fs.append ((s.sm.release hash).chunkPath hash ++ str ".tmp") bytes) fs₁ ()
        ((diskOf dir fs₁).put (hash ++ str ".tmp") ([] ++ bytes)) :=
      leaves_append layout₁ (StorageManager.resolve_tmpPath layout₁ hhash) hold₁
    obtain ⟨fs', hrun, -, hdisk⟩ := hleaves
    rw [Fs.run_append, Prod.mk.injEq] at hrun
    rw [hrun.2, hdisk, hdisk₁]
    simp [Disk.put]
  change SafelyCut o _ after (diskOf dir (Prog.stopped FileSystem.handle (FileSystem.cut k) n
    (s.sm.storeChunk o hash data) s.fs))
  unfold StorageManager.storeChunk
  rw [if_neg hhash.ne_nil]
  simp only [Fs.truncate, Fs.append, Fs.rename, Prog.stopped_ask_bind, hopened]
  obtain rfl | rfl | rfl : n = 0 ∨ n = 1 ∨ n = 2 := by omega
  · exact .unwritten rfl fun id _ => rfl
  · have hpart := hput (data.take k)
    rw [← hwrite] at hpart
    exact hpart
  · have hwhole := hput data
    rw [← hwrite] at hwhole
    exact hwhole

/-- A new peer is stopped before it renames the temporary file of its first chunk. -/
theorem stop_before_rename_recovered :
    Recovered ((Store.boot default newPeer.sm.baseDir 10
      ((StoreOp.storeChunk someId (str "data")).stopped default newPeer 2 0)).2.view
        [str "peer"]) := by
  have hpositive : (10 : UInt64) ≠ 0 := by decide
  have hrun : Runs StoreOp.Ordinary newPeer [] newPeer := Runs.start
  have hlayout := (faithful_of_run bareDisk_empty hpositive hrun).1
  exact (crash_recovered_iff default bareDisk_empty hpositive hrun default
    firstStore_ordinary (fun h => h) 2 0 default 10).mpr
      (safelyCut_before_rename hlayout default someId_hash (str "data") _ (Nat.le_refl 2) 0)

/-- It is stopped after that, and before it writes the metadata. -/
theorem stop_after_rename_not_recovered :
    ¬ ∀ (o₀ o o' : Orders) (maxBytes limit : UInt64) (trace : Trace) (s : Store) (op : StoreOp)
        (n k : Nat), maxBytes ≠ 0 →
      Runs StoreOp.Ordinary (Store.boot o₀ (str "/peer") maxBytes bareDisk).2 trace s →
      op.Ordinary s → ¬ op.IsRestart →
      Recovered ((Store.boot o' s.sm.baseDir limit (op.stopped o s n k)).2.view [str "peer"]) := by
  intro hall
  have recovered := hall default default default 10 10 [] newPeer _ 3 0 (by decide) Runs.start
    firstStore_ordinary (fun h => h)
  have hmem := (recovered.keys someId).mpr ⟨someId_hash, by decide +kernel⟩
  have hlost : ((Store.boot default newPeer.sm.baseDir 10
      ((StoreOp.storeChunk someId (str "data")).stopped default newPeer 3 0)).2.view
        [str "peer"]).sm.metaMap.lookup someId = none := by decide +kernel
  exact AList.lookup_eq_none.mp hlost hmem

end DecentStore
