import DecentStore.Proof.StoreFidelity

/-!
# Eviction over whole runs

The stamps order the resident chunks as the history of the run does: the more recent the latest
successful store or load of a chunk, the larger its stamp. With the loop of eviction this makes the
store an LRU cache.
-/

namespace DecentStore

open Bytes Posix FileSystem

/-- The ids of the successful stores and loads, latest first. -/
def uses : Trace → List Bytes
  | [] => []
  | (.storeChunk hash _, .done) :: trace => hash :: uses trace
  | (.loadChunk hash, .loaded _) :: trace => hash :: uses trace
  | _ :: trace => uses trace

/-- The stamps order the chunks by their latest use. -/
def UseOrdered (used : List Bytes) (sm : StorageManager) : Prop :=
  ∀ a ∈ sm.metaMap.entries, ∀ b ∈ sm.metaMap.entries,
    (b.2.lastAccess < a.2.lastAccess ↔ used.idxOf a.1 < used.idxOf b.1)

section UseOrdered

variable {used : List Bytes} {sm sm' : StorageManager} {hash : Bytes}

theorem UseOrdered.of_subset (hordered : UseOrdered used sm)
    (hsub : sm'.metaMap.entries ⊆ sm.metaMap.entries) : UseOrdered used sm' :=
  fun a ha b hb => hordered a (hsub ha) b (hsub hb)

theorem UseOrdered.cons_absent (hordered : UseOrdered used sm)
    (habsent : ∀ e ∈ sm.metaMap.entries, e.1 ≠ hash) : UseOrdered (hash :: used) sm := by
  intro a ha b hb
  rw [hordered a ha b hb, List.idxOf_cons_ne _ (habsent a ha).symm,
    List.idxOf_cons_ne _ (habsent b hb).symm]
  exact Nat.succ_lt_succ_iff.symm

theorem UseOrdered.stamp (ledger : Ledger sm) (hordered : UseOrdered used sm)
    (hcounter : sm.accessCounter.toNat + 1 < 2 ^ 64) {size : UInt64}
    (hmap : sm'.metaMap =
      sm.metaMap.insert hash { size := size, lastAccess := sm.accessCounter + 1 }) :
    UseOrdered (hash :: used) sm' := by
  have holder : ∀ e ∈ (sm.metaMap.erase hash).entries, e.2.lastAccess < sm.accessCounter + 1 := by
    intro e he
    have hissued := (ledger.issued e ((MetaMap.erase_sublist _ _).subset he)).2
    have hsucc := toNat_succ hcounter
    rw [UInt64.le_iff_toNat_le] at hissued
    rw [UInt64.lt_iff_toNat_lt]
    omega
  have hrest : UseOrdered (hash :: used) { sm with metaMap := sm.metaMap.erase hash } :=
    UseOrdered.cons_absent (hordered.of_subset (MetaMap.erase_sublist _ _).subset)
      fun e he => MetaMap.ne_of_mem_erase he
  intro a ha b hb
  rw [hmap] at ha hb
  rcases List.mem_cons.mp ha with rfl | ha
  · rcases List.mem_cons.mp hb with rfl | hb
    · simp
    · have hne := MetaMap.ne_of_mem_erase hb
      rw [List.idxOf_cons_self, List.idxOf_cons_ne _ hne.symm]
      exact iff_of_true (holder b hb) (Nat.succ_pos _)
  · rcases List.mem_cons.mp hb with rfl | hb
    · rw [List.idxOf_cons_self]
      exact iff_of_false (UInt64.lt_asymm (holder a ha)) (Nat.not_lt_zero _)
    · exact hrest a ha b hb

end UseOrdered

theorem enforceLimit_subset (o : Orders) (v : View) :
    (v.enforceLimit o).sm.metaMap.entries ⊆ v.sm.metaMap.entries := by
  by_cases hzero : v.sm.maxBytes = 0
  · rw [enforceLimit_of_zero o hzero]
    exact List.Subset.refl _
  · obtain ⟨v', frame, heq⟩ := enforceLimit_frame o hzero
    rw [heq]
    exact frame.entries.subset

theorem ViewStep.useOrdered {o : Orders} {v v' : View} {op : StoreOp} {outcome : Outcome}
    {trace : Trace} (hstep : ViewStep o v op outcome v') (hkeep : op.KeepsMetadata)
    (hfits : op.Fits v.sm) (faithful : Faithful trace v)
    (hordered : UseOrdered (uses trace) v.sm) :
    UseOrdered (uses ((op, outcome) :: trace)) v'.sm := by
  cases hstep with
  | storeChunk hash data =>
      have hwrite : UseOrdered (hash :: uses trace) (v.write hash data).sm := by
        obtain ⟨usedBytes, hrelease, -⟩ := faithful.ledger.release hash
        refine @UseOrdered.stamp _ _ _ _ faithful.ledger hordered hfits.2
          (UInt64.ofNat data.length) ?_
        rw [View.write, hrelease]
        rfl
      exact hwrite.of_subset (enforceLimit_subset o _)
  | @loadChunk hash data hfile =>
      cases hlookup : v.sm.metaMap.lookup hash with
      | none =>
          have htouch : v.sm.touch hash = v.sm := by
            unfold StorageManager.touch
            rw [hlookup]
          rw [View.loadChunk, htouch]
          refine hordered.cons_absent fun e he heq => ?_
          exact AList.lookup_eq_none.mp hlookup (heq ▸ MetaMap.fst_mem he)
      | some m =>
          refine @UseOrdered.stamp _ _ _ _ faithful.ledger hordered hfits m.size ?_
          simp only [View.loadChunk, View.persist, StorageManager.touch, hlookup]
  | missing hfile => exact hordered
  | deleteChunk hash => exact hordered.of_subset (MetaMap.erase_sublist _ _).subset
  | setMaxBytes bytes =>
      exact hordered.of_subset
        (enforceLimit_subset o { v with sm := { v.sm with maxBytes := bytes } })
  | restart hboot =>
      rw [StoreOp.KeepsMetadata] at hkeep
      rw [if_pos hkeep] at hboot
      obtain ⟨hsame, -, -⟩ := hboot.of_records faithful.named.books faithful.records
      exact hordered.of_subset hsame.entries.subset

theorem mem_uses_of_latestStore {hash data : Bytes} {trace : Trace}
    (hlatest : latestStore hash trace = some data) : hash ∈ uses trace := by
  induction trace with
  | nil => simp [latestStore] at hlatest
  | cons event trace ih =>
      obtain ⟨op, outcome⟩ := event
      cases op with
      | storeChunk other bytes =>
          cases outcome with
          | done =>
              rw [latestStore] at hlatest
              by_cases hother : other = hash
              · exact List.mem_cons.mpr (Or.inl hother.symm)
              · rw [if_neg hother] at hlatest
                exact List.mem_cons_of_mem _ (ih hlatest)
          | loaded found => exact ih hlatest
          | threw e => exact ih hlatest
      | loadChunk other =>
          cases outcome with
          | done => exact ih hlatest
          | loaded found => exact List.mem_cons_of_mem _ (ih hlatest)
          | threw e => exact ih hlatest
      | deleteChunk other =>
          cases outcome with
          | done =>
              rw [latestStore] at hlatest
              by_cases hother : other = hash
              · rw [if_pos hother] at hlatest
                cases hlatest
              · rw [if_neg hother] at hlatest
                exact ih hlatest
          | loaded found => exact ih hlatest
          | threw e => exact ih hlatest
      | setMaxBytes bytes => exact ih hlatest
      | restart maxBytes keepMetadata => exact ih hlatest

/-- Of the chunks `before`, with these contents, the store has kept exactly the longest run of most
recently used ones within the budget, with their stamps and contents. -/
def KeepsMostRecent (dir : Path) (budget : UInt64) (before : List MetaEntry)
    (content : Bytes → Option Bytes) (s : Store) : Prop :=
  ∃ recent kept : List MetaEntry, recent.Perm before ∧
    recent.Pairwise (fun a b => b.2.lastAccess < a.2.lastAccess) ∧
    Lru.LongestRun MetaEntry.size budget.toNat kept recent ∧
    s.sm.metaMap.entries.Perm kept ∧
    ∀ e ∈ kept, s.fs.files.lookup (chunkAt dir e.1) = content e.1

theorem KeepsMostRecent.congr {dir : Path} {budget : UInt64} {before : List MetaEntry}
    {content content' : Bytes → Option Bytes} {s : Store}
    (hsame : ∀ e ∈ before, content e.1 = content' e.1)
    (hkeeps : KeepsMostRecent dir budget before content s) :
    KeepsMostRecent dir budget before content' s := by
  obtain ⟨recent, kept, hperm, hsorted, hrun, hentries, hcontent⟩ := hkeeps
  refine ⟨recent, kept, hperm, hsorted, hrun, hentries, fun e he => ?_⟩
  rw [hcontent e he, hsame e (hperm.subset (hrun.isPrefix.subset he))]

theorem keepsMostRecent_enforceLimit {o : Orders} {v : View} {s : Store} {dir : Path}
    (ledger : Ledger v.sm) (hlimit : v.sm.maxBytes ≠ 0) (hview : s.view dir = v.enforceLimit o) :
    KeepsMostRecent dir v.sm.maxBytes v.sm.metaMap.entries v.disk.chunk s := by
  obtain ⟨recent, hrecency⟩ := ledger.exists_recency
  have hfit := enforceLimit_fit o ledger hlimit hrecency
  obtain ⟨v', frame, heq⟩ := enforceLimit_frame o hlimit
  rw [← hview] at hfit heq
  refine ⟨recent, _, hrecency.perm, hrecency.sorted, Lru.fit_longestRun _ _ _, hfit,
    fun e he => ?_⟩
  have hkept : e.1 ∈ v'.sm.metaMap := by
    rw [show v'.sm = (s.view dir).sm by rw [heq]; rfl]
    exact MetaMap.fst_mem (hfit.symm.subset he)
  have hchunk : s.fs.files.lookup (chunkAt dir e.1) = v'.disk.chunk e.1 := by
    rw [show s.fs.files.lookup (chunkAt dir e.1) = (s.view dir).disk.chunk e.1 from rfl, heq]
    rfl
  rw [hchunk, frame.chunk, if_neg (by tauto)]

def newestEntry (sm : StorageManager) (hash data : Bytes) : MetaEntry :=
  ⟨hash, { size := UInt64.ofNat data.length, lastAccess := sm.accessCounter + 1 }⟩

theorem recent_newestEntry {sm : StorageManager} {hash data : Bytes} {recent : List MetaEntry}
    (ledger : Ledger sm) (hcounter : sm.accessCounter.toNat + 1 < 2 ^ 64)
    (hperm : recent.Perm (newestEntry sm hash data :: (sm.metaMap.erase hash).entries))
    (hsorted : recent.Pairwise fun a b => b.2.lastAccess < a.2.lastAccess) :
    ∃ older, recent = newestEntry sm hash data :: older := by
  have hnewest : newestEntry sm hash data ∈ recent := hperm.symm.subset List.mem_cons_self
  obtain ⟨newer, older, hsplit⟩ := List.append_of_mem hnewest
  have hfirst : newer = [] := by
    refine List.eq_nil_iff_forall_not_mem.mpr fun x hx => ?_
    have hlt : sm.accessCounter + 1 < x.2.lastAccess := by
      rw [hsplit] at hsorted
      exact (List.pairwise_append.mp hsorted).2.2 x hx _ List.mem_cons_self
    have hsucc := toNat_succ hcounter
    rw [UInt64.lt_iff_toNat_lt] at hlt
    rcases List.mem_cons.mp (hperm.subset (hsplit ▸ List.mem_append_left _ hx)) with rfl | hold
    · exact absurd hlt (Nat.lt_irrefl _)
    · have hissued := (ledger.issued x ((MetaMap.erase_sublist _ _).subset hold)).2
      rw [UInt64.le_iff_toNat_le] at hissued
      omega
  exact ⟨older, by rw [hsplit, hfirst]; rfl⟩

/-- A chunk survives its own store exactly when it fits the budget. -/
theorem newestEntry_kept {sm : StorageManager} {hash data : Bytes} {dir : Path} {budget : UInt64}
    {content : Bytes → Option Bytes} {s : Store} (ledger : Ledger sm)
    (hcounter : sm.accessCounter.toNat + 1 < 2 ^ 64) (hbytes : data.length < 2 ^ 64)
    (hkeeps : KeepsMostRecent dir budget
      (newestEntry sm hash data :: (sm.metaMap.erase hash).entries) content s) :
    (data.length ≤ budget.toNat → hash ∈ s.sm.metaMap) ∧
      (budget.toNat < data.length → hash ∉ s.sm.metaMap) := by
  obtain ⟨recent, kept, hperm, hsorted, hrun, hentries, -⟩ := hkeeps
  obtain ⟨older, rfl⟩ := recent_newestEntry ledger hcounter hperm hsorted
  have hsize : (UInt64.ofNat data.length).toNat = data.length :=
    UInt64.toNat_ofNat_of_lt' hbytes
  constructor
  · intro hlen
    have hfits := hrun.longest [newestEntry sm hash data] ⟨older, rfl⟩
      (by simpa [newestEntry, hsize] using hlen)
    have hkept : newestEntry sm hash data ∈ kept := hfits.subset (List.mem_singleton_self _)
    exact MetaMap.fst_mem (hentries.symm.subset hkept)
  · intro hlen hmem
    cases kept with
    | nil =>
        obtain ⟨m, hm⟩ := Option.isSome_iff_exists.mp (AList.lookup_isSome.mpr hmem)
        exact absurd (hentries.subset (AList.mem_lookup_iff.mp hm)) List.not_mem_nil
    | cons e kept =>
        obtain ⟨rfl, -⟩ := List.cons_prefix_cons.mp hrun.isPrefix
        have hwithin := hrun.within
        rw [Lru.total_cons] at hwithin
        exact absurd ((Nat.le_add_right _ _).trans hwithin)
          (by simpa [newestEntry, hsize] using hlen)

theorem storeChunk_keepsMostRecent {o : Orders} {v : View} {s : Store} {dir : Path}
    {hash data : Bytes} (ledger : Ledger v.sm)
    (hfits : (StoreOp.storeChunk hash data).Fits v.sm) (hlimit : v.sm.maxBytes ≠ 0)
    (hview : s.view dir = v.storeChunk o hash data) :
    KeepsMostRecent dir v.sm.maxBytes
      (newestEntry v.sm hash data :: (v.sm.metaMap.erase hash).entries)
      (v.write hash data).disk.chunk s := by
  have hmax : (v.write hash data).sm.maxBytes = v.sm.maxBytes := maxBytes_release v.sm hash
  have hkeeps := keepsMostRecent_enforceLimit (ledger.write hfits) (hmax.trans_ne hlimit) hview
  have hentries : (v.write hash data).sm.metaMap.entries =
      newestEntry v.sm hash data :: (v.sm.metaMap.erase hash).entries := by
    obtain ⟨usedBytes, hrelease, -⟩ := ledger.release hash
    rw [View.write, hrelease]
    rfl
  rwa [hmax, hentries] at hkeeps

/-- Ordinary operations whose restarts keep the metadata. -/
def StoreOp.Recorded (s : Store) (op : StoreOp) : Prop := op.Ordinary s ∧ op.KeepsMetadata

theorem useOrdered_of_run {o₀ : Orders} {base : Bytes} {dir : Path} {fs : FileSystem}
    (empty : EmptyDir base dir fs) {maxBytes : UInt64} (hpositive : maxBytes ≠ 0) {trace : Trace}
    {s : Store} (hrun : Runs StoreOp.Recorded (Store.boot o₀ base maxBytes fs).2 trace s) :
    Layout s.sm.baseDir dir s.fs ∧ Faithful trace (s.view dir) ∧
      UseOrdered (uses trace) s.sm := by
  have hfirst : ∀ v, Boots o₀ (.fresh base maxBytes) ⟨fun _ => none, none⟩ v →
      Faithful [] v ∧ UseOrdered (uses []) v.sm := by
    intro v hboot
    refine ⟨faithful_first hpositive hboot, ?_⟩
    rw [hboot.of_empty]
    exact fun a ha => absurd ha List.not_mem_nil
  exact Runs.invariant_of_empty empty
    (fun trace v => Faithful trace v ∧ UseOrdered (uses trace) v.sm) hfirst
    (fun _ _ hv => hv.1.named.books) (fun _ _ hop => hop.1.1)
    (fun hop hv hstep => ⟨hstep.faithful hop.1.1 hop.1.2.1 hop.1.2.2 hv.1,
      hstep.useOrdered hop.2 hop.1.2.2 hv.1 hv.2⟩) hrun

/-- **Eviction is exactly LRU.** In every state of a run with positive limits and restarts that keep
the metadata, the stamps are distinct, issued, and ordered as the latest uses are; a store and a
change of the limit leave exactly the longest run of most recently used chunks within the limit,
the chunk just stored being the most recent, so one that fits the limit survives its own store. -/
theorem eviction_is_lru (o₀ : Orders) {base : Bytes} {dir : Path} {fs : FileSystem}
    (empty : EmptyDir base dir fs) {maxBytes : UInt64} (hpositive : maxBytes ≠ 0) {trace : Trace}
    {s : Store} (hrun : Runs StoreOp.Recorded (Store.boot o₀ base maxBytes fs).2 trace s) :
    s.sm.metaMap.entries.Pairwise (fun a b => a.2.lastAccess ≠ b.2.lastAccess) ∧
      (∀ e ∈ s.sm.metaMap.entries, e.2.lastAccess ≤ s.sm.accessCounter ∧ e.1 ∈ uses trace) ∧
      (∀ a ∈ s.sm.metaMap.entries, ∀ b ∈ s.sm.metaMap.entries,
        (b.2.lastAccess < a.2.lastAccess ↔ (uses trace).idxOf a.1 < (uses trace).idxOf b.1)) ∧
      (∀ o hash data, (StoreOp.storeChunk hash data).Ordinary s →
        KeepsMostRecent dir s.sm.maxBytes
            (newestEntry s.sm hash data :: (s.sm.metaMap.erase hash).entries)
            (fun name => if name = hash then some data
              else s.fs.files.lookup (chunkAt dir name))
            (s.step o (.storeChunk hash data)).2 ∧
          (data.length ≤ s.sm.maxBytes.toNat →
            hash ∈ (s.step o (.storeChunk hash data)).2.sm.metaMap)) ∧
      ∀ o bytes, bytes ≠ 0 →
        KeepsMostRecent dir bytes s.sm.metaMap.entries
          (fun name => s.fs.files.lookup (chunkAt dir name)) (s.step o (.setMaxBytes bytes)).2 := by
  obtain ⟨layout, faithful, hordered⟩ := useOrdered_of_run empty hpositive hrun
  have hnamed : s.sm.Named := faithful.named.books
  refine ⟨faithful.ledger.distinct, fun e he => ⟨(faithful.ledger.issued e he).2, ?_⟩, hordered,
    fun o hash data hop => ?_, fun o bytes hbytes => ?_⟩
  · -- a resident chunk has a file, and files come from stores
    have hfile := faithful.files e.1
    have hlookup : (s.view dir).sm.metaMap.lookup e.1 = some e.2 := AList.mem_lookup_iff.mpr he
    rw [hlookup, Option.map_some] at hfile
    obtain ⟨data, hdata, -⟩ := Option.map_eq_some_iff.mp hfile
    exact mem_uses_of_latestStore (faithful.latest e.1 data hdata)
  · obtain ⟨hstep, -⟩ := step_view o hop.1 hnamed layout
    have hkeeps := storeChunk_keepsMostRecent faithful.ledger hop.2.2 faithful.limited
      hstep.of_storeChunk.2
    have hbytes : data.length < 2 ^ 64 := lt_of_le_of_lt (Nat.le_add_left _ _) hop.2.2.1
    have hkept := newestEntry_kept faithful.ledger hop.2.2.2 hbytes hkeeps
    refine ⟨hkeeps.congr fun e hbefore => ?_, hkept.1⟩
    have htmp : e.1 ≠ hash ++ str ".tmp" := by
      rcases List.mem_cons.mp hbefore with rfl | hold
      · exact hop.1.ne_tmp hop.1
      · exact hop.1.ne_tmp (hnamed e.1 (AList.mem_erase.mp (MetaMap.fst_mem hold)).2)
    rw [chunk_write htmp]
    rfl
  · obtain ⟨hstep, -⟩ := @step_view o (.setMaxBytes bytes) s dir trivial hnamed layout
    have hbooks : Ledger { s.sm with maxBytes := bytes } :=
      ⟨faithful.ledger.used, faithful.ledger.distinct, faithful.ledger.issued⟩
    refine @keepsMostRecent_enforceLimit o ⟨{ s.sm with maxBytes := bytes }, diskOf dir s.fs⟩ _ dir
      hbooks hbytes ?_
    generalize (s.step o (.setMaxBytes bytes)).1 = outcome at *
    generalize (s.step o (.setMaxBytes bytes)).2.view dir = v at *
    cases hstep
    rfl

theorem firstStore_survives :
    someId ∈ (newPeer.step default (.storeChunk someId (str "data"))).2.sm.metaMap :=
  ((eviction_is_lru default bareDisk_empty (by decide) Runs.start).2.2.2.1 default someId
    (str "data") firstStore_ordinary).2 (by decide +kernel)

end DecentStore
