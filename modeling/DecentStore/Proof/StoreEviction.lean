import DecentStore.Proof.StoreLedger
import Mathlib.Data.List.Sort

/-!
# Eviction

The loop removes the entry with the oldest stamp until the rest fits. On books that agree with the
sizes, what it leaves is the longest run of most recently used chunks within the limit: ordered by
recency, the victim is the last entry, and dropping the last entry of a list that is too heavy does
not change what of it fits.
-/

namespace DecentStore

open Bytes Posix

/-- The scan keeps an entry that no entry is older than. -/
theorem foldl_olderOf (rest : List MetaEntry) (first : MetaEntry) :
    rest.foldl StorageManager.olderOf first ∈ first :: rest ∧
      ∀ e ∈ first :: rest, (rest.foldl StorageManager.olderOf first).2.lastAccess ≤
        e.2.lastAccess := by
  induction rest generalizing first with
  | nil => simp
  | cons entry rest ih =>
      obtain ⟨hmem, hmin⟩ := ih (StorageManager.olderOf first entry)
      have hbest := hmin _ List.mem_cons_self
      rw [List.foldl_cons]
      by_cases holder : entry.2.lastAccess < first.2.lastAccess
      · rw [StorageManager.olderOf, if_pos holder] at hmem hmin hbest ⊢
        refine ⟨List.mem_cons_of_mem first hmem, fun e he => ?_⟩
        rcases List.mem_cons.mp he with rfl | he
        · exact UInt64.le_trans hbest (UInt64.le_of_lt holder)
        · exact hmin e he
      · rw [StorageManager.olderOf, if_neg holder] at hmem hmin hbest ⊢
        refine ⟨?_, fun e he => ?_⟩
        · rcases List.mem_cons.mp hmem with heq | hmem
          · rw [heq]
            exact List.mem_cons_self
          · exact List.mem_cons_of_mem _ (List.mem_cons_of_mem _ hmem)
        · rcases List.mem_cons.mp he with rfl | he
          · exact hbest
          rcases List.mem_cons.mp he with rfl | he
          · exact UInt64.le_trans hbest (UInt64.not_lt.mp holder)
          · exact hmin e (List.mem_cons_of_mem _ he)

theorem lruVictim_spec {o : Orders} {sm : StorageManager} {victim : MetaEntry}
    (hvictim : sm.lruVictim o = some victim) :
    victim ∈ sm.metaMap.entries ∧
      ∀ e ∈ sm.metaMap.entries, victim.2.lastAccess ≤ e.2.lastAccess := by
  have hperm := o.metaMap.perm sm.metaMap.entries
  unfold StorageManager.lruVictim at hvictim
  split at hvictim
  · simp at hvictim
  · rename_i first rest horder
    cases hvictim
    rw [horder] at hperm
    obtain ⟨hmem, hmin⟩ := foldl_olderOf rest first
    exact ⟨hperm.subset hmem, fun e he => hmin e (hperm.symm.subset he)⟩

theorem lruVictim_isSome (o : Orders) {sm : StorageManager} (hne : sm.metaMap.entries ≠ []) :
    ∃ victim, sm.lruVictim o = some victim := by
  have hperm := o.metaMap.perm sm.metaMap.entries
  unfold StorageManager.lruVictim
  split
  · rename_i horder
    rw [horder] at hperm
    exact absurd (List.nil_perm.mp hperm) hne
  · exact ⟨_, rfl⟩

/-- The resident chunks, most recently used first. -/
structure Recency (items : List MetaEntry) (sm : StorageManager) : Prop where
  perm : items.Perm sm.metaMap.entries
  sorted : items.Pairwise fun a b => b.2.lastAccess < a.2.lastAccess

theorem Ledger.exists_recency {sm : StorageManager} (ledger : Ledger sm) :
    ∃ items, Recency items sm := by
  let newer : MetaEntry → MetaEntry → Prop := fun a b => b.2.lastAccess ≤ a.2.lastAccess
  have hnewer : DecidableRel newer := fun a b => inferInstanceAs (Decidable (_ ≤ _))
  have htotal : Std.Total newer := ⟨fun a b => UInt64.le_total _ _⟩
  have htrans : IsTrans MetaEntry newer := ⟨fun a b c hab hbc => UInt64.le_trans hbc hab⟩
  have hperm := List.perm_insertionSort newer sm.metaMap.entries
  have hdistinct := (hperm.pairwise_iff fun h => h.symm).mpr ledger.distinct
  refine ⟨sm.metaMap.entries.insertionSort newer, hperm, ?_⟩
  refine ((List.pairwise_insertionSort newer sm.metaMap.entries).and hdistinct).imp ?_
  exact fun hab => UInt64.lt_of_le_of_ne hab.1 hab.2.symm

theorem Recency.victim {o : Orders} {sm : StorageManager} {items : List MetaEntry} {x : MetaEntry}
    (hrecency : Recency (items ++ [x]) sm) : sm.lruVictim o = some x := by
  have hx : x ∈ sm.metaMap.entries := hrecency.perm.subset (by simp)
  obtain ⟨victim, hvictim⟩ := lruVictim_isSome o (List.ne_nil_of_mem hx)
  obtain ⟨hmem, hmin⟩ := lruVictim_spec hvictim
  rcases List.mem_append.mp (hrecency.perm.symm.subset hmem) with hnewer | hlast
  · have hlt := (List.pairwise_append.mp hrecency.sorted).2.2 victim hnewer x (by simp)
    exact absurd (hmin x hx) (UInt64.not_le.mpr hlt)
  · rw [hvictim, List.mem_singleton.mp hlast]

theorem Recency.evict {v : View} {items : List MetaEntry} {x : MetaEntry}
    (hrecency : Recency (items ++ [x]) v.sm) : Recency items (v.evict x).sm := by
  have hx : x ∈ v.sm.metaMap.entries := hrecency.perm.subset (by simp)
  have hrest := MetaMap.perm_of_lookup (AList.mem_lookup_iff.mpr hx)
  have hconcat : (items ++ [x]).Perm (x :: items) := List.perm_append_singleton x items
  refine ⟨?_, (List.pairwise_append.mp hrecency.sorted).1⟩
  exact (List.perm_cons x).mp (hconcat.symm.trans (hrecency.perm.trans hrest))

/-- What eviction leaves alone. A chunk's file goes exactly when its entry does. -/
structure EvictFrame (v v' : View) : Prop where
  baseDir : v'.sm.baseDir = v.sm.baseDir
  maxBytes : v'.sm.maxBytes = v.sm.maxBytes
  accessCounter : v'.sm.accessCounter = v.sm.accessCounter
  entries : v'.sm.metaMap.entries.Sublist v.sm.metaMap.entries
  metadata : v'.disk.metadata = v.disk.metadata
  chunk : ∀ name, v'.disk.chunk name =
    if name ∈ v.sm.metaMap ∧ name ∉ v'.sm.metaMap then none else v.disk.chunk name

theorem EvictFrame.refl (v : View) : EvictFrame v v :=
  ⟨rfl, rfl, rfl, List.Sublist.refl _, rfl, fun name => by simp⟩

theorem EvictFrame.mem {v v' : View} (frame : EvictFrame v v') {name : Bytes}
    (hname : name ∈ v'.sm.metaMap) : name ∈ v.sm.metaMap :=
  AList.mem_keys.mpr ((frame.entries.map Sigma.fst).subset (AList.mem_keys.mp hname))

theorem EvictFrame.trans {v v' v'' : View} (frame : EvictFrame v v') (frame' : EvictFrame v' v'') :
    EvictFrame v v'' where
  baseDir := frame'.baseDir.trans frame.baseDir
  maxBytes := frame'.maxBytes.trans frame.maxBytes
  accessCounter := frame'.accessCounter.trans frame.accessCounter
  entries := frame'.entries.trans frame.entries
  metadata := frame'.metadata.trans frame.metadata
  chunk name := by
    have hsub : name ∈ v''.sm.metaMap → name ∈ v'.sm.metaMap := frame'.mem
    have hsub' : name ∈ v'.sm.metaMap → name ∈ v.sm.metaMap := frame.mem
    rw [frame'.chunk, frame.chunk]
    by_cases hmid : name ∈ v'.sm.metaMap <;> by_cases hlast : name ∈ v''.sm.metaMap <;> simp_all

theorem evictFrame_evict {v : View} {victim : MetaEntry}
    (hvictim : victim ∈ v.sm.metaMap.entries) : EvictFrame v (v.evict victim) where
  baseDir := rfl
  maxBytes := rfl
  accessCounter := rfl
  entries := MetaMap.erase_sublist _ _
  metadata := rfl
  chunk name := by
    simp only [View.evict, Disk.drop, AList.mem_erase]
    by_cases hname : name = victim.1
    · subst hname
      simp [MetaMap.fst_mem hvictim]
    · rw [Function.update_of_ne hname, if_neg (by tauto)]

theorem evictLoop_frame (o : Orders) (fuel : Nat) (v : View) :
    EvictFrame v (View.evictLoop o fuel v) := by
  induction fuel generalizing v with
  | zero => exact EvictFrame.refl v
  | succ fuel ih =>
      unfold View.evictLoop
      split
      · split
        · exact EvictFrame.refl v
        · rename_i victim hvictim
          exact (evictFrame_evict (lruVictim_spec hvictim).1).trans (ih _)
      · exact EvictFrame.refl v

/-- **The loop is least recently used.** It leaves the longest run of most recent chunks within the
limit, and the counter of their bytes. -/
theorem evictLoop_fit (o : Orders) (fuel : Nat) {v : View} {items : List MetaEntry}
    (hfuel : items.length ≤ fuel) (hrecency : Recency items v.sm)
    (hused : v.sm.usedBytes.toNat = totalSize items) :
    (View.evictLoop o fuel v).sm.metaMap.entries.Perm
        (Lru.fit MetaEntry.size v.sm.maxBytes.toNat items) ∧
      (View.evictLoop o fuel v).sm.usedBytes.toNat =
        totalSize (Lru.fit MetaEntry.size v.sm.maxBytes.toNat items) := by
  induction fuel generalizing v items with
  | zero =>
      rw [List.eq_nil_of_length_eq_zero (Nat.le_zero.mp hfuel)] at hrecency hused ⊢
      exact ⟨hrecency.perm.symm, hused⟩
  | succ fuel ih =>
      unfold View.evictLoop
      by_cases hover : v.sm.maxBytes < v.sm.usedBytes
      · rw [if_pos hover]
        rw [UInt64.lt_iff_toNat_lt, hused] at hover
        rcases List.eq_nil_or_concat items with rfl | ⟨rest, x, rfl⟩
        · exact absurd hover (Nat.not_lt_zero _)
        rw [List.concat_eq_append] at hfuel hrecency hused hover ⊢
        have hsplit : totalSize (rest ++ [x]) = totalSize rest + x.2.size.toNat := by
          simp [totalSize]
        have hle : x.2.size ≤ v.sm.usedBytes := UInt64.le_iff_toNat_le.mpr (by omega)
        have hused' : (v.evict x).sm.usedBytes.toNat = totalSize rest := by
          rw [View.evict, UInt64.toNat_sub_of_le _ _ hle]
          omega
        rw [hrecency.victim, Lru.fit_concat_of_lt MetaEntry.size hover]
        exact ih (by simpa using hfuel) hrecency.evict hused'
      · rw [if_neg hover]
        rw [UInt64.lt_iff_toNat_lt, hused] at hover
        rw [Lru.fit_eq_self MetaEntry.size (Nat.not_lt.mp hover)]
        exact ⟨hrecency.perm.symm, hused⟩

/-- With the books in order, as many turns as there are entries are enough. -/
theorem Ledger.evictLoop_fit (o : Orders) {v : View} {items : List MetaEntry}
    (ledger : Ledger v.sm) (hrecency : Recency items v.sm) :
    (View.evictLoop o v.sm.metaMap.entries.length v).sm.metaMap.entries.Perm
        (Lru.fit MetaEntry.size v.sm.maxBytes.toNat items) ∧
      (View.evictLoop o v.sm.metaMap.entries.length v).sm.usedBytes.toNat =
        totalSize (Lru.fit MetaEntry.size v.sm.maxBytes.toNat items) := by
  have hused : v.sm.usedBytes.toNat = totalSize items :=
    ledger.used.trans (Lru.total_perm MetaEntry.size hrecency.perm.symm)
  exact DecentStore.evictLoop_fit o _ hrecency.perm.length_eq.le hrecency hused

theorem enforceLimit_of_zero (o : Orders) {v : View} (hzero : v.sm.maxBytes = 0) :
    v.enforceLimit o = v := by
  rw [View.enforceLimit, if_pos hzero]

theorem enforceLimit_frame (o : Orders) {v : View} (hlimit : v.sm.maxBytes ≠ 0) :
    ∃ v', EvictFrame v v' ∧ v.enforceLimit o = v'.persist o := by
  rw [View.enforceLimit, if_neg hlimit]
  exact ⟨_, evictLoop_frame o _ v, rfl⟩

theorem enforceLimit_fit (o : Orders) {v : View} {items : List MetaEntry} (ledger : Ledger v.sm)
    (hlimit : v.sm.maxBytes ≠ 0) (hrecency : Recency items v.sm) :
    (v.enforceLimit o).sm.metaMap.entries.Perm
      (Lru.fit MetaEntry.size v.sm.maxBytes.toNat items) := by
  rw [View.enforceLimit, if_neg hlimit]
  exact (ledger.evictLoop_fit o hrecency).1

theorem Ledger.enforceLimit (o : Orders) {v : View} (ledger : Ledger v.sm) :
    Ledger (v.enforceLimit o).sm := by
  unfold View.enforceLimit
  split
  · exact ledger
  · obtain ⟨items, hrecency⟩ := ledger.exists_recency
    have hfit := ledger.evictLoop_fit o hrecency
    have frame := evictLoop_frame o v.sm.metaMap.entries.length v
    have hkept : Ledger { v.sm with
        usedBytes := (View.evictLoop o v.sm.metaMap.entries.length v).sm.usedBytes
        metaMap := (View.evictLoop o v.sm.metaMap.entries.length v).sm.metaMap } :=
      ledger.of_sublist frame.entries
        (hfit.2.trans (Lru.total_perm MetaEntry.size hfit.1.symm))
    refine ⟨hkept.used, hkept.distinct, fun e he => ?_⟩
    rw [View.persist, frame.accessCounter]
    exact hkept.issued e he

end DecentStore
