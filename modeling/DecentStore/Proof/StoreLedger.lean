import DecentStore.Lib.Lru
import DecentStore.Proof.StoreView

/-!
# The books of the store

`usedBytes_` is the sum of the recorded sizes, and the access stamps were all issued by the counter,
each to one chunk. The two hold of an object whatever the disk says, as long as no counter passes
`2 ^ 64`. A store, a load and a delete keep them because each of them changes one entry: it takes
the old entry of the id away, and the first two put one in with the next stamp.
-/

namespace DecentStore

open Bytes

/-- The weight of a chunk in the cache. -/
abbrev MetaEntry.size (e : MetaEntry) : Nat := e.2.size.toNat

def totalSize (entries : List MetaEntry) : Nat := Lru.total MetaEntry.size entries

structure Ledger (sm : StorageManager) : Prop where
  used : sm.usedBytes.toNat = totalSize sm.metaMap.entries
  distinct : sm.metaMap.entries.Pairwise fun a b => a.2.lastAccess ≠ b.2.lastAccess
  issued : ∀ e ∈ sm.metaMap.entries, 0 < e.2.lastAccess ∧ e.2.lastAccess ≤ sm.accessCounter

theorem ledger_fresh (baseDir : Bytes) (maxBytes : UInt64) : Ledger (.fresh baseDir maxBytes) where
  used := rfl
  distinct := List.Pairwise.nil
  issued := by simp [StorageManager.fresh]

theorem MetaMap.perm_of_lookup {metaMap : MetaMap} {hash : Bytes} {m : ChunkMeta}
    (hlookup : metaMap.lookup hash = some m) :
    metaMap.entries.Perm (⟨hash, m⟩ :: (metaMap.erase hash).entries) := by
  have hkeys : hash ∈ metaMap.entries.keys := AList.lookup_isSome.mp (by simp [hlookup])
  obtain ⟨m', before, after, _, hsplit, herase⟩ := List.exists_of_kerase hkeys
  have hmem : (⟨hash, m'⟩ : MetaEntry) ∈ metaMap.entries := by simp [hsplit]
  have hm : m = m' := Option.some.inj (hlookup.symm.trans (AList.mem_lookup_iff.mpr hmem))
  subst hm
  rw [show (metaMap.erase hash).entries = before ++ after from herase, hsplit]
  exact List.perm_middle

theorem MetaMap.totalSize_of_lookup {metaMap : MetaMap} {hash : Bytes} {m : ChunkMeta}
    (hlookup : metaMap.lookup hash = some m) :
    totalSize metaMap.entries = m.size.toNat + totalSize (metaMap.erase hash).entries :=
  (Lru.total_perm MetaEntry.size (perm_of_lookup hlookup)).trans rfl

theorem MetaMap.erase_of_lookup {metaMap : MetaMap} {hash : Bytes}
    (hlookup : metaMap.lookup hash = none) : (metaMap.erase hash).entries = metaMap.entries :=
  List.kerase_of_notMem_keys (AList.lookup_eq_none.mp hlookup)

theorem MetaMap.erase_sublist (metaMap : MetaMap) (hash : Bytes) :
    ((metaMap.erase hash).entries).Sublist metaMap.entries :=
  List.kerase_sublist hash metaMap.entries

theorem MetaMap.fst_mem {metaMap : MetaMap} {e : MetaEntry} (he : e ∈ metaMap.entries) :
    e.1 ∈ metaMap :=
  AList.mem_keys.mpr (List.mem_map_of_mem he)

theorem MetaMap.ne_of_mem_erase {metaMap : MetaMap} {hash : Bytes} {e : MetaEntry}
    (he : e ∈ (metaMap.erase hash).entries) : e.1 ≠ hash :=
  (AList.mem_erase.mp (MetaMap.fst_mem he)).1

section Books

variable {sm : StorageManager} {hash : Bytes}

theorem Ledger.of_sublist (ledger : Ledger sm) {metaMap : MetaMap} {usedBytes : UInt64}
    (hsub : metaMap.entries.Sublist sm.metaMap.entries)
    (hused : usedBytes.toNat = totalSize metaMap.entries) :
    Ledger { sm with usedBytes := usedBytes, metaMap := metaMap } where
  used := hused
  distinct := ledger.distinct.sublist hsub
  issued := fun e he => ledger.issued e (hsub.subset he)

/-- Taking a chunk off the counter never meets the clamp at zero. -/
theorem Ledger.release (ledger : Ledger sm) (hash : Bytes) :
    ∃ usedBytes : UInt64, sm.release hash = { sm with usedBytes := usedBytes } ∧
      usedBytes.toNat = totalSize (sm.metaMap.erase hash).entries := by
  have hused := ledger.used
  unfold StorageManager.release
  cases hlookup : sm.metaMap.lookup hash with
  | none => exact ⟨sm.usedBytes, rfl, by rw [hused, MetaMap.erase_of_lookup hlookup]⟩
  | some m =>
      have htotal := MetaMap.totalSize_of_lookup hlookup
      have hle : m.size ≤ sm.usedBytes := UInt64.le_iff_toNat_le.mpr (by omega)
      refine ⟨sm.usedBytes - m.size, by simp only [if_pos hle], ?_⟩
      rw [UInt64.toNat_sub_of_le _ _ hle]
      omega

theorem toNat_succ {counter : UInt64} (hcounter : counter.toNat + 1 < 2 ^ 64) :
    (counter + 1).toNat = counter.toNat + 1 := by
  rw [UInt64.toNat_add, UInt64.toNat_one, Nat.mod_eq_of_lt hcounter]

theorem Ledger.stamp (ledger : Ledger sm) (hcounter : sm.accessCounter.toNat + 1 < 2 ^ 64)
    {size usedBytes : UInt64}
    (hused : usedBytes.toNat = size.toNat + totalSize (sm.metaMap.erase hash).entries) :
    Ledger { sm with
      accessCounter := sm.accessCounter + 1, usedBytes := usedBytes
      metaMap := sm.metaMap.insert hash { size := size, lastAccess := sm.accessCounter + 1 } } := by
  have hsucc := toNat_succ hcounter
  have hold : ∀ e ∈ (sm.metaMap.erase hash).entries, e.2.lastAccess < sm.accessCounter + 1 := by
    intro e he
    have hissued := (ledger.issued e ((MetaMap.erase_sublist _ _).subset he)).2
    rw [UInt64.le_iff_toNat_le] at hissued
    rw [UInt64.lt_iff_toNat_lt]
    omega
  refine ⟨hused, ?_, ?_⟩
  · refine List.Pairwise.cons (fun e he => ?_)
      (ledger.distinct.sublist (MetaMap.erase_sublist _ _))
    exact (UInt64.ne_of_lt (hold e he)).symm
  · intro e he
    rcases List.mem_cons.mp he with rfl | he
    · exact ⟨UInt64.lt_iff_toNat_lt.mpr (by rw [hsucc]; exact Nat.succ_pos _), UInt64.le_refl _⟩
    · exact ⟨(ledger.issued e ((MetaMap.erase_sublist _ _).subset he)).1,
        UInt64.le_of_lt (hold e he)⟩

theorem Ledger.record (ledger : Ledger sm) {newSize : UInt64}
    (hcounter : sm.accessCounter.toNat + 1 < 2 ^ 64)
    (hbytes : (sm.release hash).usedBytes.toNat + newSize.toNat < 2 ^ 64) :
    Ledger ((sm.release hash).record hash newSize) := by
  obtain ⟨usedBytes, hrelease, hused⟩ := ledger.release hash
  rw [hrelease] at hbytes ⊢
  refine ledger.stamp hcounter ?_
  rw [UInt64.toNat_add, Nat.mod_eq_of_lt hbytes, hused]
  exact Nat.add_comm _ _

theorem Ledger.touch (ledger : Ledger sm) (hcounter : sm.accessCounter.toNat + 1 < 2 ^ 64)
    (hash : Bytes) : Ledger (sm.touch hash) := by
  unfold StorageManager.touch
  cases hlookup : sm.metaMap.lookup hash with
  | none => exact ledger
  | some m =>
      refine ledger.stamp hcounter ?_
      rw [ledger.used, MetaMap.totalSize_of_lookup hlookup]

theorem Ledger.delete (ledger : Ledger sm) (hash : Bytes) :
    Ledger { sm.release hash with metaMap := sm.metaMap.erase hash } := by
  obtain ⟨usedBytes, hrelease, hused⟩ := ledger.release hash
  rw [hrelease]
  exact ledger.of_sublist (MetaMap.erase_sublist _ _) hused

theorem Ledger.length_le (ledger : Ledger sm) :
    sm.metaMap.entries.length ≤ sm.accessCounter.toNat := by
  have hnodup : (sm.metaMap.entries.map fun e => e.2.lastAccess.toNat).Nodup :=
    List.pairwise_map.mpr (ledger.distinct.imp fun hne heq => hne (UInt64.toNat_inj.mp heq))
  have hrange : (sm.metaMap.entries.map fun e => e.2.lastAccess.toNat) ⊆
      (List.range sm.accessCounter.toNat).map (· + 1) := by
    intro n hn
    obtain ⟨e, he, rfl⟩ := List.mem_map.mp hn
    have hissued := ledger.issued e he
    rw [UInt64.lt_iff_toNat_lt, UInt64.le_iff_toNat_le, UInt64.toNat_zero] at hissued
    exact List.mem_map.mpr ⟨e.2.lastAccess.toNat - 1, List.mem_range.mpr (by omega), by omega⟩
  simpa using (hnodup.subperm hrange).length_le

end Books

end DecentStore
