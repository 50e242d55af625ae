import DecentStore.Storage

/-!
# The metadata text

`metadata.db` is a header with the two counters and one line per chunk. Reading it back gives the
counters and the entries it was written from, in whatever order the map was walked when it was
written, as long as the ids are tokens.
-/

namespace DecentStore

open Bytes Posix

def metadataOf (counter used : UInt64) (entries : List MetaEntry) : Bytes :=
  decimal counter.toNat ++ str " " ++ decimal used.toNat ++ str "\n" ++
    entries.flatMap StorageManager.metadataLine

theorem metadataOf_eq (counter used : UInt64) (entries : List MetaEntry) :
    metadataOf counter used entries = decimal counter.toNat ++ 32 :: (decimal used.toNat ++
      newline :: entries.flatMap StorageManager.metadataLine) := by
  simp [metadataOf, str_space, str_newline]

theorem metadataLine_append (entry : MetaEntry) (rest : Bytes) :
    StorageManager.metadataLine entry ++ rest =
      entry.1 ++ 32 :: (decimal entry.2.size.toNat ++ 32 ::
        (decimal entry.2.lastAccess.toNat ++ newline :: rest)) := by
  simp [StorageManager.metadataLine, str_space, str_newline]

theorem readEntries_line {e : MetaEntry} (hid : Token e.1) (fuel : Nat) (rest : Bytes)
    (metaMap : MetaMap) :
    StorageManager.readEntries (fuel + 1)
        ⟨newline :: (StorageManager.metadataLine e ++ rest), false⟩ metaMap =
      StorageManager.readEntries fuel ⟨newline :: rest, false⟩ (metaMap.insert e.1 e.2) := by
  have hid := IStream.getString_token hid (IStream.atBreak_cons isSpace_blank
    (decimal e.2.size.toNat ++ 32 :: (decimal e.2.lastAccess.toNat ++ newline :: rest))) []
  have hsize := IStream.getUInt64_decimal e.2.size (IStream.atBreak_cons isSpace_blank
    (decimal e.2.lastAccess.toNat ++ newline :: rest)) 0
  have haccess := IStream.getUInt64_decimal e.2.lastAccess
    (IStream.atBreak_cons isSpace_newline rest) 0
  rw [StorageManager.readEntries, IStream.getString_space isSpace_newline, metadataLine_append, hid]
  simp only [IStream.getUInt64_space isSpace_blank, hsize, haccess, Bool.false_eq_true, ↓reduceIte]

/-- The reading loop inserts the entries one after the other. Any number of turns that covers them
is enough. -/
theorem readEntries_lines (entries : List MetaEntry) (hids : ∀ e ∈ entries, Token e.1)
    (fuel : Nat) (hfuel : entries.length ≤ fuel) (metaMap : MetaMap) :
    StorageManager.readEntries fuel
        ⟨newline :: entries.flatMap StorageManager.metadataLine, false⟩ metaMap =
      entries.foldl (fun metaMap e => metaMap.insert e.1 e.2) metaMap := by
  induction entries generalizing fuel metaMap with
  | nil =>
      cases fuel with
      | zero => rfl
      | succ fuel =>
          rw [StorageManager.readEntries, IStream.getString_space isSpace_newline]
          rfl
  | cons e entries ih =>
      obtain ⟨fuel, rfl⟩ : ∃ n, fuel = n + 1 :=
        ⟨fuel - 1, by simp only [List.length_cons] at hfuel; omega⟩
      rw [List.flatMap_cons, readEntries_line (hids e List.mem_cons_self),
        ih (fun x hx => hids x (List.mem_cons_of_mem e hx)) fuel (by simpa using hfuel)]
      rfl

/-- Inserting entries of distinct, new ids one after the other stacks them up. -/
theorem entries_foldl_insert (entries : List MetaEntry) (metaMap : MetaMap)
    (hnodup : (entries.map Sigma.fst).Nodup) (hnew : ∀ e ∈ entries, e.1 ∉ metaMap) :
    (entries.foldl (fun metaMap e => metaMap.insert e.1 e.2) metaMap).entries =
      entries.reverse ++ metaMap.entries := by
  induction entries generalizing metaMap with
  | nil => rfl
  | cons e entries ih =>
      rw [List.map_cons, List.nodup_cons] at hnodup
      have hfresh : ∀ x ∈ entries, x.1 ∉ metaMap.insert e.1 e.2 := by
        intro x hx hmem
        rcases (AList.mem_insert metaMap).mp hmem with heq | hold
        · exact hnodup.1 (heq ▸ List.mem_map_of_mem hx)
        · exact hnew x (List.mem_cons_of_mem e hx) hold
      rw [List.foldl_cons, ih _ hnodup.2 hfresh,
        AList.entries_insert_of_notMem (hnew e List.mem_cons_self)]
      simp

theorem length_le_flatMap_metadataLine (entries : List MetaEntry) :
    entries.length ≤ (entries.flatMap StorageManager.metadataLine).length := by
  induction entries with
  | nil => exact Nat.zero_le _
  | cons e entries ih =>
      have hline : 1 ≤ (StorageManager.metadataLine e).length := by
        rw [← List.append_nil (StorageManager.metadataLine e), metadataLine_append]
        simp only [List.length_append, List.length_cons]
        omega
      simp only [List.flatMap_cons, List.length_append, List.length_cons]
      omega

theorem parseMetadata_header (sm : StorageManager) (counter used : UInt64) (lines : Bytes) :
    ∃ fuel, lines.length < fuel ∧
      sm.parseMetadata (decimal counter.toNat ++ 32 :: (decimal used.toNat ++ newline :: lines)) =
        some { sm with
          accessCounter := counter
          usedBytes := used
          metaMap := StorageManager.readEntries fuel ⟨newline :: lines, false⟩ ∅ } := by
  have hcounter := IStream.getUInt64_decimal counter (IStream.atBreak_cons isSpace_blank
    (decimal used.toNat ++ newline :: lines)) 0
  have hused := IStream.getUInt64_decimal used (IStream.atBreak_cons isSpace_newline lines) 0
  refine ⟨(decimal counter.toNat ++ 32 :: (decimal used.toNat ++ newline :: lines)).length + 1,
    ?_, ?_⟩
  · simp only [List.length_append, List.length_cons]
    omega
  · rw [StorageManager.parseMetadata, hcounter]
    simp only [IStream.getUInt64_space isSpace_blank, hused, Bool.false_eq_true, ↓reduceIte]

/-- **The metadata round trip.** -/
theorem parseMetadata_metadataOf (sm : StorageManager) (counter used : UInt64)
    {entries : List MetaEntry} (hids : ∀ e ∈ entries, Token e.1)
    (hnodup : (entries.map Sigma.fst).Nodup) :
    ∃ metaMap : MetaMap, metaMap.entries.Perm entries ∧
      sm.parseMetadata (metadataOf counter used entries) =
        some { sm with accessCounter := counter, usedBytes := used, metaMap := metaMap } := by
  obtain ⟨fuel, hfuel, hparse⟩ := parseMetadata_header sm counter used
    (entries.flatMap StorageManager.metadataLine)
  have hturns : entries.length ≤ fuel :=
    (length_le_flatMap_metadataLine entries).trans hfuel.le
  refine ⟨entries.foldl (fun metaMap e => metaMap.insert e.1 e.2) ∅, ?_, ?_⟩
  · rw [entries_foldl_insert entries ∅ hnodup fun e _ => AList.notMem_empty e.1]
    simp
  · rw [metadataOf_eq, hparse, readEntries_lines entries hids fuel hturns]

end DecentStore
