import DecentStore.Proof.StoreFidelity

/-!
# A metadata text that is cut short

Of a text that is cut short the loader reads what is complete, and of its last number also a part.
A cut before the first digit of the byte total leaves no header, and the loader falls back to the
files. A cut in the last number of the text leaves every id and size. Between the two, some entry is
missing.
-/

namespace DecentStore

open Bytes Posix

theorem readEntries_of_exhausted {is : IStream}
    (hnone : ((is.getString []).2.getUInt64 0).2.Exhausted) (fuel : Nat) (metaMap : MetaMap) :
    StorageManager.readEntries fuel is metaMap = metaMap := by
  cases fuel with
  | zero => rfl
  | succ fuel =>
      have hfailed := hnone.getUInt64 0
      rw [StorageManager.readEntries]
      simp only [hfailed, ↓reduceIte]

def linePrefix (e : MetaEntry) : Bytes :=
  e.1 ++ 32 :: (decimal e.2.size.toNat ++ [32])

theorem metadataLine_eq (e : MetaEntry) : StorageManager.metadataLine e =
    linePrefix e ++ (decimal e.2.lastAccess.toNat ++ [newline]) := by
  have hline := metadataLine_append e []
  rw [List.append_nil] at hline
  rw [hline]
  simp [linePrefix]

theorem readEntries_linePrefix {e : MetaEntry} (hid : Token e.1) (k fuel : Nat)
    (metaMap : MetaMap) :
    StorageManager.readEntries fuel ⟨newline :: (linePrefix e).take k, false⟩ metaMap =
      metaMap := by
  refine readEntries_of_exhausted ?_ fuel metaMap
  rw [IStream.getString_space isSpace_newline, linePrefix, List.take_append]
  by_cases hword : k ≤ e.1.length
  · -- the id, or a part of it
    rw [Nat.sub_eq_zero_of_le hword, List.take_zero, List.append_nil]
    have hpart : ∀ b ∈ e.1.take k, isSpace b = false := fun b hb =>
      hid.2 b (List.take_subset _ _ hb)
    exact Or.inl ((IStream.exhausted_of_word hpart []).getUInt64 0)
  obtain ⟨j, hj⟩ : ∃ j, k - e.1.length = j + 1 := ⟨k - e.1.length - 1, by omega⟩
  rw [List.take_of_length_le (by omega), hj, List.take_succ_cons,
    IStream.getString_token hid (IStream.atBreak_cons isSpace_blank _)]
  simp only [IStream.getUInt64_space isSpace_blank]
  by_cases hsize : j ≤ (decimal e.2.size.toNat).length
  · rw [List.take_append_of_le_length hsize]
    exact IStream.exhausted_of_digits (fun b hb =>
      isDigit_of_mem_decimal (List.take_subset _ _ hb)) 0
  · rw [List.take_of_length_le (by simp; omega),
      IStream.getUInt64_decimal e.2.size (IStream.atBreak_cons isSpace_blank [])]
    exact Or.inr (by simpa using isSpace_blank)

theorem readEntries_linePart {e : MetaEntry} (hid : Token e.1) {k : Nat}
    (hlow : (StorageManager.metadataLine e).length ≤
      k + (decimal e.2.lastAccess.toNat).length)
    (hhigh : k < (StorageManager.metadataLine e).length) (fuel : Nat) (metaMap : MetaMap) :
    ∃ stamp, StorageManager.readEntries (fuel + 1)
        ⟨newline :: (StorageManager.metadataLine e).take k, false⟩ metaMap =
      metaMap.insert e.1 ⟨e.2.size, stamp⟩ := by
  have hlen := congrArg List.length (metadataLine_eq e)
  simp only [List.length_append, List.length_singleton] at hlen
  obtain ⟨j, hj⟩ : ∃ j, k = (linePrefix e).length + (j + 1) :=
    ⟨k - (linePrefix e).length - 1, by omega⟩
  have hshort : j + 1 ≤ (decimal e.2.lastAccess.toNat).length := by omega
  have htake : (StorageManager.metadataLine e).take k =
      linePrefix e ++ (decimal e.2.lastAccess.toNat).take (j + 1) := by
    rw [metadataLine_eq, hj, List.take_length_add_append, List.take_append_of_le_length hshort]
  have hne : (decimal e.2.lastAccess.toNat).take (j + 1) ≠ [] := by
    simp [decimal_ne_nil]
  have hstamp := IStream.getUInt64_part e.2.lastAccess (List.take_prefix _ _) hne 0
  refine ⟨UInt64.ofNat (value ((decimal e.2.lastAccess.toNat).take (j + 1))), ?_⟩
  rw [htake, StorageManager.readEntries, IStream.getString_space isSpace_newline]
  have hread := IStream.getString_token hid (IStream.atBreak_cons isSpace_blank
    (decimal e.2.size.toNat ++ 32 :: (decimal e.2.lastAccess.toNat).take (j + 1))) []
  have hsize := IStream.getUInt64_decimal e.2.size (IStream.atBreak_cons isSpace_blank
    ((decimal e.2.lastAccess.toNat).take (j + 1))) 0
  have htext : linePrefix e ++ (decimal e.2.lastAccess.toNat).take (j + 1) =
      e.1 ++ 32 :: (decimal e.2.size.toNat ++ 32 ::
        (decimal e.2.lastAccess.toNat).take (j + 1)) := by
    simp [linePrefix]
  rw [htext, hread]
  simp only [IStream.getUInt64_space isSpace_blank, hsize, hstamp, Bool.false_eq_true, ↓reduceIte]
  exact readEntries_of_exhausted (Or.inl rfl) fuel _

/-- Of a line that is cut short the entry is read exactly if the last number has a digit. -/
theorem readEntries_cutLine {e : MetaEntry} (hid : Token e.1) {k : Nat}
    (hk : k < (StorageManager.metadataLine e).length) (fuel : Nat) (metaMap : MetaMap) :
    ∃ read : List MetaEntry,
      StorageManager.readEntries (fuel + 1)
          ⟨newline :: (StorageManager.metadataLine e).take k, false⟩ metaMap =
        read.foldl (fun metaMap e => metaMap.insert e.1 e.2) metaMap ∧
      read.map MetaEntry.listed <+: [e.listed] ∧
      (read.length = 1 ↔
        (StorageManager.metadataLine e).length ≤ k + (decimal e.2.lastAccess.toNat).length) := by
  by_cases hstamp : (StorageManager.metadataLine e).length ≤
      k + (decimal e.2.lastAccess.toNat).length
  · obtain ⟨stamp, hread⟩ := readEntries_linePart hid hstamp hk fuel metaMap
    exact ⟨[⟨e.1, ⟨e.2.size, stamp⟩⟩], hread, List.prefix_refl [e.listed],
      iff_of_true rfl hstamp⟩
  · have hlen := congrArg List.length (metadataLine_eq e)
    simp only [List.length_append, List.length_singleton] at hlen
    have htake : (StorageManager.metadataLine e).take k = (linePrefix e).take k := by
      rw [metadataLine_eq, List.take_append_of_le_length (by omega)]
    refine ⟨[], ?_, List.nil_prefix, iff_of_false Nat.zero_ne_one hstamp⟩
    rw [htake]
    exact readEntries_linePrefix hid k _ metaMap

def lastDigits (entries : List MetaEntry) : Nat :=
  entries.getLast?.elim 0 fun e => (decimal e.2.lastAccess.toNat).length

@[simp]
theorem lastDigits_singleton (e : MetaEntry) :
    lastDigits [e] = (decimal e.2.lastAccess.toNat).length := rfl

theorem lastDigits_cons (e : MetaEntry) {entries : List MetaEntry} (hne : entries ≠ []) :
    lastDigits (e :: entries) = lastDigits entries := by
  obtain ⟨next, rest, rfl⟩ := List.exists_cons_of_ne_nil hne
  rw [lastDigits, List.getLast?_cons_cons, lastDigits]

theorem lastDigits_lt {entries : List MetaEntry} (hne : entries ≠ []) :
    lastDigits entries < (entries.flatMap StorageManager.metadataLine).length := by
  induction entries with
  | nil => exact absurd rfl hne
  | cons e entries ih =>
      rw [List.flatMap_cons, List.length_append]
      by_cases hlast : entries = []
      · subst hlast
        have hlen := congrArg List.length (metadataLine_eq e)
        simp only [List.length_append, List.length_singleton] at hlen
        rw [lastDigits_singleton]
        omega
      · have hrest := ih hlast
        rw [lastDigits_cons e hlast]
        omega

/-- **Lines that are cut short**: the loop inserts the entries of an initial run, with their sizes,
and it is all of them exactly if the last stamp has a digit. -/
theorem readEntries_torn (entries : List MetaEntry) (hids : ∀ e ∈ entries, Token e.1) (k : Nat)
    {fuel : Nat}
    (hfuel : ((entries.flatMap StorageManager.metadataLine).take k).length < fuel)
    (metaMap : MetaMap) :
    ∃ read : List MetaEntry,
      StorageManager.readEntries fuel
          ⟨newline :: (entries.flatMap StorageManager.metadataLine).take k, false⟩ metaMap =
        read.foldl (fun metaMap e => metaMap.insert e.1 e.2) metaMap ∧
      read.map MetaEntry.listed <+: entries.map MetaEntry.listed ∧
      (read.length = entries.length ↔
        (entries.flatMap StorageManager.metadataLine).length ≤ k + lastDigits entries) := by
  induction entries generalizing k fuel metaMap with
  | nil =>
      refine ⟨[], ?_, List.nil_prefix, by simp⟩
      have hlines := readEntries_lines [] (by simp) fuel (Nat.zero_le _) metaMap
      rw [List.flatMap_nil] at hlines ⊢
      rw [List.take_nil]
      exact hlines
  | cons e entries ih =>
      obtain ⟨fuel, rfl⟩ : ∃ n, fuel = n + 1 := ⟨fuel - 1, by omega⟩
      have hid := hids e List.mem_cons_self
      by_cases hwhole : (StorageManager.metadataLine e).length ≤ k
      · obtain ⟨j, rfl⟩ : ∃ j, k = (StorageManager.metadataLine e).length + j :=
          ⟨k - (StorageManager.metadataLine e).length, by omega⟩
        rw [List.flatMap_cons, List.take_length_add_append] at hfuel ⊢
        have hpos : 0 < (StorageManager.metadataLine e).length := by
          rw [metadataLine_eq]
          simp
        rw [List.length_append] at hfuel
        obtain ⟨read, hread, hprefix, hall⟩ := ih (fun x hx => hids x (List.mem_cons_of_mem e hx))
          j (show _ < fuel by omega) (metaMap.insert e.1 e.2)
        refine ⟨e :: read, ?_, (List.prefix_cons_inj _).mpr hprefix, ?_⟩
        · rw [readEntries_line hid, hread]
          rfl
        · rw [List.length_cons, List.length_cons, Nat.add_right_cancel_iff, hall,
            List.length_append]
          by_cases hlast : entries = []
          · subst hlast
            rw [List.flatMap_nil, List.length_nil]
            omega
          · rw [lastDigits_cons e hlast]
            omega
      · have hk := Nat.not_le.mp hwhole
        obtain ⟨read, hread, hprefix, hall⟩ := readEntries_cutLine hid hk fuel metaMap
        rw [List.flatMap_cons, List.take_append_of_le_length hk.le]
        refine ⟨read, hread, hprefix.trans ⟨entries.map MetaEntry.listed, rfl⟩, ?_⟩
        by_cases hlast : entries = []
        · subst hlast
          rw [List.flatMap_nil, List.append_nil, lastDigits_singleton]
          exact hall
        · -- a cut in this line is a cut before all the later ones
          have hrest := lastDigits_lt hlast
          have hfew := hprefix.length_le
          rw [List.length_map, List.length_singleton] at hfew
          have hmore := List.length_pos_iff.mpr hlast
          rw [List.length_append, List.length_cons, lastDigits_cons e hlast]
          exact iff_of_false (by omega) (by omega)

section Read

variable {read entries : List MetaEntry}

theorem nodup_of_listed (hpart : read.map MetaEntry.listed <+: entries.map MetaEntry.listed)
    (hnodup : (entries.map Sigma.fst).Nodup) : (read.map Sigma.fst).Nodup := by
  have hfirsts : ((entries.map MetaEntry.listed).map Prod.fst).Nodup := by
    rwa [List.map_map]
  have hread := hfirsts.sublist (hpart.sublist.map Prod.fst)
  rwa [List.map_map] at hread

theorem listed_of_read (hpart : read.map MetaEntry.listed <+: entries.map MetaEntry.listed)
    (hnodup : (entries.map Sigma.fst).Nodup) :
    ((read.foldl (fun metaMap e => metaMap.insert e.1 e.2) (∅ : MetaMap)).entries.map
      MetaEntry.listed).Perm (read.map MetaEntry.listed) := by
  rw [entries_foldl_insert read ∅ (nodup_of_listed hpart hnodup) fun e _ =>
    AList.notMem_empty e.1, AList.empty_entries, List.append_nil]
  exact (List.reverse_perm read).map MetaEntry.listed

theorem missing_of_read (hpart : read.map MetaEntry.listed <+: entries.map MetaEntry.listed)
    (hnodup : (entries.map Sigma.fst).Nodup) (hfew : read.length ≠ entries.length) :
    ∃ e ∈ entries, e.1 ∉ read.foldl (fun metaMap e => metaMap.insert e.1 e.2) (∅ : MetaMap) := by
  have hmap := listed_of_read hpart hnodup
  have hfirsts : ((entries.map MetaEntry.listed).map Prod.fst).Nodup := by
    rwa [List.map_map]
  obtain ⟨more, hmore⟩ := hpart
  cases more with
  | nil =>
      have htotal := congrArg List.length hmore
      rw [List.append_nil, List.length_map, List.length_map] at htotal
      exact absurd htotal hfew
  | cons x more =>
      have hx : x ∈ entries.map MetaEntry.listed := by simp [← hmore]
      obtain ⟨e, he, rfl⟩ := List.mem_map.mp hx
      refine ⟨e, he, fun hmem => ?_⟩
      obtain ⟨e', he', hkey⟩ := List.mem_map.mp (AList.mem_keys.mp hmem)
      have hfirst : e.1 ∈ (read.map MetaEntry.listed).map Prod.fst := by
        rw [← hkey]
        exact List.mem_map_of_mem (hmap.subset (List.mem_map_of_mem he'))
      rw [← hmore, List.map_append] at hfirsts
      exact (List.nodup_append.mp hfirsts).2.2 e.1 hfirst e.1 (by simp) rfl

end Read

def lastNumber (used : UInt64) (entries : List MetaEntry) : Nat :=
  if entries = [] then (decimal used.toNat).length else lastDigits entries

theorem lastNumber_nil (used : UInt64) : lastNumber used [] = (decimal used.toNat).length := rfl

theorem lastNumber_of_ne {used : UInt64} {entries : List MetaEntry} (hne : entries ≠ []) :
    lastNumber used entries = lastDigits entries :=
  if_neg hne

/-- **A text that ends before the byte total has no header.** -/
theorem parseMetadata_headless (sm : StorageManager) (counter used : UInt64)
    (entries : List MetaEntry) {k : Nat} (hk : k ≤ (decimal counter.toNat).length + 1) :
    sm.parseMetadata ((metadataOf counter used entries).take k) = none := by
  have hnone : (IStream.getUInt64
      ⟨(metadataOf counter used entries).take k, false⟩ 0).2.Exhausted := by
    rw [metadataOf_eq]
    by_cases hshort : k ≤ (decimal counter.toNat).length
    · rw [List.take_append_of_le_length hshort]
      exact IStream.exhausted_of_digits (fun b hb =>
        isDigit_of_mem_decimal (List.take_subset _ _ hb)) 0
    · obtain rfl : k = (decimal counter.toNat).length + 1 := by omega
      rw [List.take_length_add_append, List.take_succ_cons, List.take_zero,
        IStream.getUInt64_decimal counter (IStream.atBreak_cons isSpace_blank [])]
      exact Or.inr (by simpa using isSpace_blank)
  rw [StorageManager.parseMetadata]
  simp only [hnone.getUInt64 0, ↓reduceIte]

theorem parseMetadata_total (sm : StorageManager) (counter used : UInt64) {digits : Bytes}
    (hpart : digits <+: decimal used.toNat) (hne : digits ≠ []) :
    ∃ total, sm.parseMetadata (decimal counter.toNat ++ 32 :: digits) =
        some { sm with accessCounter := counter, usedBytes := total, metaMap := ∅ } ∧
      (digits = decimal used.toNat → total = used) := by
  have hread := IStream.getUInt64_part used hpart hne 0
  refine ⟨UInt64.ofNat (value digits), ?_, ?_⟩
  · have hentries : ∀ fuel, StorageManager.readEntries fuel ⟨[], false⟩ ∅ = ∅ := fun fuel =>
      readEntries_of_exhausted (Or.inl rfl) fuel ∅
    rw [StorageManager.parseMetadata,
      IStream.getUInt64_decimal counter (IStream.atBreak_cons isSpace_blank digits)]
    simp only [IStream.getUInt64_space isSpace_blank, hread, Bool.false_eq_true, ↓reduceIte,
      hentries]
  · rintro rfl
    have hwhole := IStream.getUInt64_decimal used IStream.atBreak_nil 0
    rw [List.append_nil, hread] at hwhole
    exact congrArg Prod.fst hwhole

/-- Without entries the byte total is zero, and one digit of it is all of it. -/
theorem parseMetadata_cut_total (sm : StorageManager) (counter : UInt64) {used : UInt64}
    {entries : List MetaEntry} (hused : used.toNat = totalSize entries) {k : Nat} (hpos : 0 < k) :
    ∃ sm', sm.parseMetadata (decimal counter.toNat ++ 32 :: (decimal used.toNat).take k) =
        some sm' ∧ sm'.metaMap = ∅ ∧ (entries = [] → sm'.usedBytes = used) := by
  have hne : (decimal used.toNat).take k ≠ [] := by
    rw [ne_eq, List.take_eq_nil_iff, not_or]
    exact ⟨hpos.ne', decimal_ne_nil _⟩
  obtain ⟨total, hparse, hwhole⟩ := parseMetadata_total sm counter used
    (List.take_prefix k (decimal used.toNat)) hne
  refine ⟨_, hparse, rfl, ?_⟩
  rintro rfl
  have hzero : used = 0 := UInt64.toNat_inj.mp hused
  have hdigits : (decimal used.toNat).length = 1 := by
    rw [hzero]
    decide
  exact hwhole (List.take_of_length_le (by omega))

theorem parseMetadata_cut_entries (sm : StorageManager) (counter used : UInt64)
    {entries : List MetaEntry} (hids : ∀ e ∈ entries, Token e.1)
    (hnodup : (entries.map Sigma.fst).Nodup) (k : Nat) :
    ∃ sm', sm.parseMetadata (decimal counter.toNat ++ 32 :: (decimal used.toNat ++
        newline :: (entries.flatMap StorageManager.metadataLine).take k)) = some sm' ∧
      sm'.usedBytes = used ∧
      ((entries.flatMap StorageManager.metadataLine).length ≤ k + lastDigits entries →
        (sm'.metaMap.entries.map MetaEntry.listed).Perm (entries.map MetaEntry.listed)) ∧
      (k + lastDigits entries < (entries.flatMap StorageManager.metadataLine).length →
        ∃ e ∈ entries, e.1 ∉ sm'.metaMap) := by
  obtain ⟨fuel, hfuel, hparse⟩ := parseMetadata_header sm counter used
    ((entries.flatMap StorageManager.metadataLine).take k)
  obtain ⟨read, hentries, hpart, hcomplete⟩ := readEntries_torn entries hids k hfuel ∅
  rw [hentries] at hparse
  refine ⟨_, hparse, rfl, fun hall => ?_, fun hcut => ?_⟩
  · have hsame : read.map MetaEntry.listed = entries.map MetaEntry.listed :=
      hpart.eq_of_length (by rw [List.length_map, List.length_map, hcomplete.mpr hall])
    rw [← hsame]
    exact listed_of_read hpart hnodup
  · exact missing_of_read hpart hnodup fun hlength => absurd (hcomplete.mp hlength) (by omega)

/-- **A text that ends past the counter**: the entries and the total are read whole exactly if the
last number has lost less than all its digits; else an entry is missing. -/
theorem parseMetadata_torn (sm : StorageManager) (counter : UInt64) {used : UInt64}
    {entries : List MetaEntry} (hids : ∀ e ∈ entries, Token e.1)
    (hnodup : (entries.map Sigma.fst).Nodup) (hused : used.toNat = totalSize entries) {k : Nat}
    (hk : (decimal counter.toNat).length + 1 < k) :
    ∃ sm', sm.parseMetadata ((metadataOf counter used entries).take k) = some sm' ∧
      ((metadataOf counter used entries).length ≤ k + lastNumber used entries →
        (sm'.metaMap.entries.map MetaEntry.listed).Perm (entries.map MetaEntry.listed) ∧
          sm'.usedBytes = used) ∧
      (k + lastNumber used entries < (metadataOf counter used entries).length →
        ∃ e ∈ entries, e.1 ∉ sm'.metaMap) := by
  obtain ⟨j, rfl⟩ : ∃ j, k = (decimal counter.toNat).length + (j + 2) :=
    ⟨k - (decimal counter.toNat).length - 2, by omega⟩
  have hlen := congrArg List.length (metadataOf_eq counter used entries)
  simp only [List.length_append, List.length_cons] at hlen
  have htake : (metadataOf counter used entries).take ((decimal counter.toNat).length + (j + 2)) =
      decimal counter.toNat ++ 32 :: (decimal used.toNat ++
        newline :: entries.flatMap StorageManager.metadataLine).take (j + 1) := by
    rw [metadataOf_eq, List.take_length_add_append, List.take_succ_cons]
  rw [htake]
  by_cases htotal : j + 1 ≤ (decimal used.toNat).length
  · -- the text ends in the byte total
    obtain ⟨sm', hparse, hnone, hwhole⟩ :=
      parseMetadata_cut_total sm counter hused (Nat.succ_pos j)
    rw [List.take_append_of_le_length htotal]
    refine ⟨sm', hparse, ?_⟩
    rw [hnone]
    by_cases hempty : entries = []
    · subst hempty
      rw [lastNumber_nil]
      rw [List.flatMap_nil, List.length_nil] at hlen
      exact ⟨fun _ => ⟨List.Perm.refl _, hwhole rfl⟩, fun hcut => by omega⟩
    · obtain ⟨e, rest, rfl⟩ := List.exists_cons_of_ne_nil hempty
      have hlast := lastDigits_lt hempty
      rw [lastNumber_of_ne hempty]
      exact ⟨fun hall => by omega, fun _ => ⟨e, List.mem_cons_self, AList.notMem_empty e.1⟩⟩
  · -- the byte total is complete
    obtain ⟨i, rfl⟩ : ∃ i, j = (decimal used.toNat).length + i :=
      ⟨j - (decimal used.toNat).length, by omega⟩
    obtain ⟨sm', hparse, hsame, hall, hmissing⟩ :=
      parseMetadata_cut_entries sm counter used hids hnodup i
    rw [Nat.add_assoc, List.take_length_add_append, List.take_succ_cons]
    refine ⟨sm', hparse, ?_⟩
    by_cases hempty : entries = []
    · subst hempty
      rw [lastNumber_nil]
      rw [List.flatMap_nil, List.length_nil] at hlen
      exact ⟨fun _ => ⟨hall (Nat.zero_le _), hsame⟩, fun hcut => by omega⟩
    · rw [lastNumber_of_ne hempty]
      exact ⟨fun hcut => ⟨hall (by omega), hsame⟩, fun hcut => hmissing (by omega)⟩

end DecentStore
