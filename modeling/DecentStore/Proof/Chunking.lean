import DecentStore.Chunker

/-!
# Chunks and their file

The chunks are nonempty, none is longer than the chunk size, and put together they are the file.
-/

namespace DecentStore

open Bytes

theorem readChunks_nil (size turns : Nat) : readChunks size turns [] = [] := by
  cases turns with
  | zero => rfl
  | succ turns => simp [readChunks]

theorem readChunks_succ {size : Nat} (hsize : 0 < size) (turns : Nat) {content : Bytes}
    (hne : content ≠ []) :
    readChunks size (turns + 1) content =
      content.take size :: readChunks size turns (content.drop size) := by
  have htake : content.take size ≠ [] := fun hnil =>
    (List.take_eq_nil_iff.mp hnil).elim hsize.ne' hne
  rw [readChunks]
  exact if_neg htake

theorem flatten_readChunks {size : Nat} (hsize : 0 < size) (turns : Nat) (content : Bytes)
    (hturns : content.length < turns) : (readChunks size turns content).flatten = content := by
  induction turns generalizing content with
  | zero => exact absurd hturns (Nat.not_lt_zero _)
  | succ turns ih =>
      by_cases hnil : content = []
      · rw [hnil, readChunks_nil, List.flatten_nil]
      · have hpos : 0 < content.length := List.length_pos_iff.mpr hnil
        have hrest : (content.drop size).length < turns := by
          rw [List.length_drop]
          omega
        rw [readChunks_succ hsize turns hnil, List.flatten_cons, ih _ hrest,
          List.take_append_drop]

theorem mem_readChunks {size turns : Nat} {content bytes : Bytes}
    (hmem : bytes ∈ readChunks size turns content) :
    bytes ≠ [] ∧ bytes.length ≤ size ∧ bytes.length ≤ content.length := by
  induction turns generalizing content with
  | zero => exact absurd hmem List.not_mem_nil
  | succ turns ih =>
      unfold readChunks at hmem
      by_cases hnil : content.take size = []
      · simp [hnil] at hmem
      · simp only [if_neg hnil, List.mem_cons] at hmem
        rcases hmem with rfl | hrest
        · exact ⟨hnil, List.length_take_le _ _, List.length_take_le' _ _⟩
        · obtain ⟨hne, hsize, hlen⟩ := ih hrest
          rw [List.length_drop] at hlen
          exact ⟨hne, hsize, by omega⟩

theorem length_readChunks_le (size turns : Nat) (content : Bytes) :
    (readChunks size turns content).length ≤ content.length := by
  induction turns generalizing content with
  | zero => exact Nat.zero_le _
  | succ turns ih =>
      unfold readChunks
      by_cases hnil : content.take size = []
      · simp [hnil]
      · have hpos := List.length_pos_iff.mpr hnil
        have hrest := ih (content.drop size)
        rw [List.length_take] at hpos
        rw [List.length_drop] at hrest
        simp only [if_neg hnil, List.length_cons]
        omega

section Buffer

variable [Memory]

theorem chunkFile_within {filePath content : Bytes} {chunkSize : UInt64} (hpos : 0 < chunkSize)
    (hbuffer : Allocates maxSize chunkSize.toNat) :
    chunkFile filePath (some content) chunkSize =
      .ok (readChunks chunkSize.toNat (content.length + 1) content) := by
  rw [chunkFile, if_neg (UInt64.pos_iff_ne_zero.mp hpos), allocate_ok _ hbuffer]
  rfl

theorem chunkFile_beyond {filePath content : Bytes} {chunkSize : UInt64} {e : Exc}
    (hpos : 0 < chunkSize)
    (hbuffer : allocate maxSize vectorTooLong chunkSize.toNat = .error e) :
    chunkFile filePath (some content) chunkSize = .error e := by
  rw [chunkFile, if_neg (UInt64.pos_iff_ne_zero.mp hpos), hbuffer]
  rfl

theorem chunkFile_ok {filePath content : Bytes} {chunkSize : UInt64} {chunks : List Bytes}
    (hchunks : chunkFile filePath (some content) chunkSize = .ok chunks) :
    chunks.flatten = content ∧ chunks.length ≤ content.length ∧
      ∀ bytes ∈ chunks, bytes ≠ [] ∧ bytes.length ≤ chunkSize.toNat ∧
        bytes.length ≤ maxSize := by
  by_cases hzero : chunkSize = 0
  · rw [chunkFile, if_pos hzero] at hchunks
    cases hchunks
  have hpos : 0 < chunkSize := UInt64.pos_iff_ne_zero.mpr hzero
  by_cases hbuffer : Allocates maxSize chunkSize.toNat
  swap
  · rw [chunkFile_beyond hpos (allocate_error vectorTooLong hbuffer)] at hchunks
    cases hchunks
  rw [chunkFile_within hpos hbuffer] at hchunks
  cases hchunks
  refine ⟨flatten_readChunks (UInt64.lt_iff_toNat_lt.mp hpos) _ content (Nat.lt_succ_self _),
    length_readChunks_le _ _ _, fun bytes hbytes => ?_⟩
  obtain ⟨hne, hle, -⟩ := mem_readChunks hbytes
  exact ⟨hne, hle, hle.trans hbuffer.1⟩

end Buffer

/-- As many chunks as needed, all of the chunk size but the last, which may be shorter. -/
structure Partitions (content : Bytes) (size : Nat) (chunks : List Bytes) : Prop where
  count : chunks.length = (content.length + size - 1) / size
  nonempty : ∀ c ∈ chunks, c ≠ []
  full : ∀ c ∈ chunks.dropLast, c.length = size
  last : ∀ c ∈ chunks.getLast?, 1 ≤ c.length ∧ c.length ≤ size
  whole : chunks.flatten = content

theorem readChunks_turns {size : Nat} (hsize : 0 < size) {turns turns' : Nat} {content : Bytes}
    (hturns : content.length < turns) (hturns' : content.length < turns') :
    readChunks size turns content = readChunks size turns' content := by
  induction turns generalizing turns' content with
  | zero => exact absurd hturns (Nat.not_lt_zero _)
  | succ turns ih =>
      obtain ⟨more, rfl⟩ : ∃ more, turns' = more + 1 := ⟨turns' - 1, by omega⟩
      by_cases hnil : content = []
      · rw [hnil, readChunks_nil, readChunks_nil]
      · have hpos : 0 < content.length := List.length_pos_iff.mpr hnil
        have hless : (content.drop size).length < content.length := by
          rw [List.length_drop]
          omega
        rw [readChunks_succ hsize turns hnil, readChunks_succ hsize more hnil,
          @ih more _ (by omega) (by omega)]

theorem length_readChunks {size : Nat} (hsize : 0 < size) {turns : Nat} {content : Bytes}
    (hturns : content.length < turns) :
    (readChunks size turns content).length = (content.length + size - 1) / size := by
  induction turns generalizing content with
  | zero => exact absurd hturns (Nat.not_lt_zero _)
  | succ turns ih =>
      by_cases hnil : content = []
      · rw [hnil, readChunks_nil]
        exact (Nat.div_eq_of_lt (by rw [List.length_nil]; omega)).symm
      have hpos : 0 < content.length := List.length_pos_iff.mpr hnil
      have hrest : (content.drop size).length < turns := by
        rw [List.length_drop]
        omega
      rw [readChunks_succ hsize turns hnil, List.length_cons, ih hrest, List.length_drop]
      by_cases hlast : content.length ≤ size
      · have hnone : (content.length - size + size - 1) / size = 0 :=
          Nat.div_eq_of_lt (by omega)
        have hone : (content.length + size - 1) / size = 1 :=
          Nat.div_eq_of_lt_le (by omega) (by omega)
        rw [hnone, hone]
      · calc (content.length - size + size - 1) / size + 1
            = (content.length - 1) / size + 1 := by rw [Nat.sub_add_cancel (by omega)]
          _ = (content.length - 1 + size) / size := (Nat.add_div_right _ hsize).symm
          _ = (content.length + size - 1) / size := by congr 1; omega

theorem length_of_mem_dropLast {size : Nat} (hsize : 0 < size) {turns : Nat} {content c : Bytes}
    (hc : c ∈ (readChunks size turns content).dropLast) : c.length = size := by
  induction turns generalizing content with
  | zero => exact absurd hc List.not_mem_nil
  | succ turns ih =>
      by_cases hnil : content = []
      · rw [hnil, readChunks_nil] at hc
        exact absurd hc List.not_mem_nil
      rw [readChunks_succ hsize turns hnil] at hc
      by_cases hrest : readChunks size turns (content.drop size) = []
      · rw [hrest] at hc
        exact absurd hc List.not_mem_nil
      · rw [List.dropLast_cons_of_ne_nil hrest] at hc
        rcases List.mem_cons.mp hc with rfl | hc
        · have hmore : content.drop size ≠ [] := by
            intro hdrop
            rw [hdrop] at hrest
            exact hrest (readChunks_nil size turns)
          have hlt : size < content.length := by
            by_contra hge
            exact hmore (List.drop_eq_nil_of_le (Nat.not_lt.mp hge))
          exact List.length_take_of_le hlt.le
        · exact ih hc

theorem readChunks_partitions {size : Nat} (hsize : 0 < size) {turns : Nat} {content : Bytes}
    (hturns : content.length < turns) :
    Partitions content size (readChunks size turns content) where
  count := length_readChunks hsize hturns
  nonempty _ hc := (mem_readChunks hc).1
  full _ hc := length_of_mem_dropLast hsize hc
  last c hc := by
    obtain ⟨hne, hle, -⟩ := mem_readChunks (List.mem_of_getLast? hc)
    exact ⟨List.length_pos_iff.mpr hne, hle⟩
  whole := flatten_readChunks hsize turns content hturns

/-- A short block leaves nothing to read, so the failed stream of the next turn has nothing to
give that the file still had. -/
theorem chunkLoop_eq {turns : Nat} {content buffer : Bytes} (hbuffer : 0 < buffer.length)
    (hturns : content.length < turns) :
    chunkLoop turns ⟨content, false⟩ buffer = some (readChunks buffer.length turns content) := by
  induction turns generalizing content buffer with
  | zero => exact absurd hturns (Nat.not_lt_zero _)
  | succ turns ih =>
      by_cases hnil : content = []
      · rw [hnil, readChunks_nil]
        simp [chunkLoop, IStream.read]
      have hpos : 0 < content.length := List.length_pos_iff.mpr hnil
      have htake : content.take buffer.length ≠ [] := fun hempty =>
        (List.take_eq_nil_iff.mp hempty).elim hbuffer.ne' hnil
      have hover : (content.take buffer.length ++
          buffer.drop (content.take buffer.length).length).length = buffer.length := by
        rw [List.length_append, List.length_drop, List.length_take]
        omega
      have hrest : ∀ next : Bytes, next.length = buffer.length → chunkLoop turns
          ⟨content.drop buffer.length, content.length < buffer.length⟩ next =
          some (readChunks buffer.length turns (content.drop buffer.length)) := by
        intro next hlength
        by_cases hshort : content.length < buffer.length
        · obtain ⟨more, rfl⟩ : ∃ more, turns = more + 1 := ⟨turns - 1, by omega⟩
          rw [decide_eq_true hshort, List.drop_eq_nil_of_le hshort.le, readChunks_nil]
          rfl
        · have hdrop : (content.drop buffer.length).length < turns := by
            rw [List.length_drop]
            omega
          rw [decide_eq_false hshort, ih (hlength.symm ▸ hbuffer) hdrop, hlength]
      rw [readChunks_succ hbuffer turns hnil]
      unfold chunkLoop
      simp only [IStream.read, Bool.false_eq_true, ↓reduceIte, htake, hrest _ hover,
        Option.map_some, List.take_left]

/-- **Chunking partitions the file**, whatever its length, as long as a buffer of the chunk size
can be had; if it cannot, nothing is read. -/
theorem chunkFile_partitions [Memory] (filePath content : Bytes) {chunkSize : UInt64}
    (hpos : 0 < chunkSize) :
    (Allocates maxSize chunkSize.toNat →
      ∃ chunks, chunkFile filePath (some content) chunkSize = .ok chunks ∧
        (∀ turns, content.length < turns →
          chunkLoop turns ⟨content, false⟩ (List.replicate chunkSize.toNat 0) = some chunks) ∧
        Partitions content chunkSize.toNat chunks) ∧
      (¬ Allocates maxSize chunkSize.toNat →
        chunkFile filePath (some content) chunkSize =
          .error (if maxSize < chunkSize.toNat then vectorTooLong else .badAlloc)) := by
  have hsize : 0 < chunkSize.toNat := UInt64.lt_iff_toNat_lt.mp hpos
  refine ⟨fun hbuffer => ⟨_, chunkFile_within hpos hbuffer, ?_, ?_⟩, fun hbuffer =>
    chunkFile_beyond hpos (allocate_error vectorTooLong hbuffer)⟩
  · intro turns hturns
    have hbuffer : (List.replicate chunkSize.toNat (0 : UInt8)).length = chunkSize.toNat :=
      List.length_replicate
    rw [chunkLoop_eq (hbuffer.symm ▸ hsize) hturns, hbuffer]
    exact congrArg some (readChunks_turns hsize hturns (Nat.lt_succ_self _))
  · exact readChunks_partitions hsize (Nat.lt_succ_self _)

theorem letters_partitioned :
    ∃ chunks, chunkFile (str "/home/note") (some (str "abcde")) 2 = .ok chunks ∧
      (∀ turns, (str "abcde").length < turns →
        chunkLoop turns ⟨str "abcde", false⟩ (List.replicate 2 0) = some chunks) ∧
      Partitions (str "abcde") 2 chunks :=
  (chunkFile_partitions (str "/home/note") (str "abcde") (by decide)).1 (by decide)

/-- A buffer of `2 ^ 63` bytes cannot be made, even for an empty file. -/
theorem oversized_buffer_throws : ¬ ∀ (filePath content : Bytes) (chunkSize : UInt64),
    0 < chunkSize → ∃ chunks, chunkFile filePath (some content) chunkSize = .ok chunks ∧
      Partitions content chunkSize.toNat chunks := by
  intro hall
  obtain ⟨chunks, hchunks, -⟩ := hall (str "/home/note") [] 9223372036854775808 (by decide)
  rw [chunkFile_beyond (by decide) (allocate_error vectorTooLong (by decide))] at hchunks
  cases hchunks

end DecentStore
