import DecentStore.Proof.ManifestCodec

/-!
# A manifest that is cut short

What the reader makes of the first `k` bytes of a manifest. A field that the text ends in is read as
far as it goes, and the next one is missed, so a cut is noticed wherever a field has to follow. None
has to follow the last chunk id, whose shorter form is another id, and none the last line, where the
key ends; and before the flag is read, an encrypted manifest passes for a plain one.
-/

namespace DecentStore

open Bytes

/-! ### One field -/

/-- How a getter reads a field: nothing from an exhausted stream, a part of it at the end of the
text, and the whole of it before the end of the line. -/
structure Reads {α : Type} (get : IStream → α → α × IStream) (old : α) (field : Bytes) (value : α)
    (part : Nat → α) : Prop where
  exhausted : ∀ is : IStream, is.Exhausted → (get is old).2.failed = true
  whole : ∀ rest, get ⟨32 :: (field ++ newline :: rest), false⟩ old =
    (value, ⟨newline :: rest, false⟩)
  partly : ∀ i, 0 < i → i ≤ field.length →
    get ⟨32 :: field.take i, false⟩ old = (part i, ⟨[], false⟩)

theorem getString_take {field : Bytes} (hfield : Token field) {b : UInt8}
    (hblank : isSpace b = true) {i : Nat} (hpos : 0 < i) :
    IStream.getString ⟨b :: field.take i, false⟩ [] = (field.take i, ⟨[], false⟩) := by
  have htoken : Token (field.take i) :=
    ⟨by simp [hfield.1, hpos.ne'], fun b hb => hfield.2 b (List.take_subset _ _ hb)⟩
  have hread := IStream.getString_token htoken IStream.atBreak_nil []
  rw [List.append_nil] at hread
  rw [IStream.getString_space hblank, hread]

theorem reads_string {field : Bytes} (hfield : Token field) :
    Reads IStream.getString [] field field field.take where
  exhausted is hnone := hnone.getString []
  whole rest := by
    rw [IStream.getString_space (by decide)]
    exact IStream.getString_token hfield (IStream.atBreak_cons isSpace_newline rest) []
  partly i hpos hle := getString_take hfield (by decide) hpos

theorem reads_uint64 (n : UInt64) : Reads IStream.getUInt64 0 (decimal n.toNat) n
    fun i => UInt64.ofNat (value ((decimal n.toNat).take i)) where
  exhausted is hnone := hnone.getUInt64 0
  whole rest := by
    rw [IStream.getUInt64_space (by decide)]
    exact IStream.getUInt64_decimal n (IStream.atBreak_cons isSpace_newline rest) 0
  partly i hpos hle := by
    rw [IStream.getUInt64_space (by decide)]
    exact IStream.getUInt64_part n (List.take_prefix i _) (by simp [decimal_ne_nil, hpos.ne']) 0

section Labelled

variable {α β : Type} {get : IStream → α → α × IStream} {old value : α} {part : Nat → α}
  {label field rest : Bytes} {k : Nat}

theorem readLabelled_exhausted (hreads : Reads get old field value part) (expected : Bytes)
    (next : α × IStream → Except Exc β) {is : IStream} (hnone : is.Exhausted) :
    ∃ e, (readLabelled get old expected is >>= next) = .error e := by
  have hlabel : (is.getString []).2.Exhausted := Or.inl (hnone.getString [])
  have hfailed := hreads.exhausted _ hlabel
  have hread : readLabelled get old expected is = .error (malformed expected) := by
    rw [readLabelled]
    exact if_pos (Or.inl hfailed)
  exact ⟨malformed expected, by rw [hread]; rfl⟩

theorem readLabelled_missing (hreads : Reads get old field value part) (hlabel : Token label)
    (hk : k ≤ label.length + 1) :
    ∃ e, readLabelled get old label ⟨(fieldLine label field ++ rest).take k, false⟩ = .error e := by
  have hnone :
      (IStream.getString ⟨(fieldLine label field ++ rest).take k, false⟩ []).2.Exhausted := by
    rw [fieldLine_append]
    by_cases hshort : k ≤ label.length
    · rw [List.take_append_of_le_length hshort]
      exact IStream.exhausted_of_word
        (fun b hb => hlabel.2 b (List.take_subset _ _ hb)) []
    · obtain rfl : k = label.length + 1 := by omega
      rw [List.take_length_add_append, List.take_succ_cons, List.take_zero,
        IStream.getString_token hlabel (IStream.atBreak_cons isSpace_blank [])]
      exact Or.inr (by simpa using isSpace_blank)
  have hfailed := hreads.exhausted _ hnone
  exact ⟨malformed label, by rw [readLabelled]; exact if_pos (Or.inl hfailed)⟩

theorem readLabelled_part (hreads : Reads get old field value part) (hlabel : Token label) {i : Nat}
    (hpos : 0 < i) (hle : i ≤ field.length) :
    readLabelled get old label
        ⟨(fieldLine label field ++ rest).take (label.length + 1 + i), false⟩ =
      .ok (part i, ⟨[], false⟩) := by
  have htake : (fieldLine label field ++ rest).take (label.length + 1 + i) =
      label ++ 32 :: field.take i := by
    calc (fieldLine label field ++ rest).take (label.length + 1 + i)
        = label ++ (32 :: (field ++ newline :: rest)).take (i + 1) := by
          rw [fieldLine_append, Nat.add_assoc, List.take_length_add_append, Nat.add_comm 1 i]
      _ = label ++ 32 :: (field ++ newline :: rest).take i := by rw [List.take_succ_cons]
      _ = label ++ 32 :: field.take i := by rw [List.take_append_of_le_length hle]
  unfold readLabelled
  rw [htake, IStream.getString_token hlabel (IStream.atBreak_cons (by decide) _)]
  simp only [hreads.partly i hpos hle, Bool.false_eq_true, ne_eq, not_true_eq_false, or_self,
    ↓reduceIte]

theorem readLabelled_whole (hreads : Reads get old field value part) (hlabel : Token label)
    (next : α × IStream → Except Exc β) (j : Nat) :
    (readLabelled get old label
        ⟨(fieldLine label field ++ rest).take ((fieldLine label field).length + j), false⟩ >>=
      next) = next (value, ⟨newline :: rest.take j, false⟩) := by
  rw [List.take_length_add_append,
    readLabelled_fieldLine hlabel field (hreads.whole (rest.take j))]
  rfl

theorem length_fieldLine (label field : Bytes) :
    (fieldLine label field).length = label.length + 1 + field.length + 1 := by
  simp only [fieldLine, List.length_append, str_space, str_newline, List.length_singleton]

theorem readLabelled_ended (hreads : Reads get old field value part) (hlabel : Token label)
    (hpos : 0 < field.length) (hfull : part field.length = value) (j : Nat) :
    readLabelled get old label
        ⟨(fieldLine label field ++ rest).take (label.length + 1 + field.length + j), false⟩ =
      .ok (value, ⟨(newline :: rest).take j, false⟩) := by
  cases j with
  | zero =>
      rw [Nat.add_zero, readLabelled_part hreads hlabel hpos le_rfl, hfull]
      rfl
  | succ j =>
      have hafter : label.length + 1 + field.length + (j + 1) =
          (fieldLine label field).length + j := by
        rw [length_fieldLine]
        omega
      rw [hafter, List.take_length_add_append,
        readLabelled_fieldLine hlabel field (hreads.whole (rest.take j))]
      rfl

/-- A cut in a line is noticed when the next line is read. -/
theorem readLabelled_cut (hreads : Reads get old field value part) (hlabel : Token label)
    {next : α × IStream → Except Exc β}
    (hnext : ∀ v is, IStream.Exhausted is → ∃ e, next (v, is) = .error e)
    (hk : k < (fieldLine label field).length) :
    ∃ e, (readLabelled get old label ⟨(fieldLine label field ++ rest).take k, false⟩ >>= next) =
      .error e := by
  rw [length_fieldLine] at hk
  by_cases hmissing : k ≤ label.length + 1
  · obtain ⟨e, he⟩ := @readLabelled_missing α get old value part label field rest k hreads hlabel
      hmissing
    exact ⟨e, by rw [he]; rfl⟩
  · obtain ⟨i, rfl⟩ : ∃ i, k = label.length + 1 + i := ⟨k - (label.length + 1), by omega⟩
    obtain ⟨e, he⟩ := hnext (part i) ⟨[], false⟩ (IStream.exhausted_nil false)
    exact ⟨e, by rw [readLabelled_part hreads hlabel (by omega) (by omega)]; exact he⟩

theorem readLabelled_line (hreads : Reads get old field value part) (hlabel : Token label)
    {next : α × IStream → Except Exc β}
    (hnext : ∀ v is, IStream.Exhausted is → ∃ e, next (v, is) = .error e)
    (hrest : ∀ j, k = (fieldLine label field).length + j →
      ∃ e, next (value, ⟨newline :: rest.take j, false⟩) = .error e) :
    ∃ e, (readLabelled get old label ⟨(fieldLine label field ++ rest).take k, false⟩ >>= next) =
      .error e := by
  by_cases hline : k < (fieldLine label field).length
  · exact readLabelled_cut hreads hlabel hnext hline
  obtain ⟨j, rfl⟩ := Nat.exists_eq_add_of_le (Nat.not_lt.mp hline)
  rw [readLabelled_whole hreads hlabel]
  exact hrest j rfl

end Labelled

/-! ### The four lines at the front -/

namespace Manifest

/-- The text up to the end of the count; the chunk ids are read from there. -/
def header (m : Manifest) : Bytes :=
  fieldLine (str "filename") m.originalName ++
    fieldLine (str "size") (decimal m.originalSize.toNat) ++
    fieldLine (str "chunk_size") (decimal m.chunkSize.toNat) ++
    (str "chunks" ++ 32 :: decimal m.chunks.length)

/-- What is known when the chunk ids have been read. -/
def unsealed (m : Manifest) (chunks : List ManifestEntry) : Manifest :=
  { originalName := m.originalName, originalSize := m.originalSize, chunkSize := m.chunkSize
    chunks := chunks }

/-- Every field is a token, those of the encryption section where there is one. -/
structure Whole (m : Manifest) : Prop where
  name : Token m.originalName
  ids : ∀ e ∈ m.chunks, Token e.chunkId
  count : m.chunks.length ≤ maxEntries
  sealing : m.encrypted = true → Token m.encAlgo ∧ Token m.keyEncAlgo ∧ Token m.encryptedKeyHex

theorem serializeManifest_header (m : Manifest) :
    serializeManifest m =
      m.header ++ newline :: (serializeEntries m.chunks ++ serializeEncryption m) := by
  have hline := fieldLine_append (str "chunks") (decimal m.chunks.length)
    (serializeEntries m.chunks ++ serializeEncryption m)
  simp only [serializeManifest, header, List.append_assoc, hline, List.cons_append]

end Manifest

/-- A shorter form of a positive number is positive, so a cut count asks for a chunk id. -/
theorem readChunkIds_part_count {n i : Nat} (hn : n < 2 ^ 64) (hpos : 0 < i)
    (hlt : i < (decimal n).length) :
    ∃ e, readChunkIds (UInt64.ofNat (value ((decimal n).take i))).toNat ⟨[], false⟩ = .error e := by
  have hne : n ≠ 0 := by
    intro hzero
    have hone : (decimal 0).length = 1 := by decide
    rw [hzero, hone] at hlt
    omega
  have hvalue : 0 < value ((decimal n).take i) :=
    value_take_decimal_pos (Nat.pos_of_ne_zero hne) hpos
  have hle : value ((decimal n).take i) ≤ n := by
    have happend := value_le_append ((decimal n).take i) ((decimal n).drop i)
    rw [List.take_append_drop, value_decimal] at happend
    exact happend
  rw [UInt64.toNat_ofNat_of_lt' (lt_of_le_of_lt hle hn)]
  obtain ⟨j, hj⟩ : ∃ j, value ((decimal n).take i) = j + 1 := ⟨_, (Nat.succ_pred hvalue.ne').symm⟩
  exact ⟨malformed (str "chunk id"), by rw [hj]; rfl⟩

section Front

variable {m : Manifest}

theorem serializeManifest_lines (m : Manifest) :
    serializeManifest m =
      fieldLine (str "filename") m.originalName ++
        (fieldLine (str "size") (decimal m.originalSize.toNat) ++
          (fieldLine (str "chunk_size") (decimal m.chunkSize.toNat) ++
            (fieldLine (str "chunks") (decimal m.chunks.length) ++
              (serializeEntries m.chunks ++ serializeEncryption m)))) := by
  simp only [serializeManifest, List.append_assoc]

/-- A cut before the end of the count is noticed. -/
theorem parseManifestText_cut_header (hm : m.Whole) {k : Nat} (hk : k < m.header.length) :
    ∃ e, parseManifestText ((serializeManifest m).take k) = .error e := by
  have hname := reads_string hm.name
  have hsize := reads_uint64 m.originalSize
  have hchunkSize := reads_uint64 m.chunkSize
  have hlt : m.chunks.length < 2 ^ 64 := lt_of_le_of_lt hm.count (by decide)
  have hcount := reads_uint64 (UInt64.ofNat m.chunks.length)
  rw [UInt64.toNat_ofNat_of_lt' hlt] at hcount
  simp only [Manifest.header, List.length_append, List.length_cons] at hk
  rw [serializeManifest_lines]
  unfold parseManifestText
  apply readLabelled_line hname (by decide)
    (fun _ _ hnone => readLabelled_exhausted hsize _ _ hnone)
  rintro k rfl
  dsimp only
  rw [readLabelled_newline]
  apply readLabelled_line hsize (by decide)
    (fun _ _ hnone => readLabelled_exhausted hchunkSize _ _ hnone)
  rintro k rfl
  dsimp only
  rw [readLabelled_newline]
  apply readLabelled_line hchunkSize (by decide)
    (fun _ _ hnone => readLabelled_exhausted hcount _ _ hnone)
  rintro k rfl
  dsimp only
  rw [readLabelled_newline]
  by_cases hmissing : k ≤ (str "chunks").length + 1
  · obtain ⟨e, he⟩ := @readLabelled_missing _ _ _ _ _ (str "chunks") (decimal m.chunks.length)
      (serializeEntries m.chunks ++ serializeEncryption m) k hcount (by decide) hmissing
    exact ⟨e, by rw [he]; rfl⟩
  obtain ⟨i, rfl⟩ : ∃ i, k = (str "chunks").length + 1 + i :=
    Nat.exists_eq_add_of_le (Nat.le_of_not_le hmissing)
  obtain ⟨e, he⟩ := readChunkIds_part_count (i := i) hlt (by omega) (by omega)
  rw [readLabelled_part hcount (by decide) (by omega) (by omega)]
  simp only [Bind.bind, Except.bind, he]
  split
  · exact ⟨_, rfl⟩
  · exact ⟨e, rfl⟩

/-- From the end of the count on, the cut is one of the chunk ids and the encryption section. -/
theorem parseManifestText_cut_body (hm : m.Whole) (j : Nat) :
    parseManifestText ((serializeManifest m).take (m.header.length + j)) = (do
      let (chunks, is) ← readChunkIds m.chunks.length
        ⟨(newline :: (serializeEntries m.chunks ++ serializeEncryption m)).take j, false⟩
      readEncryption (m.unsealed chunks) is) := by
  have hlt : m.chunks.length < 2 ^ 64 := lt_of_le_of_lt hm.count (by decide)
  have hlength : (UInt64.ofNat m.chunks.length).toNat = m.chunks.length :=
    UInt64.toNat_ofNat_of_lt' hlt
  have hcount := reads_uint64 (UInt64.ofNat m.chunks.length)
  rw [hlength] at hcount
  have hread : readLabelled IStream.getUInt64 0 (str "chunks")
      ⟨(fieldLine (str "chunks") (decimal m.chunks.length) ++
        (serializeEntries m.chunks ++ serializeEncryption m)).take
          ((str "chunks").length + 1 + (decimal m.chunks.length).length + j), false⟩ =
      .ok (UInt64.ofNat m.chunks.length,
        ⟨(newline :: (serializeEntries m.chunks ++ serializeEncryption m)).take j, false⟩) := by
    apply readLabelled_ended hcount (by decide)
    · exact List.length_pos_iff.mpr (decimal_ne_nil _)
    · rw [List.take_length, value_decimal]
  have hheader : m.header.length + j =
      (fieldLine (str "filename") m.originalName).length +
        ((fieldLine (str "size") (decimal m.originalSize.toNat)).length +
          ((fieldLine (str "chunk_size") (decimal m.chunkSize.toNat)).length +
            ((str "chunks").length + 1 + (decimal m.chunks.length).length + j))) := by
    simp only [Manifest.header, List.length_append, List.length_cons]
    omega
  rw [serializeManifest_lines, hheader]
  unfold parseManifestText
  rw [readLabelled_whole (reads_string hm.name) (by decide)]
  dsimp only
  rw [readLabelled_newline, readLabelled_whole (reads_uint64 m.originalSize) (by decide)]
  dsimp only
  rw [readLabelled_newline, readLabelled_whole (reads_uint64 m.chunkSize) (by decide)]
  dsimp only
  rw [readLabelled_newline, hread]
  simp only [Bind.bind, Except.bind, hlength, Nat.not_lt.mpr hm.count, ↓reduceIte]
  rfl

end Front

/-! ### The chunk ids -/

namespace Manifest

def lastId (chunks : List ManifestEntry) : Bytes := (chunks.getLast?.map (·.chunkId)).getD []

end Manifest

open Manifest (lastId)

theorem lastId_singleton (e : ManifestEntry) : lastId [e] = e.chunkId := rfl

theorem lastId_cons_cons (e e' : ManifestEntry) (chunks : List ManifestEntry) :
    lastId (e :: e' :: chunks) = lastId (e' :: chunks) := by
  simp only [lastId, List.getLast?_cons_cons]

theorem length_serializeEntries_cons (e : ManifestEntry) (chunks : List ManifestEntry) :
    (serializeEntries (e :: chunks)).length =
      e.chunkId.length + 1 + (serializeEntries chunks).length := by
  have hline := congrArg List.length (serializeEntries_cons e chunks [])
  simp only [List.append_nil, List.length_append, List.length_cons] at hline
  omega

theorem readChunkIds_exhausted {chunks : List ManifestEntry} (hne : chunks ≠ []) {is : IStream}
    (hnone : is.Exhausted) : ∃ e, readChunkIds chunks.length is = .error e := by
  obtain ⟨e, chunks, rfl⟩ := List.exists_cons_of_ne_nil hne
  refine ⟨malformed (str "chunk id"), ?_⟩
  rw [List.length_cons, readChunkIds]
  exact if_pos (hnone.getString [])

section Ids

variable {rest : Bytes}

theorem readChunkIds_cons_whole {e : ManifestEntry} (hid : Token e.chunkId)
    (chunks : List ManifestEntry) (j : Nat) :
    readChunkIds (e :: chunks).length
        ⟨(newline :: (serializeEntries (e :: chunks) ++ rest)).take (e.chunkId.length + 1 + j),
          false⟩ = (do
      let (entries, is) ← readChunkIds chunks.length
        ⟨(newline :: (serializeEntries chunks ++ rest)).take j, false⟩
      .ok (e :: entries, is)) := by
  have htake : (newline :: (serializeEntries (e :: chunks) ++ rest)).take
      (e.chunkId.length + 1 + j) =
        newline :: (e.chunkId ++ (newline :: (serializeEntries chunks ++ rest)).take j) := by
    rw [serializeEntries_cons, Nat.add_right_comm, List.take_succ_cons,
      List.take_length_add_append]
  have hbreak : IStream.AtBreak ((newline :: (serializeEntries chunks ++ rest)).take j) := by
    cases j with
    | zero => exact IStream.atBreak_nil
    | succ j => exact IStream.atBreak_cons isSpace_newline _
  rw [htake, List.length_cons, readChunkIds, IStream.getString_space isSpace_newline,
    IStream.getString_token hid hbreak]
  rfl

theorem readChunkIds_cons_part {e : ManifestEntry} (hid : Token e.chunkId)
    (chunks : List ManifestEntry) {i : Nat} (hpos : 0 < i) (hle : i ≤ e.chunkId.length) :
    readChunkIds (e :: chunks).length
        ⟨(newline :: (serializeEntries (e :: chunks) ++ rest)).take (1 + i), false⟩ = (do
      let (entries, is) ← readChunkIds chunks.length ⟨[], false⟩
      .ok (⟨e.chunkId.take i⟩ :: entries, is)) := by
  have htake : (newline :: (serializeEntries (e :: chunks) ++ rest)).take (1 + i) =
      newline :: e.chunkId.take i := by
    calc (newline :: (serializeEntries (e :: chunks) ++ rest)).take (1 + i)
        = newline :: (e.chunkId ++ newline :: (serializeEntries chunks ++ rest)).take i := by
          rw [serializeEntries_cons, Nat.add_comm, List.take_succ_cons]
      _ = newline :: e.chunkId.take i := by rw [List.take_append_of_le_length hle]
  rw [htake, List.length_cons, readChunkIds, getString_take hid isSpace_newline hpos]
  rfl

theorem readChunkIds_cut_after (chunks : List ManifestEntry)
    (hids : ∀ e ∈ chunks, Token e.chunkId) (j : Nat) :
    readChunkIds chunks.length
        ⟨(newline :: (serializeEntries chunks ++ rest)).take ((serializeEntries chunks).length + j),
          false⟩ = .ok (chunks, ⟨(newline :: rest).take j, false⟩) := by
  induction chunks with
  | nil =>
      simp only [serializeEntries, List.flatMap_nil, List.length_nil, Nat.zero_add, List.nil_append]
      rfl
  | cons e chunks ih =>
      rw [length_serializeEntries_cons, Nat.add_assoc,
        readChunkIds_cons_whole (hids e List.mem_cons_self),
        ih fun x hx => hids x (List.mem_cons_of_mem e hx)]
      rfl

theorem length_lastId_lt {chunks : List ManifestEntry} (hne : chunks ≠ []) :
    (lastId chunks).length < (serializeEntries chunks).length := by
  induction chunks with
  | nil => exact absurd rfl hne
  | cons e chunks ih =>
      rw [length_serializeEntries_cons]
      cases chunks with
      | nil =>
          rw [lastId_singleton]
          omega
      | cons e' chunks =>
          have hlt := ih (List.cons_ne_nil e' chunks)
          rw [lastId_cons_cons]
          omega

theorem readChunkIds_cut_before (chunks : List ManifestEntry)
    (hids : ∀ e ∈ chunks, Token e.chunkId) {j : Nat} (hne : chunks ≠ [])
    (hj : j + (lastId chunks).length ≤ (serializeEntries chunks).length) :
    ∃ e, readChunkIds chunks.length
      ⟨(newline :: (serializeEntries chunks ++ rest)).take j, false⟩ = .error e := by
  induction chunks generalizing j with
  | nil => exact absurd rfl hne
  | cons e chunks ih =>
      have hid := hids e List.mem_cons_self
      rw [length_serializeEntries_cons] at hj
      by_cases hblank : j ≤ 1
      · apply readChunkIds_exhausted hne
        refine Or.inr fun b hb => ?_
        have hfront := (List.take_prefix_take_left hblank
          (l := newline :: (serializeEntries (e :: chunks) ++ rest))).subset hb
        rw [List.take_succ_cons, List.take_zero, List.mem_singleton] at hfront
        rw [hfront]
        exact isSpace_newline
      have hmore : chunks ≠ [] := by
        rintro rfl
        simp only [lastId, List.getLast?_singleton, Option.map_some, Option.getD_some,
          serializeEntries, List.flatMap_nil, List.length_nil] at hj
        omega
      obtain ⟨e', chunks', rfl⟩ := List.exists_cons_of_ne_nil hmore
      by_cases hwhole : e.chunkId.length + 1 ≤ j
      · obtain ⟨j, rfl⟩ := Nat.exists_eq_add_of_le hwhole
        rw [lastId_cons_cons] at hj
        obtain ⟨x, hx⟩ := ih (fun x hx => hids x (List.mem_cons_of_mem e hx)) hmore
          (show j + _ ≤ _ by omega)
        rw [readChunkIds_cons_whole hid, hx]
        exact ⟨x, rfl⟩
      · obtain ⟨i, rfl⟩ : ∃ i, j = 1 + i := Nat.exists_eq_add_of_le (by omega)
        obtain ⟨x, hx⟩ := readChunkIds_exhausted hmore (IStream.exhausted_nil false)
        rw [readChunkIds_cons_part hid _ (by omega) (by omega), hx]
        exact ⟨x, rfl⟩

/-- The cut is in the last id: another id is read, and nothing is left. -/
theorem readChunkIds_cut_last (chunks : List ManifestEntry)
    (hids : ∀ e ∈ chunks, Token e.chunkId) {j : Nat} (hj : j < (serializeEntries chunks).length)
    (hlast : (serializeEntries chunks).length < j + (lastId chunks).length) :
    ∃ others, others ≠ chunks ∧ readChunkIds chunks.length
      ⟨(newline :: (serializeEntries chunks ++ rest)).take j, false⟩ =
        .ok (others, ⟨[], false⟩) := by
  induction chunks generalizing j with
  | nil => exact absurd hj (Nat.not_lt_zero j)
  | cons e chunks ih =>
      have hid := hids e List.mem_cons_self
      rw [length_serializeEntries_cons] at hj hlast
      cases chunks with
      | nil =>
          simp only [lastId, List.getLast?_singleton, Option.map_some, Option.getD_some,
            serializeEntries, List.flatMap_nil, List.length_nil] at hj hlast
          obtain ⟨i, rfl⟩ : ∃ i, j = 1 + i := Nat.exists_eq_add_of_le (by omega)
          refine ⟨[⟨e.chunkId.take i⟩], ?_, ?_⟩
          · intro hsame
            simp only [List.cons.injEq, and_true] at hsame
            have hlength := congrArg (fun e => e.chunkId.length) hsame
            simp only [List.length_take] at hlength
            omega
          · rw [readChunkIds_cons_part hid [] (by omega) (by omega)]
            rfl
      | cons e' chunks =>
          have hlt := length_lastId_lt (List.cons_ne_nil e' chunks)
          rw [lastId_cons_cons] at hlast
          obtain ⟨j, rfl⟩ := Nat.exists_eq_add_of_le
            (show e.chunkId.length + 1 ≤ j by omega)
          obtain ⟨others, hother, hread⟩ := ih (fun x hx => hids x (List.mem_cons_of_mem e hx))
            (show j < _ by omega) (by omega)
          refine ⟨e :: others, by simpa using hother, ?_⟩
          rw [readChunkIds_cons_whole hid, hread]
          rfl

end Ids

/-! ### The encryption section -/

/-- Without a readable flag `1` the manifest stays as it is. -/
theorem readEncryption_unflagged (m : Manifest) {is : IStream}
    (hflag : ((is.getString []).2.getInt 0).2.failed = true ∨
      ((is.getString []).2.getInt 0).1 ≠ 1) : readEncryption m is = .ok m := by
  have hno : ¬ (((is.getString []).2.getInt 0).2.failed = false ∧
      (is.getString []).1 = str "encrypted" ∧ ((is.getString []).2.getInt 0).1 = 1) := by
    rintro ⟨hread, -, hone⟩
    rcases hflag with hfailed | hother
    · rw [hread] at hfailed
      exact Bool.false_ne_true hfailed
    · exact hother hone
  unfold readEncryption
  exact if_neg hno

theorem readEncryption_cut_plain (m : Manifest) (j : Nat) :
    readEncryption m ⟨(newline :: fieldLine (str "encrypted") (str "0")).take j, false⟩ =
      .ok m := by
  by_cases hwhole : 13 ≤ j
  · rw [List.take_of_length_le (by exact hwhole)]
    exact readEncryption_plain m
  · have hcut : ∀ j < 13,
        ((IStream.getString ⟨(newline :: fieldLine (str "encrypted") (str "0")).take j, false⟩
            []).2.getInt 0).2.failed = true ∨
          ((IStream.getString ⟨(newline :: fieldLine (str "encrypted") (str "0")).take j, false⟩
            []).2.getInt 0).1 ≠ 1 := by decide
    exact readEncryption_unflagged m (hcut j (Nat.not_le.mp hwhole))

section Sealed

variable {m : Manifest}

theorem serializeEncryption_encrypted (hsealed : m.encrypted = true) :
    serializeEncryption m = fieldLine (str "encrypted") (str "1") ++
      (fieldLine (str "enc_algo") m.encAlgo ++ (fieldLine (str "key_enc_algo") m.keyEncAlgo ++
        fieldLine (str "enc_key") m.encryptedKeyHex)) := by
  simp only [serializeEncryption, hsealed, ↓reduceIte, List.append_assoc]

theorem length_serializeEncryption (hsealed : m.encrypted = true) :
    (serializeEncryption m).length = 12 + ((fieldLine (str "enc_algo") m.encAlgo).length +
      ((fieldLine (str "key_enc_algo") m.keyEncAlgo).length +
        ((str "enc_key").length + 1 + m.encryptedKeyHex.length + 1))) := by
  have hflag : (fieldLine (str "encrypted") (str "1")).length = 12 := by decide
  rw [serializeEncryption_encrypted hsealed]
  simp only [List.length_append, hflag]
  rw [length_fieldLine (str "enc_key")]

theorem readEncryption_cut_flag (m₀ : Manifest) (hsealed : m.encrypted = true) {j : Nat}
    (hj : j < 12) :
    readEncryption m₀ ⟨(newline :: serializeEncryption m).take j, false⟩ = .ok m₀ := by
  have htext : newline :: serializeEncryption m =
      (newline :: str "encrypted 1") ++ newline ::
        (fieldLine (str "enc_algo") m.encAlgo ++ (fieldLine (str "key_enc_algo") m.keyEncAlgo ++
          fieldLine (str "enc_key") m.encryptedKeyHex)) := by
    rw [serializeEncryption_encrypted hsealed, fieldLine_append]
    rfl
  have hle : j ≤ (newline :: str "encrypted 1").length := Nat.le_of_lt hj
  have hcut : ∀ j < 12,
      ((IStream.getString ⟨(newline :: str "encrypted 1").take j, false⟩ []).2.getInt 0).2.failed =
          true ∨
        ((IStream.getString ⟨(newline :: str "encrypted 1").take j, false⟩ []).2.getInt 0).1 ≠
          1 := by
    decide
  rw [htext, List.take_append_of_le_length hle]
  exact readEncryption_unflagged m₀ (hcut j hj)

theorem readEncryption_cut_after_flag (m₀ : Manifest) (hsealed : m.encrypted = true) (j : Nat) :
    readEncryption m₀ ⟨(newline :: serializeEncryption m).take (12 + j), false⟩ = (do
      let (encAlgo, is) ← readLabelled IStream.getString [] (str "enc_algo")
        ⟨(newline :: (fieldLine (str "enc_algo") m.encAlgo ++
          (fieldLine (str "key_enc_algo") m.keyEncAlgo ++
            fieldLine (str "enc_key") m.encryptedKeyHex))).take j, false⟩
      let (keyEncAlgo, is) ← readLabelled IStream.getString [] (str "key_enc_algo") is
      let (encryptedKeyHex, _) ← readLabelled IStream.getString [] (str "enc_key") is
      .ok { m₀ with
        encrypted := true, encAlgo := encAlgo, keyEncAlgo := keyEncAlgo
        encryptedKeyHex := encryptedKeyHex }) := by
  have hbreak : ∀ lines : Bytes, IStream.AtBreak ((newline :: lines).take j) := by
    intro lines
    cases j with
    | zero => exact IStream.atBreak_nil
    | succ j => exact IStream.atBreak_cons isSpace_newline _
  have htext : ∀ lines : Bytes,
      (newline :: (fieldLine (str "encrypted") (str "1") ++ lines)).take (12 + j) =
        newline :: (str "encrypted" ++ 32 :: (str "1" ++ (newline :: lines).take j)) := by
    intro lines
    have hlength : (newline :: str "encrypted 1").length = 12 := by decide
    have hsplit : newline :: (fieldLine (str "encrypted") (str "1") ++ lines) =
        (newline :: str "encrypted 1") ++ newline :: lines := by
      rw [fieldLine_append]
      rfl
    rw [hsplit, ← hlength, List.take_length_add_append]
    rfl
  rw [serializeEncryption_encrypted hsealed, htext, readEncryption_flag m₀ (hbreak _)]

section Lines

variable (m₀ : Manifest) (hsealed : m.encrypted = true)
  (htokens : Token m.encAlgo ∧ Token m.keyEncAlgo ∧ Token m.encryptedKeyHex) {j : Nat}

include hsealed htokens

theorem readEncryption_cut_before_key (hj : 12 ≤ j)
    (hkey : j + m.encryptedKeyHex.length ≤ (serializeEncryption m).length) :
    ∃ e, readEncryption m₀ ⟨(newline :: serializeEncryption m).take j, false⟩ = .error e := by
  obtain ⟨j, rfl⟩ := Nat.exists_eq_add_of_le hj
  have halgo := reads_string htokens.1
  have hkeyAlgo := reads_string htokens.2.1
  have hkeyHex := reads_string htokens.2.2
  rw [length_serializeEncryption hsealed] at hkey
  rw [readEncryption_cut_after_flag m₀ hsealed]
  cases j with
  | zero => exact readLabelled_exhausted halgo _ _ (IStream.exhausted_nil false)
  | succ j =>
      rw [List.take_succ_cons, readLabelled_newline]
      apply readLabelled_line halgo (by decide)
        (fun _ _ hnone => readLabelled_exhausted hkeyAlgo _ _ hnone)
      rintro j rfl
      dsimp only
      rw [readLabelled_newline]
      apply readLabelled_line hkeyAlgo (by decide)
        (fun _ _ hnone => readLabelled_exhausted hkeyHex _ _ hnone)
      rintro j rfl
      dsimp only
      obtain ⟨e, he⟩ := @readLabelled_missing _ _ _ _ _ (str "enc_key") m.encryptedKeyHex [] j
        hkeyHex (by decide) (by omega)
      rw [List.append_nil] at he
      exact ⟨e, by rw [readLabelled_newline, he]; rfl⟩

theorem readEncryption_cut_key {i : Nat} (hpos : 0 < i) (hle : i ≤ m.encryptedKeyHex.length)
    (hkey : j + m.encryptedKeyHex.length = (serializeEncryption m).length + i) :
    readEncryption m₀ ⟨(newline :: serializeEncryption m).take j, false⟩ =
      .ok { m₀ with
        encrypted := true, encAlgo := m.encAlgo, keyEncAlgo := m.keyEncAlgo
        encryptedKeyHex := m.encryptedKeyHex.take i } := by
  rw [length_serializeEncryption hsealed] at hkey
  obtain rfl : j = 12 + ((fieldLine (str "enc_algo") m.encAlgo).length +
      ((fieldLine (str "key_enc_algo") m.keyEncAlgo).length + ((str "enc_key").length + 1 + i)) +
        1) := by omega
  rw [readEncryption_cut_after_flag m₀ hsealed, List.take_succ_cons, readLabelled_newline,
    readLabelled_whole (reads_string htokens.1) (by decide)]
  dsimp only
  rw [readLabelled_newline, readLabelled_whole (reads_string htokens.2.1) (by decide)]
  dsimp only
  rw [readLabelled_newline, ← List.append_nil (fieldLine (str "enc_key") m.encryptedKeyHex),
    readLabelled_part (reads_string htokens.2.2) (by decide) hpos hle]
  rfl

end Lines

end Sealed

/-! ### The whole text -/

namespace Manifest

/-- The byte where the last chunk id ends, or the count where there is no chunk. -/
def idsEnd (m : Manifest) : Nat := m.header.length + (serializeEntries m.chunks).length

/-- The byte where the last line ends, of an encrypted manifest the key. -/
def lastEnd (m : Manifest) : Nat := m.idsEnd + (serializeEncryption m).length

def SealingUnset (m : Manifest) : Prop :=
  m.encAlgo = [] ∧ m.keyEncAlgo = [] ∧ m.encryptedKeyHex = []

/-- The cut leaves no proper part of the last chunk id and no proper part of the key, and does not
come between the last chunk id and the flag of an encrypted manifest. A plain manifest has nothing
in the fields that its text does not have. -/
structure SafeCut (m : Manifest) (k : Nat) : Prop where
  ids : k < m.idsEnd → k + (lastId m.chunks).length ≤ m.idsEnd
  flag : m.encrypted = true → m.idsEnd ≤ k → m.idsEnd + 12 ≤ k
  key : m.encrypted = true → k < m.lastEnd → k + m.encryptedKeyHex.length ≤ m.lastEnd
  plain : m.encrypted = false → m.idsEnd ≤ k → m.SealingUnset

theorem length_serializeManifest (m : Manifest) : (serializeManifest m).length = m.lastEnd + 1 := by
  rw [serializeManifest_header, lastEnd, idsEnd]
  simp only [List.length_append, List.length_cons]
  omega

theorem unsealed_eq_iff (m : Manifest) :
    m.unsealed m.chunks = m ↔ m.encrypted = false ∧ m.SealingUnset := by
  cases m with
  | mk name size chunkSize chunks encrypted encAlgo keyEncAlgo key =>
      simp only [unsealed, SealingUnset, mk.injEq, true_and]
      constructor
      · rintro ⟨hflag, halgo, hkeyAlgo, hkey⟩
        exact ⟨hflag.symm, halgo.symm, hkeyAlgo.symm, hkey.symm⟩
      · rintro ⟨hflag, halgo, hkeyAlgo, hkey⟩
        exact ⟨hflag.symm, halgo.symm, hkeyAlgo.symm, hkey.symm⟩

end Manifest

/-- The text is refused, or taken for the manifest it was cut from. -/
def NeverOther (m : Manifest) (text : Bytes) : Prop :=
  (∃ e, parseManifestText text = .error e) ∨ parseManifestText text = .ok m

theorem neverOther_iff_of_ok {m m' : Manifest} {text : Bytes}
    (hparse : parseManifestText text = .ok m') : NeverOther m text ↔ m' = m := by
  constructor
  · rintro (⟨e, he⟩ | hsame)
    · rw [hparse] at he
      cases he
    · rw [hparse] at hsame
      exact Except.ok.inj hsame
  · intro hsame
    rw [← hsame]
    exact Or.inr hparse

section Cuts

variable {m : Manifest}

theorem neverOther_cut_ids (hm : m.Whole) {k : Nat} (hk : k < m.idsEnd) :
    NeverOther m ((serializeManifest m).take k) ↔ k + (lastId m.chunks).length ≤ m.idsEnd := by
  by_cases hheader : k < m.header.length
  · have hroom : (lastId m.chunks).length ≤ (serializeEntries m.chunks).length := by
      by_cases hnone : m.chunks = []
      · rw [hnone]
        exact le_rfl
      · exact (length_lastId_lt hnone).le
    apply iff_of_true
    · exact Or.inl (parseManifestText_cut_header hm hheader)
    · exact Nat.add_le_add hheader.le hroom
  obtain ⟨j, rfl⟩ := Nat.exists_eq_add_of_le (Nat.not_lt.mp hheader)
  have hj : j < (serializeEntries m.chunks).length := Nat.lt_of_add_lt_add_left hk
  have hne : m.chunks ≠ [] := by
    intro hnone
    rw [hnone] at hj
    exact Nat.not_lt_zero j hj
  have hread := parseManifestText_cut_body hm j
  rw [Manifest.idsEnd, Nat.add_assoc, Nat.add_le_add_iff_left]
  by_cases hbefore : j + (lastId m.chunks).length ≤ (serializeEntries m.chunks).length
  · obtain ⟨e, he⟩ := @readChunkIds_cut_before (serializeEncryption m) m.chunks hm.ids j hne
      hbefore
    apply iff_of_true _ hbefore
    exact Or.inl ⟨e, by rw [hread, he]; rfl⟩
  · obtain ⟨others, hother, hothers⟩ := @readChunkIds_cut_last (serializeEncryption m) m.chunks
      hm.ids j hj (Nat.not_le.mp hbefore)
    have hparse : parseManifestText ((serializeManifest m).take (m.header.length + j)) =
        .ok (m.unsealed others) := by
      rw [hread, hothers]
      rfl
    rw [neverOther_iff_of_ok hparse]
    apply iff_of_false _ hbefore
    intro hsame
    exact hother (congrArg Manifest.chunks hsame)

/-- From the last chunk id on, the cut is one of the encryption section. -/
theorem parseManifestText_cut_sealing (hm : m.Whole) (j : Nat) :
    parseManifestText ((serializeManifest m).take (m.idsEnd + j)) =
      readEncryption (m.unsealed m.chunks) ⟨(newline :: serializeEncryption m).take j, false⟩ := by
  rw [Manifest.idsEnd, Nat.add_assoc, parseManifestText_cut_body hm,
    readChunkIds_cut_after m.chunks hm.ids]
  rfl

theorem neverOther_cut_plain (hm : m.Whole) (hplain : m.encrypted = false) (j : Nat) :
    NeverOther m ((serializeManifest m).take (m.idsEnd + j)) ↔ m.SealingUnset := by
  have hparse := parseManifestText_cut_sealing hm j
  simp only [serializeEncryption, hplain, Bool.false_eq_true, ↓reduceIte] at hparse
  rw [readEncryption_cut_plain] at hparse
  rw [neverOther_iff_of_ok hparse, m.unsealed_eq_iff]
  exact and_iff_right hplain

theorem neverOther_cut_sealed (hm : m.Whole) (hsealed : m.encrypted = true) {j : Nat}
    (hproper : j ≤ (serializeEncryption m).length) :
    NeverOther m ((serializeManifest m).take (m.idsEnd + j)) ↔
      12 ≤ j ∧ (j < (serializeEncryption m).length →
        j + m.encryptedKeyHex.length ≤ (serializeEncryption m).length) := by
  have hparse := parseManifestText_cut_sealing hm j
  have hkey : 0 < m.encryptedKeyHex.length := List.length_pos_iff.mpr (hm.sealing hsealed).2.2.1
  by_cases hflag : j < 12
  · rw [readEncryption_cut_flag _ hsealed hflag] at hparse
    rw [neverOther_iff_of_ok hparse, m.unsealed_eq_iff, hsealed]
    apply iff_of_false
    · rintro ⟨hplain, -⟩
      cases hplain
    · rintro ⟨hlate, -⟩
      exact Nat.not_lt.mpr hlate hflag
  have hlate := Nat.not_lt.mp hflag
  by_cases hbefore : j + m.encryptedKeyHex.length ≤ (serializeEncryption m).length
  · obtain ⟨e, he⟩ := readEncryption_cut_before_key (m.unsealed m.chunks) hsealed
      (hm.sealing hsealed) hlate hbefore
    apply iff_of_true
    · exact Or.inl ⟨e, by rw [hparse, he]⟩
    · exact ⟨hlate, fun _ => hbefore⟩
  obtain ⟨i, hi⟩ := Nat.exists_eq_add_of_le (Nat.not_le.mp hbefore).le
  rw [readEncryption_cut_key (m.unsealed m.chunks) hsealed (hm.sealing hsealed)
    (show 0 < i by omega) (by omega) hi] at hparse
  rw [neverOther_iff_of_ok hparse]
  constructor
  · intro hsame
    have hlength := congrArg (fun m : Manifest => m.encryptedKeyHex.length) hsame
    simp only [List.length_take] at hlength
    exact ⟨hlate, fun hlt => by omega⟩
  · rintro ⟨-, hwhole⟩
    have hfull : m.encryptedKeyHex.take i = m.encryptedKeyHex := by
      apply List.take_of_length_le
      omega
    rw [hfull]
    cases m
    simp only at hsealed
    simp only [Manifest.unsealed, hsealed]

end Cuts

namespace Manifest

/-- Before the end of the last chunk id the other conditions say nothing. -/
theorem safeCut_iff_ids {m : Manifest} {k : Nat} (hk : k < m.idsEnd) :
    m.SafeCut k ↔ k + (lastId m.chunks).length ≤ m.idsEnd := by
  constructor
  · intro hsafe
    exact hsafe.ids hk
  · intro hearly
    have hnot : ¬ m.idsEnd ≤ k := Nat.not_le.mpr hk
    refine ⟨fun _ => hearly, fun _ h => absurd h hnot, ?_, fun _ h => absurd h hnot⟩
    intro hsealed _
    have hroom := length_serializeEncryption hsealed
    simp only [lastEnd]
    omega

theorem safeCut_iff_plain {m : Manifest} (hplain : m.encrypted = false) (j : Nat) :
    m.SafeCut (m.idsEnd + j) ↔ m.SealingUnset := by
  have hsealed : ¬ m.encrypted = true := by simp [hplain]
  have hlate : m.idsEnd ≤ m.idsEnd + j := Nat.le_add_right _ _
  constructor
  · intro hsafe
    exact hsafe.plain hplain hlate
  · intro hunset
    exact ⟨fun h => absurd hlate (Nat.not_le.mpr h), fun h => absurd h hsealed,
      fun h => absurd h hsealed, fun _ _ => hunset⟩

theorem safeCut_iff_sealed {m : Manifest} (hsealed : m.encrypted = true) (j : Nat) :
    m.SafeCut (m.idsEnd + j) ↔
      12 ≤ j ∧ (j < (serializeEncryption m).length →
        j + m.encryptedKeyHex.length ≤ (serializeEncryption m).length) := by
  have hplain : ¬ m.encrypted = false := by simp [hsealed]
  have hlate : m.idsEnd ≤ m.idsEnd + j := Nat.le_add_right _ _
  constructor
  · intro hsafe
    refine ⟨Nat.le_of_add_le_add_left (hsafe.flag hsealed hlate), ?_⟩
    intro hlt
    have hbefore := hsafe.key hsealed (Nat.add_lt_add_left hlt _)
    simp only [lastEnd] at hbefore
    omega
  · rintro ⟨hflag, hkey⟩
    refine ⟨fun h => absurd hlate (Nat.not_le.mpr h), ?_, ?_, fun h => absurd h hplain⟩
    · intro _ _
      exact Nat.add_le_add_left hflag _
    · intro _ hlt
      have hbefore := hkey (Nat.lt_of_add_lt_add_left hlt)
      simp only [lastEnd]
      omega

end Manifest

/-- **A truncated manifest.** A proper prefix of the text of a manifest is refused or read as the
same manifest, unless the cut leaves a part of the last chunk id or of the key, or comes between the
chunk ids and the flag of an encrypted manifest. -/
theorem truncated_never_other_iff (m : Manifest) (hm : m.Whole) (p : Bytes)
    (hfront : p <+: serializeManifest m) (hproper : p ≠ serializeManifest m) :
    ((∃ e, parseManifestText p = .error e) ∨ parseManifestText p = .ok m) ↔
      m.SafeCut p.length := by
  have htake : p = (serializeManifest m).take p.length := List.prefix_iff_eq_take.mp hfront
  have hlength : p.length ≤ m.lastEnd := by
    have hlt := lt_of_le_of_ne hfront.length_le fun hsame => hproper (hfront.eq_of_length hsame)
    rw [m.length_serializeManifest] at hlt
    exact Nat.le_of_lt_succ hlt
  generalize p.length = k at htake hlength
  subst htake
  show NeverOther m _ ↔ _
  by_cases hids : k < m.idsEnd
  · rw [neverOther_cut_ids hm hids, Manifest.safeCut_iff_ids hids]
  obtain ⟨j, rfl⟩ := Nat.exists_eq_add_of_le (Nat.not_lt.mp hids)
  cases hsealed : m.encrypted with
  | false => rw [neverOther_cut_plain hm hsealed, Manifest.safeCut_iff_plain hsealed]
  | true =>
      rw [neverOther_cut_sealed hm hsealed (Nat.le_of_add_le_add_left hlength),
        Manifest.safeCut_iff_sealed hsealed]

theorem reportManifest_whole : reportManifest.Whole where
  name := by decide
  ids := by decide
  count := by decide
  sealing := by decide

/-- The report cut in the line of the algorithm. -/
theorem truncated_report_refused :
    (∃ e, parseManifestText ((serializeManifest reportManifest).take 70) = .error e) ∨
      parseManifestText ((serializeManifest reportManifest).take 70) = .ok reportManifest := by
  apply (truncated_never_other_iff reportManifest reportManifest_whole _
    (List.take_prefix 70 _) (by decide)).mpr
  exact ⟨by decide, by decide, by decide, fun hplain => absurd hplain (by decide)⟩

def singleManifest : Manifest :=
  { originalName := str "f", originalSize := 1, chunkSize := 1, chunks := [⟨str "ab"⟩] }

theorem singleManifest_whole : singleManifest.Whole where
  name := by decide
  ids := by decide
  count := by decide
  sealing := by decide

/-- Cut after the first byte of its id, the manifest is read as one whose chunk is `a`. -/
theorem truncated_never_other_fails :
    ¬ ∀ m : Manifest, m.Whole → ∀ p, p <+: serializeManifest m → p ≠ serializeManifest m →
      (∃ e, parseManifestText p = .error e) ∨ parseManifestText p = .ok m := by
  intro hall
  have hcut := hall singleManifest singleManifest_whole
    (str "filename f\nsize 1\nchunk_size 1\nchunks 1\na") (by decide) (by decide)
  have hother : parseManifestText (str "filename f\nsize 1\nchunk_size 1\nchunks 1\na") =
      .ok { singleManifest with chunks := [⟨str "a"⟩] } := by decide +kernel
  rw [hother] at hcut
  rcases hcut with ⟨e, he⟩ | hsame
  · cases he
  · exact absurd (Except.ok.inj hsame) (by decide)

end DecentStore
