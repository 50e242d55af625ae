import DecentStore.Manifest

/-!
# The manifest codec

The reader takes tokens, so the text reads back exactly when no field holds a blank. The only field
the upload does not control is the file name, and that is the whole condition: a manifest of the
kind `putFile` builds is recovered if and only if its name has no whitespace.

The reader is followed section by section. Each section leaves the newline of its last line unread,
and the next one skips it.
-/

namespace DecentStore

open Bytes

theorem fieldLine_append (label field rest : Bytes) :
    fieldLine label field ++ rest = label ++ 32 :: (field ++ newline :: rest) := by
  simp [fieldLine, str_space, str_newline]

section Sections

variable {α : Type} {get : IStream → α → α × IStream} {old value : α} {label text rest : Bytes}

theorem readLabelled_newline (expected : Bytes) :
    readLabelled get old expected ⟨newline :: text, false⟩ =
      readLabelled get old expected ⟨text, false⟩ := by
  unfold readLabelled
  rw [IStream.getString_space isSpace_newline]

theorem readLabelled_fieldLine (hlabel : Token label) (field : Bytes)
    (hget : get ⟨32 :: (field ++ newline :: rest), false⟩ old = (value, ⟨newline :: rest, false⟩)) :
    readLabelled get old label ⟨fieldLine label field ++ rest, false⟩ =
      .ok (value, ⟨newline :: rest, false⟩) := by
  have hbreak : IStream.AtBreak (32 :: (field ++ newline :: rest)) :=
    IStream.atBreak_cons (by decide) _
  unfold readLabelled
  rw [fieldLine_append, IStream.getString_token hlabel hbreak]
  simp [hget]

theorem readLabelled_string (hlabel : Token label) {field : Bytes} (hfield : Token field)
    (old : Bytes) :
    readLabelled IStream.getString old label ⟨fieldLine label field ++ rest, false⟩ =
      .ok (field, ⟨newline :: rest, false⟩) := by
  refine readLabelled_fieldLine hlabel field ?_
  rw [IStream.getString_space (by decide)]
  exact IStream.getString_token hfield (IStream.atBreak_cons isSpace_newline _) old

theorem readLabelled_uint64 (hlabel : Token label) (n old : UInt64) :
    readLabelled IStream.getUInt64 old label ⟨fieldLine label (decimal n.toNat) ++ rest, false⟩ =
      .ok (n, ⟨newline :: rest, false⟩) := by
  refine readLabelled_fieldLine hlabel _ ?_
  rw [IStream.getUInt64_space (by decide)]
  exact IStream.getUInt64_decimal n (IStream.atBreak_cons isSpace_newline _) old

end Sections

theorem serializeEntries_cons (e : ManifestEntry) (chunks : List ManifestEntry) (rest : Bytes) :
    serializeEntries (e :: chunks) ++ rest =
      e.chunkId ++ newline :: (serializeEntries chunks ++ rest) := by
  simp [serializeEntries, str_newline]

theorem readChunkIds_serializeEntries (rest : Bytes) (chunks : List ManifestEntry)
    (hids : ∀ e ∈ chunks, Token e.chunkId) :
    readChunkIds chunks.length ⟨newline :: (serializeEntries chunks ++ rest), false⟩ =
      .ok (chunks, ⟨newline :: rest, false⟩) := by
  induction chunks with
  | nil => rfl
  | cons e chunks ih =>
      have hid := IStream.getString_token (hids e List.mem_cons_self)
        (IStream.atBreak_cons isSpace_newline (serializeEntries chunks ++ rest)) []
      rw [List.length_cons, readChunkIds, IStream.getString_space isSpace_newline,
        serializeEntries_cons, hid]
      simp [ih fun x hx => hids x (List.mem_cons_of_mem e hx), Bind.bind, Except.bind]

/-- Up to the encryption section a text with whole fields reads back, whatever follows. -/
theorem parseManifestText_serializeManifest {m : Manifest} (hname : Token m.originalName)
    (hids : ∀ e ∈ m.chunks, Token e.chunkId) (hcount : m.chunks.length ≤ maxEntries) :
    parseManifestText (serializeManifest m) =
      readEncryption
        { originalName := m.originalName, originalSize := m.originalSize, chunkSize := m.chunkSize
          chunks := m.chunks } ⟨newline :: serializeEncryption m, false⟩ := by
  have hlt : m.chunks.length < 2 ^ 64 :=
    lt_of_le_of_lt hcount (by decide)
  have hlength : (UInt64.ofNat m.chunks.length).toNat = m.chunks.length :=
    UInt64.toNat_ofNat_of_lt' hlt
  unfold parseManifestText serializeManifest
  simp only [List.append_assoc]
  rw [readLabelled_string (by decide) hname]
  simp only [Bind.bind, Except.bind]
  rw [readLabelled_newline, readLabelled_uint64 (by decide)]
  simp only
  rw [readLabelled_newline, readLabelled_uint64 (by decide)]
  simp only
  rw [readLabelled_newline, ← hlength, readLabelled_uint64 (by decide)]
  simp only [hlength, Nat.not_lt.mpr hcount, ↓reduceIte]
  rw [readChunkIds_serializeEntries _ _ hids]

theorem readEncryption_plain (m : Manifest) :
    readEncryption m ⟨newline :: fieldLine (str "encrypted") (str "0"), false⟩ = .ok m := by
  have hlabel := @IStream.getString_token (str "encrypted") (32 :: str "0\n") (by decide)
    (IStream.atBreak_cons (by decide) _) []
  have htext : fieldLine (str "encrypted") (str "0") = str "encrypted" ++ 32 :: str "0\n" := by
    decide
  unfold readEncryption
  rw [IStream.getString_space isSpace_newline, htext, hlabel]
  have hflag : IStream.getInt ⟨32 :: str "0\n", false⟩ 0 = (0, ⟨str "\n", false⟩) := by decide
  simp [hflag]

theorem getInt_one {rest : Bytes} (hbreak : IStream.AtBreak rest) :
    IStream.getInt ⟨32 :: (str "1" ++ rest), false⟩ 0 = (1, ⟨rest, false⟩) := by
  have hone : str "1" = decimal 1 := by decide
  rw [IStream.getInt_space (by decide), hone]
  exact IStream.getInt_decimal (by decide) hbreak 0

theorem readEncryption_flag (m : Manifest) {rest : Bytes} (hbreak : IStream.AtBreak rest) :
    readEncryption m ⟨newline :: (str "encrypted" ++ 32 :: (str "1" ++ rest)), false⟩ = (do
      let (encAlgo, is) ← readLabelled IStream.getString [] (str "enc_algo") ⟨rest, false⟩
      let (keyEncAlgo, is) ← readLabelled IStream.getString [] (str "key_enc_algo") is
      let (encryptedKeyHex, _) ← readLabelled IStream.getString [] (str "enc_key") is
      .ok { m with
        encrypted := true, encAlgo := encAlgo, keyEncAlgo := keyEncAlgo
        encryptedKeyHex := encryptedKeyHex }) := by
  unfold readEncryption
  rw [IStream.getString_space isSpace_newline,
    IStream.getString_token (by decide) (IStream.atBreak_cons (by decide) _)]
  simp only [getInt_one hbreak, and_self, ↓reduceIte]

theorem readEncryption_encrypted (m : Manifest) {algo keyAlgo key : Bytes} (halgo : Token algo)
    (hkeyAlgo : Token keyAlgo) (hkey : Token key) :
    readEncryption m ⟨newline :: (fieldLine (str "encrypted") (str "1") ++
        fieldLine (str "enc_algo") algo ++ fieldLine (str "key_enc_algo") keyAlgo ++
        fieldLine (str "enc_key") key), false⟩ =
      .ok { m with
        encrypted := true, encAlgo := algo, keyEncAlgo := keyAlgo, encryptedKeyHex := key } := by
  simp only [List.append_assoc]
  rw [fieldLine_append, readEncryption_flag m (IStream.atBreak_cons isSpace_newline _),
    readLabelled_newline, readLabelled_string (by decide) halgo]
  simp only [Bind.bind, Except.bind]
  rw [readLabelled_newline, readLabelled_string (by decide) hkeyAlgo]
  simp only
  rw [readLabelled_newline, ← List.append_nil (fieldLine (str "enc_key") key),
    readLabelled_string (by decide) hkey]

theorem readEncryption_frame {m m' : Manifest} {is : IStream}
    (hread : readEncryption m is = .ok m') :
    m'.originalName = m.originalName ∧ m'.originalSize = m.originalSize ∧
      m'.chunkSize = m.chunkSize ∧ m'.chunks = m.chunks := by
  unfold readEncryption at hread
  simp only [Bind.bind, Except.bind] at hread
  split at hread
  · split at hread
    · simp at hread
    split at hread
    · simp at hread
    split at hread
    · simp at hread
    cases hread
    exact ⟨rfl, rfl, rfl, rfl⟩
  · cases hread
    exact ⟨rfl, rfl, rfl, rfl⟩

/-- A string field that was read is a token, or empty on an unusable stream. -/
theorem readLabelled_unspaced {expected field : Bytes} {is is' : IStream}
    (hread : readLabelled IStream.getString [] expected is = .ok (field, is')) :
    ∀ b ∈ field, isSpace b = false := by
  rcases hlabel : is.getString [] with ⟨label, is₁⟩
  rcases hfield : is₁.getString [] with ⟨value, is₂⟩
  have hfst := IStream.getString_fst is₁ []
  simp only [readLabelled, hlabel, hfield] at hread hfst
  split at hread
  · simp at hread
  · cases hread
    rcases hfst with hempty | htoken
    · simp [hempty]
    · exact htoken

theorem parseManifestText_originalName {text : Bytes} {m : Manifest}
    (hparse : parseManifestText text = .ok m) : ∀ b ∈ m.originalName, isSpace b = false := by
  unfold parseManifestText at hparse
  cases hfield : readLabelled IStream.getString [] (str "filename") ⟨text, false⟩ with
  | error e => simp [hfield, Bind.bind, Except.bind] at hparse
  | ok field =>
      obtain ⟨name, is⟩ := field
      suffices hkeep : m.originalName = name by
        rw [hkeep]
        exact readLabelled_unspaced hfield
      simp only [hfield, Bind.bind, Except.bind] at hparse
      -- the later sections either throw or go on with the name that was read
      split at hparse
      · simp at hparse
      split at hparse
      · simp at hparse
      split at hparse
      · simp at hparse
      split at hparse
      · simp at hparse
      split at hparse
      · simp at hparse
      exact (readEncryption_frame hparse).1

namespace Manifest

/-- The encryption fields are either all unset or set with a non-empty hex key. -/
def EncryptionWhole (m : Manifest) : Prop :=
  (m.encrypted = false ∧ m.encAlgo = [] ∧ m.keyEncAlgo = [] ∧ m.encryptedKeyHex = []) ∨
    (m.encrypted = true ∧ m.encAlgo = str "AES-256-GCM" ∧ m.keyEncAlgo = str "RSA" ∧
      m.encryptedKeyHex ≠ [] ∧ ∀ b ∈ m.encryptedKeyHex, IsHexDigit b)

/-- What `putFile` can build: a file name, hashes for chunk ids in a vector, and whole encryption
fields. -/
structure Buildable (m : Manifest) : Prop where
  name_ne_nil : m.originalName ≠ []
  name_chars : ∀ b ∈ m.originalName, b ≠ 47 ∧ b ≠ 0
  ids : ∀ e ∈ m.chunks, IsHashHex e.chunkId
  count : m.chunks.length ≤ maxEntries
  encryption : m.EncryptionWhole

theorem EncryptionWhole.readEncryption_eq {m : Manifest} (hm : m.EncryptionWhole) :
    readEncryption
      { originalName := m.originalName, originalSize := m.originalSize, chunkSize := m.chunkSize
        chunks := m.chunks } ⟨newline :: serializeEncryption m, false⟩ = .ok m := by
  cases m with
  | mk name size chunkSize chunks encrypted encAlgo keyEncAlgo key =>
      rcases hm with ⟨hflag, halgo, hkeyAlgo, hkey⟩ | ⟨hflag, halgo, hkeyAlgo, hne, hhex⟩
      · simp only at hflag halgo hkeyAlgo hkey
        subst hflag halgo hkeyAlgo hkey
        exact readEncryption_plain _
      · simp only at hflag halgo hkeyAlgo hne hhex
        subst hflag halgo hkeyAlgo
        have halgo : Token (str "AES-256-GCM") := by decide
        have hkeyAlgo : Token (str "RSA") := by decide
        exact readEncryption_encrypted _ halgo hkeyAlgo
          ⟨hne, fun b hb => (isHexDigit_class (hhex b hb)).1⟩

end Manifest

/-- **The codec round trip.** A manifest `putFile` can build is read back from its text exactly when
its file name contains no whitespace. -/
theorem parse_serialize_iff_name_unspaced (m : Manifest) (hm : m.Buildable) :
    parseManifestText (serializeManifest m) = .ok m ↔ ∀ b ∈ m.originalName, isSpace b = false := by
  constructor
  · exact parseManifestText_originalName
  · intro hname
    rw [parseManifestText_serializeManifest ⟨hm.name_ne_nil, hname⟩
      (fun e he => (hm.ids e he).token) hm.count]
    exact hm.encryption.readEncryption_eq

def reportManifest : Manifest :=
  { originalName := str "report.txt", originalSize := 3, chunkSize := 2, encrypted := true
    encAlgo := str "AES-256-GCM", keyEncAlgo := str "RSA", encryptedKeyHex := str "5f0a" }

theorem reportManifest_buildable : reportManifest.Buildable where
  name_ne_nil := by decide
  name_chars := by decide
  ids := by decide
  count := by decide
  encryption := Or.inr (by decide)

theorem parse_serialize_report :
    parseManifestText (serializeManifest reportManifest) = .ok reportManifest :=
  (parse_serialize_iff_name_unspaced reportManifest reportManifest_buildable).mpr (by decide)

def spacedManifest : Manifest := { originalName := str "a b", chunkSize := 1 }

theorem spacedManifest_buildable : spacedManifest.Buildable where
  name_ne_nil := by decide
  name_chars := by decide
  ids := by decide
  count := by decide
  encryption := Or.inl (by decide)

/-- The name `a b` leaves `b` where the reader expects a label. -/
theorem parse_serialize_spaced_fails :
    ¬ ∀ m : Manifest, m.Buildable → parseManifestText (serializeManifest m) = .ok m := by
  intro hall
  have hread := hall spacedManifest spacedManifest_buildable
  exact absurd hread (by decide +kernel)

end DecentStore
