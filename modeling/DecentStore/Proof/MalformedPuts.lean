import DecentStore.Proof.HarmlessRequests
import DecentStore.Proof.StorePaths

/-!
# Malformed puts

A missing length is a zero, `12abc` is a 12 and `-18446744073709551615` is a 1, and whatever comes
out is taken for the length of the payload. So a `PUT` without a proper length is stored like any
other if that many bytes arrive, unless the store refuses it of itself.
-/

namespace DecentStore

open Bytes Posix FileSystem

namespace PeerService

def IsDecimal (word : Bytes) : Prop := word ≠ [] ∧ ∀ b ∈ word, isDigit b = true

instance (word : Bytes) : Decidable (IsDecimal word) := inferInstanceAs (Decidable (_ ∧ _))

/-- The chunks and manifests, the map with its access order, and the counter are as before. -/
structure Unchanged (s s' : Store) : Prop where
  metaMap : s'.sm.metaMap = s.sm.metaMap
  usedBytes : s'.sm.usedBytes = s.sm.usedBytes
  chunks : ∀ id, s'.fs.read (s'.sm.chunkPath id) = s.fs.read (s.sm.chunkPath id)
  manifests : ∀ id, s'.fs.read (manifestPath s' id) = s.fs.read (manifestPath s id)

theorem Unchanged.refl (s : Store) : Unchanged s s := ⟨rfl, rfl, fun _ => rfl, fun _ => rfl⟩

namespace Request

variable (r : Request)

def IsPut : Prop := r.cmd = str "PUT_CHUNK" ∨ r.cmd = str "PUT_MANIFEST"

instance : Decidable r.IsPut := inferInstanceAs (Decidable (_ ∨ _))

/-- The header line has no decimal number after the id. -/
def Malformed : Prop := ∀ word, r.length = some word → ¬ IsDecimal word

def Incomplete : Prop := ∃ word, r.length = some word ∧ IsDecimal word ∧ r.rest.length < value word

/-- Nothing changes, and the reply is not `OK`. -/
def Rejected (o : Orders) (s : Store) : Prop :=
  (r.reply (managed o) s).1 ≠ .ok ok ∧ Unchanged s (r.reply (managed o) s).2

/-- A chunk that `storeChunk` refuses without a trace: it has no id; or nothing is taken off the
counter for it, and its temporary file cannot be made, or is made where there was none and cannot be
moved to the place of the chunk. -/
def RefusesChunk (s : Store) (id : Bytes) : Prop :=
  id = [] ∨
    (∀ m, s.sm.metaMap.lookup id = some m → m.size = 0 ∨ s.sm.usedBytes = 0) ∧
      ∀ tmp, s.fs.fileAt (s.sm.tmpPath id) = some tmp →
        s.fs.fileAt (s.sm.chunkPath id) = none ∧ s.fs.files.lookup tmp = none

def RefusesManifest (s : Store) (id : Bytes) : Prop := s.fs.fileAt (manifestPath s id) = none

def Refused (s : Store) : Prop :=
  (r.cmd = str "PUT_CHUNK" → RefusesChunk s r.id) ∧
    (r.cmd = str "PUT_MANIFEST" → RefusesManifest s r.id)

/-- There is no buffer for the number that is read, or fewer bytes arrive. -/
def NotTaken : Prop := maxSize < r.size ∨ r.rest.length < r.size

end Request

section Chunks

variable {o : Orders} {s : Store} {id : Bytes}

theorem stores_nil (o : Orders) (s : Store) (data : Bytes) :
    Request.stores (managed o) [] data s = (false, s) := rfl

theorem stores_paths (hne : id ≠ []) (o : Orders) (data : Bytes) (s : Store) :
    (s.fs.fileAt (s.sm.tmpPath id) = none ∧
        Request.stores (managed o) id data s = (false, ⟨s.sm.release id, s.fs⟩)) ∨
      ∃ tmp, s.fs.fileAt (s.sm.tmpPath id) = some tmp ∧
        (s.fs.fileAt (s.sm.chunkPath id) = none ∧
            Request.stores (managed o) id data s = (false, ⟨s.sm.release id,
              { s.fs with files := (s.fs.files.insert tmp data).erase tmp }⟩) ∨
          s.fs.fileAt (s.sm.chunkPath id) ≠ none ∧
            (Request.stores (managed o) id data s).1 = true) := by
  have hrun := StorageManager.run_storeChunk_paths o s.sm id hne data s.fs
  unfold Request.stores managed onStore
  simp only [Interaction.Prog.run_bind, hrun]
  cases s.fs.fileAt (s.sm.tmpPath id) with
  | none => exact Or.inl ⟨rfl, rfl⟩
  | some tmp =>
      refine Or.inr ⟨tmp, rfl, ?_⟩
      cases s.fs.fileAt (s.sm.chunkPath id) with
      | none => exact Or.inl ⟨rfl, rfl⟩
      | some target =>
          obtain ⟨fs', hlimit⟩ := StorageManager.run_enforceLimit FileSystem.handle o
            (s.sm.stored id data)
            { s.fs with files := StorageManager.written s.fs.files tmp target data }
          simp only [hlimit]
          exact Or.inr ⟨by simp, rfl⟩

theorem unchanged_of_files {s : Store} {sm : StorageManager} {files : AList fun _ : Path => Bytes}
    (hmap : sm.metaMap = s.sm.metaMap) (hused : sm.usedBytes = s.sm.usedBytes)
    (hbase : sm.baseDir = s.sm.baseDir)
    (hfiles : ∀ path, files.lookup path = s.fs.files.lookup path) :
    Unchanged s ⟨sm, { s.fs with files := files }⟩ where
  metaMap := hmap
  usedBytes := hused
  chunks id := by
    have hpath : sm.chunkPath id = s.sm.chunkPath id := by
      simp only [StorageManager.chunkPath, StorageManager.chunksDir, hbase]
    rw [hpath]
    exact read_congr fun path _ => hfiles path
  manifests id := by
    have hpath : manifestPath ⟨sm, { s.fs with files := files }⟩ id = manifestPath s id := by
      simp only [manifestPath, hbase]
    rw [hpath]
    exact read_congr fun path _ => hfiles path

theorem stores_refused_iff (o : Orders) (s : Store) (id data : Bytes) :
    (Request.stores (managed o) id data s).1 = false ∧
        Unchanged s (Request.stores (managed o) id data s).2 ↔
      Request.RefusesChunk s id := by
  unfold Request.RefusesChunk
  by_cases hne : id = []
  · subst hne
    rw [stores_nil]
    exact ⟨fun _ => Or.inl rfl, fun _ => ⟨rfl, Unchanged.refl s⟩⟩
  have hmap := StorageManager.metaMap_release s.sm id
  have hbase := StorageManager.baseDir_release s.sm id
  rw [or_iff_right hne, ← StorageManager.usedBytes_release_eq_iff]
  rcases stores_paths hne o data s with ⟨htmp, hstores⟩ | ⟨tmp, htmp, hrest⟩
  · rw [hstores]
    simp only [htmp, reduceCtorEq, false_implies, implies_true, and_true, true_and]
    exact ⟨fun unchanged => unchanged.usedBytes,
      fun hused => unchanged_of_files hmap hused hbase fun _ => rfl⟩
  rcases hrest with ⟨htarget, hstores⟩ | ⟨htarget, hstores⟩
  · rw [hstores]
    simp only [htmp, htarget, Option.some.injEq, forall_eq', true_and]
    constructor
    · intro unchanged
      have hpath : ∀ other, (s.sm.release id).chunkPath other = s.sm.chunkPath other := by
        simp only [StorageManager.chunkPath, StorageManager.chunksDir, hbase, implies_true]
      refine ⟨unchanged.usedBytes, (StorageManager.read_abandoned_iff htmp data).mp fun other => ?_⟩
      exact (congrArg _ (hpath other).symm).trans (unchanged.chunks other)
    · rintro ⟨hused, hnone⟩
      exact unchanged_of_files hmap hused hbase fun path =>
        StorageManager.lookup_abandoned_of_none hnone data path
  · rw [hstores]
    simp only [Bool.true_eq_false, false_and, false_iff, not_and]
    intro _ hall
    exact htarget (hall tmp htmp).1

end Chunks

theorem writeManifest_refused_iff (o : Orders) (s : Store) (id data : Bytes) :
    ((managed o).writeManifest id data s).1 = false ∧
        Unchanged s ((managed o).writeManifest id data s).2 ↔
      Request.RefusesManifest s id := by
  unfold Request.RefusesManifest
  simp only [managed]
  rw [truncate_eq]
  cases hpath : s.fs.fileAt (manifestPath s id) with
  | none => exact ⟨fun _ => rfl, fun _ => ⟨rfl, Unchanged.refl s⟩⟩
  | some path => simp

namespace Request

variable {r : Request} {o : Orders} {s : Store}

theorem putReply_rejected {put : Bytes → Store → Bool × Store} {data : Bytes}
    (hpayload : r.payload = .ok (some data)) :
    ((r.putReply put s).1 ≠ .ok ok ∧ Unchanged s (r.putReply put s).2) ↔
      (put data s).1 = false ∧ Unchanged s (put data s).2 := by
  have herr : err ≠ ok := by decide
  simp only [putReply, hpayload]
  cases (put data s).1 with
  | false => simp [herr]
  | true => simp

theorem reply_put (hput : r.IsPut) :
    ∃ put, r.reply (managed o) s = r.putReply put s ∧ ∀ data,
      (((put data s).1 = false ∧ Unchanged s (put data s).2) ↔ r.Refused s) := by
  rcases hput with hcmd | hcmd
  · have hother : r.cmd ≠ str "PUT_MANIFEST" := by rw [hcmd]; decide
    refine ⟨stores (managed o) r.id, reply_putChunk _ hcmd, fun data => ?_⟩
    rw [stores_refused_iff]
    exact ⟨fun h => ⟨fun _ => h, fun hmanifest => absurd hmanifest hother⟩, fun h => h.1 hcmd⟩
  · have hother : r.cmd ≠ str "PUT_CHUNK" := by rw [hcmd]; decide
    refine ⟨(managed o).writeManifest r.id, reply_putManifest _ hcmd, fun data => ?_⟩
    rw [writeManifest_refused_iff]
    exact ⟨fun h => ⟨fun hchunk => absurd hchunk hother, fun _ => h⟩, fun h => h.2 hcmd⟩

/-- A payload is not taken: nothing happens, and the reply is `ERR` or none. -/
theorem rejected_of_notTaken (hput : r.IsPut) (hnot : r.NotTaken) : r.Rejected o s := by
  obtain ⟨put, hreply, -⟩ := @reply_put r o s hput
  have herr : err ≠ ok := by decide
  unfold Rejected
  rw [hreply, putReply, payload]
  by_cases hlarge : maxSize < r.size
  · rw [allocate_error _ fun hsize => Nat.not_lt.mpr hsize.1 hlarge]
    exact ⟨by simp [Bind.bind, Except.bind], Unchanged.refl s⟩
  · rw [allocate_ok _ (allocates_ample.mpr (Nat.not_lt.mp hlarge)),
      if_neg (Nat.not_le.mpr (hnot.resolve_left hlarge))]
    exact ⟨by simp [Bind.bind, Except.bind, herr], Unchanged.refl s⟩

theorem rejected_iff (hput : r.IsPut) : r.Rejected o s ↔ r.NotTaken ∨ r.Refused s := by
  by_cases hnot : r.NotTaken
  · exact ⟨fun _ => Or.inl hnot, fun _ => rejected_of_notTaken hput hnot⟩
  obtain ⟨hsmall, hall⟩ := not_or.mp hnot
  obtain ⟨put, hreply, hrefused⟩ := @reply_put r o s hput
  have hpayload : r.payload = .ok (some (r.rest.take r.size)) := by
    rw [payload, allocate_ok _ (allocates_ample.mpr (Nat.not_lt.mp hsmall)),
      if_pos (Nat.not_lt.mp hall)]
    rfl
  unfold Rejected
  rw [hreply, putReply_rejected hpayload, hrefused, or_iff_right hnot]

theorem numberOf_isDecimal {word : Bytes} (hword : IsDecimal word) :
    (numberOf word).toNat = if 2 ^ 64 ≤ value word then 2 ^ 64 - 1 else value word := by
  obtain ⟨b, bs, rfl⟩ := List.exists_cons_of_ne_nil hword.1
  have hsign := splitSign_of_isDigit (hword.2 b List.mem_cons_self) bs
  have hdigits : (b :: bs).takeWhile isDigit = b :: bs :=
    List.takeWhile_eq_self_iff.mpr hword.2
  simp only [numberOf, hsign, hdigits, reduceCtorEq, ↓reduceIte, Bool.false_eq_true]
  split
  · rfl
  · rename_i hsmall
    exact UInt64.toNat_ofNat_of_lt' (Nat.not_le.mp hsmall)

/-- A number that is too large for its type is too large for a buffer. -/
theorem notTaken_of_incomplete (hincomplete : r.Incomplete) : r.NotTaken := by
  obtain ⟨word, hlength, hword, hshort⟩ := hincomplete
  have hsize : r.size = if 2 ^ 64 ≤ value word then 2 ^ 64 - 1 else value word := by
    rw [size, hlength, Option.map_some, Option.getD_some, numberOf_isDecimal hword]
  unfold NotTaken
  rw [hsize]
  split
  · exact Or.inl (by decide)
  · exact Or.inr hshort

end Request

/-- **Which malformed puts change nothing.** An incomplete one never changes anything. One without
a decimal length is rejected exactly if fewer bytes arrive than are made of its length, or the store
itself refuses it. -/
theorem malformed_puts_rejected_iff (o : Orders) (s : Store) (sock : Socket) {r : Request}
    (hrequest : Request.ofBytes sock.bytes = some r) (hput : r.IsPut) :
    (r.Malformed ∨ r.Incomplete → (serve (managed o) sock s).1 ≠ .ok ok ∧
        Unchanged s (serve (managed o) sock s).2) ↔
      ¬ r.Malformed ∨ r.NotTaken ∨ r.Refused s := by
  have hserve : serve (managed o) sock s = r.reply (managed o) s := by
    rw [serve_eq, hrequest]
  have hrejected := @Request.rejected_iff r o s hput
  rw [Request.Rejected] at hrejected
  rw [hserve, hrejected]
  constructor
  · intro himplies
    by_cases hmalformed : r.Malformed
    · exact Or.inr (himplies (Or.inl hmalformed))
    · exact Or.inl hmalformed
  · rintro (hproper | hrejected) (hmalformed | hincomplete)
    · exact absurd hmalformed hproper
    · exact Or.inl (Request.notTaken_of_incomplete hincomplete)
    · exact hrejected
    · exact hrejected

/-- Three bytes where five are declared. -/
theorem short_put_rejected :
    (serve (managed default) (Service.bringing (str "PUT_CHUNK x 5\nabc"))
        Service.newService.store).1 ≠ .ok ok ∧
      Unchanged Service.newService.store (serve (managed default)
        (Service.bringing (str "PUT_CHUNK x 5\nabc")) Service.newService.store).2 := by
  have hrequest : Request.ofBytes (str "PUT_CHUNK x 5\nabc") =
      some ⟨str "PUT_CHUNK", str "x", some (str "5"), str "abc"⟩ := by decide +kernel
  have hproper : ¬ Request.Malformed ⟨str "PUT_CHUNK", str "x", some (str "5"), str "abc"⟩ :=
    fun hmalformed => hmalformed _ rfl (by decide)
  exact (malformed_puts_rejected_iff default Service.newService.store
    (Service.bringing (str "PUT_CHUNK x 5\nabc")) hrequest (Or.inl rfl)).mpr (Or.inl hproper)
    (Or.inr ⟨_, rfl, by decide, by decide⟩)

def peerWithX : Store :=
  (Service.newService.turn default (Service.bringing (str "PUT_CHUNK x 4\ndata"))).store

/-- A put without a length overwrites the chunk with nothing. -/
theorem missing_length_overwrites :
    ¬ ∀ (o : Orders) (s : Store) (sock : Socket) (r : Request),
      Request.ofBytes sock.bytes = some r → r.IsPut → r.Malformed ∨ r.Incomplete →
        (serve (managed o) sock s).1 ≠ .ok ok ∧ Unchanged s (serve (managed o) sock s).2 := by
  intro hall
  have hrequest : Request.ofBytes (str "PUT_CHUNK x\n") =
      some ⟨str "PUT_CHUNK", str "x", none, []⟩ := by decide +kernel
  have hrejected := hall default peerWithX (Service.bringing (str "PUT_CHUNK x\n")) _ hrequest
    (Or.inl rfl) (Or.inl fun word hword => by cases hword)
  exact absurd (hrejected.2.chunks (str "x")) (by decide +kernel)

end PeerService

end DecentStore
