import DecentStore.Proof.ServedBytes
import DecentStore.Proof.StoreLayout

/-!
# Requests that stop a peer

The buffer of a `PUT` is allocated outside any `try`, from a number the client wrote, and so is the
string of a `GET_MANIFEST`, from the size the file system reports. A size that cannot be allocated
throws out of the loop and ends the service; everything else, however malformed, is answered or
dropped.
-/

namespace DecentStore

open Bytes Posix

namespace PeerService

section Bounded

variable [Memory]

/-- What the word of a length denotes is the size of some buffer. Without digits it denotes zero;
a minus sign negates modulo `2 ^ 64`, so numbers just below `2 ^ 64` become small. -/
def LengthFits (word : Bytes) : Prop :=
  let (negative, body) := splitSign word
  let n := value (body.takeWhile isDigit)
  if negative then n = 0 ∨ 2 ^ 63 < n ∧ n < 2 ^ 64 ∧ Memory.holds (2 ^ 64 - n) = true
  else n < 2 ^ 63 ∧ Memory.holds n = true

instance (word : Bytes) : Decidable (LengthFits word) :=
  inferInstanceAs (Decidable (ite _ _ _))

theorem holds_zero : Memory.holds 0 = true :=
  Memory.holds_of_le (Nat.zero_le 16) Memory.holds_small

theorem allocates_numberOf_iff (word : Bytes) :
    Allocates maxSize (numberOf word).toNat ↔ LengthFits word := by
  unfold Allocates numberOf LengthFits
  rw [Nat.sub_self, Nat.add_zero]
  rcases splitSign word with ⟨negative, body⟩
  simp only
  generalize hdigits : body.takeWhile isDigit = digits
  by_cases hnil : digits = []
  · subst hnil
    cases negative <;> simp [value, holds_zero]
  rw [if_neg hnil]
  by_cases hlarge : 2 ^ 64 ≤ value digits
  · have hmost : (UInt64.ofNat (2 ^ 64 - 1)).toNat = 2 ^ 64 - 1 := by decide
    have hnot : ¬ 2 ^ 64 - 1 ≤ maxSize := by decide
    rw [if_pos hlarge, hmost]
    split <;> simp only [hnot, false_and, false_iff] <;> omega
  · have hvalue : (UInt64.ofNat (value digits)).toNat = value digits :=
      UInt64.toNat_ofNat_of_lt' (Nat.not_le.mp hlarge)
    rw [if_neg hlarge]
    cases negative with
    | false =>
        simp only [Bool.false_eq_true, ↓reduceIte, hvalue]
        exact and_congr_left' Nat.lt_succ_iff.symm
    | true =>
        simp only [↓reduceIte, UInt64.toNat_sub, hvalue]
        by_cases hzero : value digits = 0
        · simp [hzero, holds_zero]
        · have hnegated : (2 ^ 64 - value digits + (0 : UInt64).toNat) % 2 ^ 64 =
              2 ^ 64 - value digits := by
            rw [UInt64.toNat_zero]
            omega
          have hmax : 2 ^ 64 - value digits ≤ maxSize ↔ 2 ^ 63 < value digits := by
            unfold maxSize
            omega
          have hlt : value digits < 2 ^ 64 := Nat.not_le.mp hlarge
          rw [hnegated, hmax, or_iff_right hzero]
          exact and_congr_right' (and_iff_right hlt).symm

/-- The string for what is opened can be had. No size that can be had is that of a file without an
end to seek. -/
def TextFits : Opened → Prop
  | .absent => True
  | .file text => Memory.holds (text.length + 1) = true
  | .directory size => Allocates (maxSize - 1) size
  | .unseekable _ => False

/-- The loop survives the request: a buffer can be had for the length of a `PUT`, and a string for
what a `GET_MANIFEST` opens. -/
structure Request.Harmless (r : Request) (s : Store) : Prop where
  put : r.cmd = str "PUT_CHUNK" ∨ r.cmd = str "PUT_MANIFEST" →
    ∀ word, r.length = some word → LengthFits word
  get : r.cmd = str "GET_MANIFEST" → TextFits (s.fs.read (manifestPath s r.id))

def Harmless (s : Store) (sock : Socket) : Prop :=
  ∀ r, Request.ofBytes sock.bytes = some r → r.Harmless s

namespace Request

variable (r : Request)

theorem allocates_size_iff :
    Allocates maxSize r.size ↔ ∀ word, r.length = some word → LengthFits word := by
  unfold size
  cases r.length with
  | none => simp [Allocates, holds_zero]
  | some word => simpa using allocates_numberOf_iff word

theorem isOk_payload : r.payload.isOk ↔ ∀ word, r.length = some word → LengthFits word := by
  rw [← allocates_size_iff, payload]
  by_cases hsize : Allocates maxSize r.size
  · rw [allocate_ok _ hsize]
    exact iff_of_true rfl hsize
  · rw [allocate_error _ hsize]
    exact iff_of_false Bool.false_ne_true hsize

theorem isOk_putReply {σ : Type} (put : Bytes → σ → Bool × σ) (s : σ) :
    (r.putReply put s).1.isOk ↔ ∀ word, r.length = some word → LengthFits word := by
  rw [← isOk_payload, putReply]
  rcases r.payload with e | (_ | data) <;> simp [Except.isOk, Except.toBool]

theorem isOk_getManifest (o : Orders) (s : Store) (id : Bytes) :
    (getReply ((managed o).readManifest id s)).isOk ↔
      TextFits (s.fs.read (manifestPath s id)) := by
  have hone : maxSize - (maxSize - 1) = 1 := by decide
  simp only [managed]
  rcases s.fs.read (manifestPath s id) with _ | text | size | text
  · exact iff_of_true rfl trivial
  · simp only [StorageManager.fileBuffer, TextFits, hone]
    by_cases hholds : Memory.holds (text.length + 1) = true
    · rw [if_pos hholds]
      exact iff_of_true rfl hholds
    · rw [if_neg hholds]
      exact iff_of_false Bool.false_ne_true hholds
  · simp only [StorageManager.fileBuffer, TextFits]
    by_cases hsize : Allocates (maxSize - 1) size
    · rw [allocate_ok _ hsize]
      exact iff_of_true rfl hsize
    · rw [allocate_error _ hsize]
      exact iff_of_false Bool.false_ne_true hsize
  · exact iff_of_false Bool.false_ne_true fun hfits => hfits

variable {r}

theorem harmless_put {s : Store} (hcmd : r.cmd = str "PUT_CHUNK" ∨ r.cmd = str "PUT_MANIFEST") :
    r.Harmless s ↔ ∀ word, r.length = some word → LengthFits word := by
  have hother : r.cmd ≠ str "GET_MANIFEST" := by
    rcases hcmd with hcmd | hcmd <;> rw [hcmd] <;> decide
  exact ⟨fun harmless => harmless.put hcmd, fun hfits => ⟨fun _ => hfits, fun h => absurd h hother⟩⟩

theorem harmless_get {s : Store} (hcmd : r.cmd = str "GET_MANIFEST") :
    r.Harmless s ↔ TextFits (s.fs.read (manifestPath s r.id)) := by
  have hother : ¬ (r.cmd = str "PUT_CHUNK" ∨ r.cmd = str "PUT_MANIFEST") := by
    rw [hcmd]
    decide
  exact ⟨fun harmless => harmless.get hcmd, fun hfits => ⟨fun h => absurd h hother, fun _ => hfits⟩⟩

/-- The loop survives exactly the harmless requests. -/
theorem isOk_reply_iff (r : Request) (o : Orders) (s : Store) :
    (r.reply (managed o) s).1.isOk ↔ r.Harmless s := by
  by_cases hputChunk : r.cmd = str "PUT_CHUNK"
  · rw [reply_putChunk _ hputChunk, isOk_putReply, harmless_put (Or.inl hputChunk)]
  by_cases hputManifest : r.cmd = str "PUT_MANIFEST"
  · rw [reply_putManifest _ hputManifest, isOk_putReply, harmless_put (Or.inr hputManifest)]
  by_cases hgetManifest : r.cmd = str "GET_MANIFEST"
  · rw [reply_getManifest _ hgetManifest, isOk_getManifest, harmless_get hgetManifest]
  have harmless : r.Harmless s :=
    ⟨fun h => absurd h (not_or.mpr ⟨hputChunk, hputManifest⟩), fun h => absurd h hgetManifest⟩
  simp only [reply, hputChunk, hputManifest, hgetManifest, ↓reduceIte, harmless, iff_true]
  split_ifs
  · rcases ((managed o).loadChunk r.id s).1.toOption with _ | data <;> rfl
  · rfl
  · rfl
  · rfl
  · rfl
  · rfl

end Request

theorem isOk_serve_iff (o : Orders) (s : Store) (sock : Socket) :
    (serve (managed o) sock s).1.isOk ↔ Harmless s sock := by
  rw [serve_eq]
  unfold Harmless
  cases Request.ofBytes sock.bytes with
  | none => simp [Except.isOk, Except.toBool]
  | some r => simpa using r.isOk_reply_iff o s

namespace Service

theorem running_turn {p : Service} (hrunning : p.running = true) (o : Orders) (sock : Socket) :
    (p.turn o sock).running = true ↔ Harmless p.store sock := by
  rw [← isOk_serve_iff o, turn, if_pos hrunning]
  rcases serve (managed o) sock p.store with ⟨_ | _, s⟩ <;> simp [Except.isOk, Except.toBool]

/-- **A peer stays up exactly as long as its requests are harmless.** -/
theorem running_while_harmless (o₀ : Orders) (storageDir : Bytes) (maxBytes : UInt64)
    (fs : FileSystem) {p : Service}
    (hrun : Turns Harmless (start o₀ storageDir maxBytes fs) p) :
    p.running = true ∧ ∀ (o : Orders) (sock : Socket),
      (p.turn o sock).running = true ↔ Harmless p.store sock := by
  have hrunning : p.running = true := by
    induction hrun with
    | start => rfl
    | turn o sock hrun hsock ih => exact (running_turn ih o sock).mpr hsock
  exact ⟨hrunning, running_turn hrunning⟩

end Service

end Bounded

namespace Service

def newService : Service := start default (str "/peer") 10 bareDisk

def bringing (bytes : Bytes) : Socket := { bytes := bytes }

theorem hello_survived : (newService.turn default (bringing (str "PUT_CHUNK x 5\nhello"))).running =
    true := by
  have hrequest : Request.ofBytes (str "PUT_CHUNK x 5\nhello") =
      some ⟨str "PUT_CHUNK", str "x", some (str "5"), str "hello"⟩ := by decide +kernel
  have harmless : Harmless newService.store (bringing (str "PUT_CHUNK x 5\nhello")) := by
    intro r hr
    obtain rfl := Option.some_injective _ (hrequest.symm.trans hr)
    exact (Request.harmless_put (Or.inl rfl)).mpr fun word hword => by
      obtain rfl := Option.some_injective _ hword
      decide
  exact (running_while_harmless default (str "/peer") 10 bareDisk
    (Turns.turn default _ Turns.start harmless)).1

/-- A length of -1 is the largest 64-bit number. -/
theorem negative_length_stops_peer :
    ¬ ∀ p, Turns (fun _ _ => True) newService p → p.running = true := by
  intro hall
  have hrunning := hall _ (Turns.turn default (bringing (str "PUT_CHUNK x -1\n")) Turns.start
    trivial)
  exact absurd hrunning (by decide +kernel)

end Service

end PeerService

end DecentStore
