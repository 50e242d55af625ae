import DecentStore.Proof.Sealing
import DecentStore.Proof.UploadPlan

/-!
# An instance of OpenSSL

What the theorems ask of OpenSSL can be had together: a digest without collisions on the bytes in
use, a cipher that rejects every other key and IV, and a pair of RSA keys. The digest of this
instance is the place of the bytes in a table, the tag of the cipher is its key and IV, and a
wrapped key is the key behind a byte.
-/

namespace DecentStore

open Bytes

namespace TableSsl

def digest (known : List Bytes) (data : Bytes) : Bytes :=
  UInt8.ofNat (known.idxOf data) :: List.replicate 31 0

def tag (key iv : Bytes) : Bytes := (key.take 4 ++ iv ++ List.replicate 16 0).take 16

def publicPath : Bytes := str "public.pem"

def privatePath : Bytes := str "private.pem"

end TableSsl

open TableSsl in
def tableSsl (known : List Bytes) : OpenSsl where
  sha256 := digest known
  gcmEncrypt key iv plaintext := (plaintext, tag key iv)
  gcmDecrypt key iv ciphertext t := if t = tag key iv then some ciphertext else none
  rsaEncrypt path message :=
    if path = publicPath then .ok (0 :: message)
    else .error (.runtimeError (str "Failed to open RSA public key: " ++ path))
  rsaDecrypt path blob :=
    if path = privatePath then .ok blob.tail
    else .error (.runtimeError (str "Failed to open RSA private key: " ++ path))
  sha256_length data := by simp [digest]
  gcmEncrypt_length key iv plaintext := rfl
  gcmTag_length key iv plaintext := by
    simp only [tag, List.length_take, List.length_append, List.length_replicate]
    omega
  gcmDecrypt_length := by
    intro key iv ciphertext t plaintext hopen
    split at hopen
    · cases hopen
      rfl
    · cases hopen
  gcmDecrypt_gcmEncrypt key iv plaintext := if_pos rfl
  rsaEncrypt_ne_nil := by
    intro path message blob hblob
    split at hblob
    · cases hblob
      exact List.cons_ne_nil _ _
    · cases hblob

namespace TableSsl

theorem noCollision {known : List Bytes} (hlength : known.length < 256) {c : Bytes}
    (hc : c ∈ known) : (tableSsl known).NoCollision c := by
  intro b hdigest
  have hplace : UInt8.ofNat (known.idxOf b) = UInt8.ofNat (known.idxOf c) := by
    simp only [tableSsl, digest, List.cons.injEq, and_true] at hdigest
    exact hdigest
  have hb : known.idxOf b ≤ known.length := List.idxOf_le_length
  have hlt : known.idxOf c < known.length := List.idxOf_lt_length_iff.mpr hc
  have hsame : known.idxOf b = known.idxOf c := by
    have hnat := congrArg UInt8.toNat hplace
    rwa [UInt8.toNat_ofNat_of_lt' (by simp [UInt8.size]; omega),
      UInt8.toNat_ofNat_of_lt' (by simp [UInt8.size]; omega)] at hnat
  exact (List.idxOf_inj hc).mp hsame.symm |>.symm

theorem keys_match (known : List Bytes) : (tableSsl known).Matches publicPath privatePath := by
  intro message blob hblob
  simp only [tableSsl, ↓reduceIte] at hblob ⊢
  cases hblob
  rfl

theorem tag_eq {key iv : Bytes} (hkey : key.length = 32) (hiv : iv.length = 12) :
    tag key iv = key.take 4 ++ iv := by
  have hlength : (key.take 4 ++ iv).length = 16 := by simp [hkey, hiv]
  rw [tag, List.take_left' hlength]

/-- Keys that differ, differ in the part that the tag shows. -/
theorem rejects (known : List Bytes) (closing opening : Crypto.FileKey)
    (hkeys : closing.params.key.take 4 = opening.params.key.take 4 →
      closing.params.key = opening.params.key) :
    (tableSsl known).Rejects closing.params opening.params := by
  have hlength : ∀ (fileKey : Crypto.FileKey) idx iv,
      Crypto.deriveChunkIv fileKey.params.iv idx = .ok iv → iv.length = 12 := by
    intro fileKey idx iv hiv
    rw [Crypto.deriveChunkIv_eq fileKey.iv_length] at hiv
    rw [← Except.ok.inj hiv]
    simp [fileKey.iv_length]
  intro idx idx' iv iv' data hiv hiv' hother
  refine if_neg fun hsame => hother ?_
  have htags : closing.params.key.take 4 ++ iv = opening.params.key.take 4 ++ iv' := by
    rw [← tag_eq closing.key_length (hlength _ _ _ hiv),
      ← tag_eq opening.key_length (hlength _ _ _ hiv')]
    exact hsame
  obtain ⟨hhead, htail⟩ := List.append_inj htags
    (by rw [List.length_take, List.length_take, closing.key_length, opening.key_length])
  rw [hkeys hhead, htail]

end TableSsl

end DecentStore
