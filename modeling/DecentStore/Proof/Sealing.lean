import DecentStore.Proof.HexText

/-!
# Encrypted chunks

What an encrypted chunk opens to. The IV of a chunk is determined by its position up to `2 ^ 32`,
and two positions have the same IV only if they agree there. A chunk shorter than `2 ^ 31` bytes is
encrypted whole, and no opened chunk is longer.
-/

namespace DecentStore

open Bytes

namespace Crypto

def counter (idx : UInt64) : UInt32 := (idx &&& 0xffffffff).toUInt32

theorem counter_ofNat (n : Nat) : (counter (UInt64.ofNat n)).toNat = n % 2 ^ 32 := by
  have hmask : (0xffffffff : UInt64).toNat = 2 ^ 32 - 1 := by decide
  rw [counter, UInt64.toNat_toUInt32, UInt64.toNat_and, hmask, Nat.and_two_pow_sub_one_eq_mod,
    UInt64.toNat_ofNat']
  omega

theorem low_byte (c : UInt32) : ((c &&& 0xff).toUInt8).toNat = c.toNat % 256 := by
  have hmask : (0xff : UInt32).toNat = 2 ^ 8 - 1 := by decide
  rw [UInt32.toNat_toUInt8, UInt32.toNat_and, hmask, Nat.and_two_pow_sub_one_eq_mod]
  omega

theorem shifted_byte (c k : UInt32) (hk : k.toNat < 32) :
    (((c >>> k) &&& 0xff).toUInt8).toNat = c.toNat / 2 ^ k.toNat % 256 := by
  rw [low_byte, UInt32.toNat_shiftRight, Nat.shiftRight_eq_div_pow, Nat.mod_eq_of_lt hk]

theorem counter_of_bytes {a b : UInt32}
    (h24 : ((a >>> 24) &&& 0xff).toUInt8 = ((b >>> 24) &&& 0xff).toUInt8)
    (h16 : ((a >>> 16) &&& 0xff).toUInt8 = ((b >>> 16) &&& 0xff).toUInt8)
    (h8 : ((a >>> 8) &&& 0xff).toUInt8 = ((b >>> 8) &&& 0xff).toUInt8)
    (h0 : (a &&& 0xff).toUInt8 = (b &&& 0xff).toUInt8) : a = b := by
  have hbyte24 := congrArg UInt8.toNat h24
  have hbyte16 := congrArg UInt8.toNat h16
  have hbyte8 := congrArg UInt8.toNat h8
  have hbyte0 := congrArg UInt8.toNat h0
  rw [shifted_byte a 24 (by decide), shifted_byte b 24 (by decide)] at hbyte24
  rw [shifted_byte a 16 (by decide), shifted_byte b 16 (by decide)] at hbyte16
  rw [shifted_byte a 8 (by decide), shifted_byte b 8 (by decide)] at hbyte8
  rw [low_byte, low_byte] at hbyte0
  have ha := a.toNat_lt
  have hb := b.toNat_lt
  refine UInt32.toNat_inj.mp ?_
  simp only [UInt32.toNat_ofNat, Nat.reducePow, Nat.reduceMod] at hbyte24 hbyte16 hbyte8
  omega

theorem set_lastFour {l : Bytes} (hlength : l.length = 12) (a b c d : UInt8) :
    (((l.set 8 a).set 9 b).set 10 c).set 11 d = l.take 8 ++ [a, b, c, d] := by
  match l, hlength with
  | [_, _, _, _, _, _, _, _, _, _, _, _], _ => rfl

theorem deriveChunkIv_eq {baseIv : Bytes} (hlength : baseIv.length = 12) (idx : UInt64) :
    deriveChunkIv baseIv idx = .ok (baseIv.take 8 ++
      [((counter idx >>> 24) &&& 0xff).toUInt8, ((counter idx >>> 16) &&& 0xff).toUInt8,
        ((counter idx >>> 8) &&& 0xff).toUInt8, (counter idx &&& 0xff).toUInt8]) := by
  rw [deriveChunkIv, if_neg (not_not.mpr hlength), ← set_lastFour hlength]
  rfl

/-- **Two positions have the same IV exactly when they agree up to `2 ^ 32`.** -/
theorem deriveChunkIv_eq_iff {baseIv : Bytes} (hlength : baseIv.length = 12) (n m : Nat) :
    deriveChunkIv baseIv (UInt64.ofNat n) = deriveChunkIv baseIv (UInt64.ofNat m) ↔
      n % 2 ^ 32 = m % 2 ^ 32 := by
  rw [deriveChunkIv_eq hlength, deriveChunkIv_eq hlength, ← counter_ofNat n, ← counter_ofNat m,
    UInt32.toNat_inj]
  constructor
  · intro hsame
    have hbytes := List.append_cancel_left (Except.ok.inj hsame)
    simp only [List.cons.injEq, and_true] at hbytes
    exact counter_of_bytes hbytes.1 hbytes.2.1 hbytes.2.2.1 hbytes.2.2.2
  · intro hsame
    rw [hsame]

/-- A chunk of this length can be encrypted: neither its length as an `int` nor the length of the
result is negative. -/
def Sealable (n : Nat) : Prop := 0 ≤ castInt n ∧ castInt n + 16 ≤ 2 ^ 31 - 1

instance (n : Nat) : Decidable (Sealable n) := inferInstanceAs (Decidable (_ ∧ _))

theorem sealable_iff (n : Nat) : Sealable n ↔ n % 2 ^ 32 < 2 ^ 31 - 16 := by
  unfold Sealable castInt
  rw [Int.bmod_def]
  have hcast : ((n : Int) % ((2 ^ 32 : Nat) : Int)) = ((n % 2 ^ 32 : Nat) : Int) := by
    push_cast
    rfl
  have hlt : n % 2 ^ 32 < 2 ^ 32 := Nat.mod_lt n (Nat.two_pow_pos 32)
  rw [hcast]
  generalize n % 2 ^ 32 = r at hlt ⊢
  split <;> omega

theorem aesGcmEncrypt_sealable {ssl : OpenSsl} {c key baseIv iv : Bytes} {idx : UInt64}
    (hiv : deriveChunkIv baseIv idx = .ok iv) (hseal : Sealable c.length) :
    aesGcmEncrypt ssl c key baseIv idx =
      .ok ((ssl.gcmEncrypt key iv (c.take (castInt c.length).toNat)).1 ++
        (ssl.gcmEncrypt key iv (c.take (castInt c.length).toNat)).2) := by
  simp only [aesGcmEncrypt, gcmSeal, hiv, Bind.bind, Except.bind]
  rw [if_neg (Int.not_lt.mpr hseal.1), if_neg (Int.not_lt.mpr hseal.2)]

theorem aesGcmEncrypt_not_sealable (ssl : OpenSsl) {c : Bytes} (key : Bytes) {baseIv iv : Bytes}
    {idx : UInt64} (hiv : deriveChunkIv baseIv idx = .ok iv) (hseal : ¬ Sealable c.length) :
    ∃ e, aesGcmEncrypt ssl c key baseIv idx = .error e := by
  simp only [aesGcmEncrypt, gcmSeal, hiv, Bind.bind, Except.bind]
  split
  · exact ⟨_, rfl⟩
  · rename_i hnonneg
    rw [if_pos (Int.not_le.mp fun hle => hseal ⟨Int.not_lt.mp hnonneg, hle⟩)]
    exact ⟨_, rfl⟩

theorem aesGcmEncrypt_short {ssl : OpenSsl} {c key baseIv iv : Bytes} {idx : UInt64}
    (hiv : deriveChunkIv baseIv idx = .ok iv) (hshort : c.length < 2 ^ 31)
    (hseal : Sealable c.length) :
    aesGcmEncrypt ssl c key baseIv idx =
      .ok ((ssl.gcmEncrypt key iv c).1 ++ (ssl.gcmEncrypt key iv c).2) := by
  rw [aesGcmEncrypt_sealable hiv hseal, castInt_of_lt hshort, Int.toNat_natCast, List.take_length]

/-- A length as an `int` is the length or less by `2 ^ 32` at least. -/
theorem sealed_length {n : Nat} (hseal : Sealable n) :
    min (castInt n).toNat n + 16 < 2 ^ 31 ∧ min (castInt n).toNat n + 16 ≠ n := by
  obtain ⟨hnonneg, hlast⟩ := hseal
  obtain ⟨hle, hlt⟩ := castInt_le n
  by_cases hshort : n < 2 ^ 31
  · rw [castInt_of_lt hshort] at hlast ⊢
    omega
  · have hlong : 2 ^ 32 ≤ n := by
      by_contra hcontra
      have hneg := castInt_neg (Nat.not_lt.mp hshort) (Nat.not_le.mp hcontra)
      omega
    omega

/-- What can be encrypted does not come out as long as the chunk. -/
theorem aesGcmEncrypt_cases (ssl : OpenSsl) (c key : Bytes) {baseIv : Bytes}
    (hlength : baseIv.length = 12) (idx : UInt64) :
    (¬ Sealable c.length ∧ ∃ e, aesGcmEncrypt ssl c key baseIv idx = .error e) ∨
      (Sealable c.length ∧ ∃ toSend, aesGcmEncrypt ssl c key baseIv idx = .ok toSend ∧
        toSend.length < 2 ^ 31 ∧ toSend.length ≠ c.length) := by
  have hiv := deriveChunkIv_eq hlength idx
  by_cases hseal : Sealable c.length
  · refine Or.inr ⟨hseal, _, aesGcmEncrypt_sealable hiv hseal, ?_⟩
    rw [List.length_append, ssl.gcmEncrypt_length, ssl.gcmTag_length, List.length_take]
    exact sealed_length hseal
  · exact Or.inl ⟨hseal, aesGcmEncrypt_not_sealable ssl key hiv hseal⟩

/-- Opening what was sealed asks the cipher about the very ciphertext and tag. -/
theorem aesGcmDecrypt_short {ssl : OpenSsl} {c key iv : Bytes} (hshort : c.length < 2 ^ 31)
    {key' baseIv' iv' : Bytes} {idx' : UInt64} (hiv : deriveChunkIv baseIv' idx' = .ok iv') :
    aesGcmDecrypt ssl ((ssl.gcmEncrypt key iv c).1 ++ (ssl.gcmEncrypt key iv c).2) key' baseIv'
        idx' =
      match ssl.gcmDecrypt key' iv' (ssl.gcmEncrypt key iv c).1 (ssl.gcmEncrypt key iv c).2 with
      | none => .error .killed
      | some out => .ok out := by
  have hlength : ((ssl.gcmEncrypt key iv c).1 ++ (ssl.gcmEncrypt key iv c).2).length =
      c.length + 16 := by
    rw [List.length_append, ssl.gcmEncrypt_length, ssl.gcmTag_length]
  have hlen := castInt_of_lt hshort
  have htake : ((ssl.gcmEncrypt key iv c).1 ++ (ssl.gcmEncrypt key iv c).2).take c.length =
      (ssl.gcmEncrypt key iv c).1 := List.take_left' (ssl.gcmEncrypt_length key iv c)
  have hdrop : ((ssl.gcmEncrypt key iv c).1 ++ (ssl.gcmEncrypt key iv c).2).drop c.length =
      (ssl.gcmEncrypt key iv c).2 := List.drop_left' (ssl.gcmEncrypt_length key iv c)
  simp only [aesGcmDecrypt, hlength, hiv, Bind.bind, Except.bind, Nat.add_sub_cancel, hlen,
    Int.toNat_natCast, htake, hdrop]
  refine (if_neg (by omega)).trans ((if_neg (by omega)).trans ?_)
  cases ssl.gcmDecrypt key' iv' (ssl.gcmEncrypt key iv c).1 (ssl.gcmEncrypt key iv c).2 <;> rfl

theorem length_of_opened {ssl : OpenSsl} {data key baseIv plain : Bytes} {idx : UInt64}
    (hopen : aesGcmDecrypt ssl data key baseIv idx = .ok plain) :
    plain.length < data.length ∧ plain.length < 2 ^ 31 := by
  unfold aesGcmDecrypt at hopen
  split at hopen
  · cases hopen
  · rename_i hlong
    cases hiv : deriveChunkIv baseIv idx with
    | error e => simp [hiv, Bind.bind, Except.bind] at hopen
    | ok iv =>
        simp only [hiv, Bind.bind, Except.bind] at hopen
        split at hopen
        · cases hopen
        · rename_i hnonneg
          split at hopen
          · cases hopen
          · rename_i out hout
            cases hopen
            have hlength := ssl.gcmDecrypt_length hout
            have hcast := castInt_le (data.length - 16)
            rw [List.length_take] at hlength
            omega

end Crypto

/-- AES-GCM taken as ideal on two file keys: what is sealed under the one for some position is
rejected under the other for any, unless key and IV are the same. -/
def OpenSsl.Rejects (ssl : OpenSsl) (sealed opened : Crypto.FileEncryptionParams) : Prop :=
  ∀ idx idx' iv iv' data, Crypto.deriveChunkIv sealed.iv idx = .ok iv →
    Crypto.deriveChunkIv opened.iv idx' = .ok iv' → (sealed.key, iv) ≠ (opened.key, iv') →
    ssl.gcmDecrypt opened.key iv' (ssl.gcmEncrypt sealed.key iv data).1
      (ssl.gcmEncrypt sealed.key iv data).2 = none

end DecentStore
