import DecentStore.Proof.TableSsl

/-!
# Chunks of every length

A length is narrowed to an `int` on the way into the cipher. Up to `2 ^ 31` that changes nothing.
From there on a length whose narrowed value is negative, or is so after the 16 bytes of the tag, is
refused, and of every other length only the remainder modulo `2 ^ 32` is encrypted, so that the rest
of the chunk is lost.
-/

namespace DecentStore

open Bytes

namespace Crypto

/-- Encrypting throws, or the result opens to the plaintext and is 16 bytes longer. -/
def RoundTrips (ssl : OpenSsl) (plaintext key baseIv : Bytes) (idx : UInt64) : Prop :=
  (∃ e, aesGcmEncrypt ssl plaintext key baseIv idx = .error e) ∨
    ∃ toSend, aesGcmEncrypt ssl plaintext key baseIv idx = .ok toSend ∧
      aesGcmDecrypt ssl toSend key baseIv idx = .ok plaintext ∧
      toSend.length = plaintext.length + 16

variable {ssl : OpenSsl} {plaintext key baseIv : Bytes} {idx : UInt64}

theorem roundTrips_short (hiv : baseIv.length = 12) (hshort : plaintext.length < 2 ^ 31) :
    RoundTrips ssl plaintext key baseIv idx := by
  have hderive := deriveChunkIv_eq hiv idx
  by_cases hseal : Sealable plaintext.length
  swap
  · exact Or.inl (aesGcmEncrypt_not_sealable ssl key hderive hseal)
  refine Or.inr ⟨_, aesGcmEncrypt_short hderive hshort hseal, ?_, ?_⟩
  · rw [aesGcmDecrypt_short hshort hderive, ssl.gcmDecrypt_gcmEncrypt]
  · rw [List.length_append, ssl.gcmEncrypt_length, ssl.gcmTag_length]

/-- A long chunk that is not refused comes out too short. -/
theorem not_roundTrips_long (hiv : baseIv.length = 12) (hlong : 2 ^ 31 ≤ plaintext.length)
    (hseal : Sealable plaintext.length) : ¬ RoundTrips ssl plaintext key baseIv idx := by
  intro hround
  rcases aesGcmEncrypt_cases ssl plaintext key hiv idx with ⟨hnot, -⟩ | ⟨-, sent, hsent, hlt, -⟩
  · exact hnot hseal
  · rcases hround with ⟨e, herror⟩ | ⟨toSend, hok, -, hlength⟩
    · rw [hsent] at herror
      cases herror
    · rw [hsent] at hok
      cases hok
      omega

end Crypto

open Crypto

/-- **The lengths that round trip.** -/
theorem sealed_round_trip_iff (ssl : OpenSsl) (plaintext key : Bytes) {baseIv : Bytes}
    (hiv : baseIv.length = 12) (idx : UInt64) :
    RoundTrips ssl plaintext key baseIv idx ↔
      plaintext.length < 2 ^ 31 ∨ 2 ^ 31 - 16 ≤ plaintext.length % 2 ^ 32 := by
  by_cases hshort : plaintext.length < 2 ^ 31
  · exact iff_of_true (roundTrips_short hiv hshort) (Or.inl hshort)
  rw [or_iff_right hshort, ← Nat.not_lt, ← sealable_iff]
  constructor
  · exact fun hround hseal => not_roundTrips_long hiv (Nat.not_lt.mp hshort) hseal hround
  · exact fun hnot => Or.inl (aesGcmEncrypt_not_sealable ssl key (deriveChunkIv_eq hiv idx) hnot)

theorem data_round_trips : RoundTrips (tableSsl []) (str "data") (List.replicate 32 1)
    (List.replicate 12 2) 0 :=
  (sealed_round_trip_iff (tableSsl []) (str "data") (List.replicate 32 1) (by decide) 0).mpr
    (Or.inl (by decide))

/-- Of `2 ^ 32` bytes nothing is encrypted. -/
theorem four_gibibytes_lost :
    ¬ ∀ (ssl : OpenSsl) (plaintext key baseIv : Bytes) (idx : UInt64), key.length = 32 →
      baseIv.length = 12 → RoundTrips ssl plaintext key baseIv idx := by
  intro hall
  have hlength : (List.replicate (2 ^ 32) (0 : UInt8)).length = 2 ^ 32 := List.length_replicate
  have hround := hall (tableSsl []) (List.replicate (2 ^ 32) 0) (List.replicate 32 1)
    (List.replicate 12 2) 0 List.length_replicate List.length_replicate
  refine not_roundTrips_long List.length_replicate ?_ ?_ hround
  · rw [hlength]
    decide
  · rw [hlength, sealable_iff]
    decide

end DecentStore
