import DecentStore.Crypto

/-!
# Hex text

The hex writer gives two digits for each byte and the reader takes them back two at a time, so a
digest in text is 64 hex digits and the wrapped key survives the manifest.
-/

namespace DecentStore

open Bytes

namespace Crypto

/-- The digits of one byte. -/
def hexPair (b : UInt8) : Bytes := [kHex.getD (b.toNat / 16) 0, kHex.getD (b.toNat % 16) 0]

theorem stoi_hexPair (b : UInt8) : stoi 16 (hexPair b) = .ok b.toNat :=
  forall_byte (p := fun b => stoi 16 (hexPair b) = .ok b.toNat) (by decide +kernel) b

theorem isHexDigit_hexPair (b : UInt8) : ∀ c ∈ hexPair b, IsHexDigit c :=
  forall_byte (p := fun b => ∀ c ∈ hexPair b, IsHexDigit c) (by decide +kernel) b

theorem toHex_cons (b : UInt8) (data : Bytes) : toHex (b :: data) = hexPair b ++ toHex data := rfl

theorem toHex_length (data : Bytes) : (toHex data).length = 2 * data.length := by
  induction data with
  | nil => rfl
  | cons b data ih =>
      rw [toHex_cons, List.length_append, ih, List.length_cons]
      simp only [hexPair, List.length_cons, List.length_nil]
      omega

theorem toHex_ne_nil {data : Bytes} (hne : data ≠ []) : toHex data ≠ [] := by
  have hpos := List.length_pos_iff.mpr hne
  refine List.length_pos_iff.mp ?_
  rw [toHex_length]
  omega

theorem isHexDigit_toHex {data : Bytes} {c : UInt8} (hc : c ∈ toHex data) : IsHexDigit c := by
  obtain ⟨b, -, hb⟩ := List.mem_flatMap.mp hc
  exact isHexDigit_hexPair b c hb

theorem fromHexLoop_toHex (data : Bytes) : fromHexLoop (toHex data) = .ok data := by
  induction data with
  | nil => rfl
  | cons b data ih =>
      have hpair := stoi_hexPair b
      have hbyte : UInt8.ofNat ((b.toNat : Int) % 256).toNat = b := by
        have hlt : b.toNat < 256 := b.toNat_lt
        rw [show ((b.toNat : Int) % 256).toNat = b.toNat by omega, UInt8.ofNat_toNat]
      rw [toHex_cons]
      simp only [hexPair, List.cons_append, List.nil_append, fromHexLoop] at hpair ⊢
      rw [hpair, ih]
      simp only [Bind.bind, Except.bind, hbyte]

/-- **The hex round trip.** -/
theorem fromHex_toHex (data : Bytes) : fromHex (toHex data) = .ok data := by
  rw [fromHex, if_neg (by rw [toHex_length]; omega), fromHexLoop_toHex]

theorem toHex_injective : Function.Injective toHex := fun a b hab => by
  have hback := (fromHex_toHex a).symm.trans ((congrArg fromHex hab).trans (fromHex_toHex b))
  exact Except.ok.inj hback

theorem sha256Hex_isHashHex (ssl : OpenSsl) (data : Bytes) : IsHashHex (sha256Hex ssl data) :=
  ⟨by rw [sha256Hex, toHex_length, ssl.sha256_length], fun _ hc => isHexDigit_toHex hc⟩

end Crypto

/-- No other bytes have the digest of `c`. -/
def OpenSsl.NoCollision (ssl : OpenSsl) (c : Bytes) : Prop :=
  ∀ b, ssl.sha256 b = ssl.sha256 c → b = c

theorem OpenSsl.NoCollision.eq {ssl : OpenSsl} {b c : Bytes} (hc : ssl.NoCollision c)
    (hhash : Crypto.sha256Hex ssl b = Crypto.sha256Hex ssl c) : b = c :=
  hc b (Crypto.toHex_injective hhash)

end DecentStore
