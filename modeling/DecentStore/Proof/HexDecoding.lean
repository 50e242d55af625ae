import DecentStore.Dht
import DecentStore.Proof.HexText

/-!
# What the hex decoder accepts

The decoder converts two characters at a time with `std::stoi`. It inverts the encoder on hex digits
of either case, gives nothing for an odd number of characters, and throws at a piece in which there
is no number at all.
-/

namespace DecentStore

open Bytes

theorem digitIn_of_isHexDigit {c : UInt8} : IsHexDigit c →
    ∃ d < 16, digitIn 16 c = some d ∧ Crypto.kHex.getD d 0 = toLower c :=
  forall_byte (p := fun c => IsHexDigit c →
    ∃ d < 16, digitIn 16 c = some d ∧ Crypto.kHex.getD d 0 = toLower c) (by decide +kernel) c

theorem isHexDigit_of_toLower {c : UInt8} : IsHexDigit (toLower c) → IsHexDigit c :=
  forall_byte (p := fun c => IsHexDigit (toLower c) → IsHexDigit c) (by decide +kernel) c

/-- A sign as `std::stoi` takes it. -/
def IsSign (c : UInt8) : Prop := c = 43 ∨ c = 45

theorem splitSign_of_not_sign {c : UInt8} (hc : ¬ IsSign c) (rest : Bytes) :
    splitSign (c :: rest) = (false, c :: rest) := by
  obtain ⟨hplus, hminus⟩ := not_or.mp hc
  unfold splitSign
  split
  · rename_i heq
    exact absurd (List.cons.inj heq).1 hplus
  · rename_i heq
    exact absurd (List.cons.inj heq).1 hminus
  · rfl

theorem splitSign_of_sign {c : UInt8} (hc : IsSign c) (rest : Bytes) :
    (splitSign (c :: rest)).2 = rest := by
  rcases hc with rfl | rfl <;> rfl

theorem not_sign_of_isHexDigit {c : UInt8} (hc : IsHexDigit c) : ¬ IsSign c := by
  rintro (rfl | rfl)
  · exact absurd hc (by decide)
  · exact absurd hc (by decide)

theorem not_isHexDigit_of_isSpace {c : UInt8} (hc : isSpace c = true) : ¬ IsHexDigit c := by
  intro hhex
  rw [(isHexDigit_class hhex).1] at hc
  cases hc

theorem dropHexMark_short {s : Bytes} (hs : s.length ≤ 2) : dropHexMark s = s := by
  unfold dropHexMark
  split
  · simp only [List.length_cons] at hs
    omega
  · rfl

namespace Crypto

/-- The text in which `std::stoi` looks for digits. -/
def numberText (s : Bytes) : Bytes := dropHexMark (splitSign (s.dropWhile isSpace)).2

theorem strtol_none {s : Bytes} (hs : ∀ c ∈ (numberText s).head?, ¬ IsHexDigit c) :
    strtol 16 s = none := by
  have hnone : (numberText s).takeWhile (fun c => (digitIn 16 c).isSome) = [] := by
    cases htext : numberText s with
    | nil => rfl
    | cons c rest =>
        rw [htext] at hs
        exact List.takeWhile_cons_of_neg (hs c rfl)
  unfold numberText at hnone
  simp only [strtol, ↓reduceIte, hnone]

/-- There is no number in the piece: no digit comes first, nor after a blank or a sign. -/
def Unreadable (piece : UInt8 × UInt8) : Prop :=
  ¬ IsHexDigit piece.1 ∧ ¬ ((isSpace piece.1 = true ∨ IsSign piece.1) ∧ IsHexDigit piece.2)

theorem stoi_unreadable {a b : UInt8} (hpiece : Unreadable (a, b)) :
    ∃ e, stoi 16 [a, b] = .error e := by
  obtain ⟨ha, hb⟩ := hpiece
  have hnone : strtol 16 [a, b] = none := by
    refine strtol_none fun c hc => ?_
    unfold numberText at hc
    by_cases hspace : isSpace a = true
    · have hnot : ¬ IsHexDigit b := fun hhex => hb ⟨Or.inl hspace, hhex⟩
      rw [List.dropWhile_cons_of_pos hspace] at hc
      by_cases hspace' : isSpace b = true
      · rw [List.dropWhile_cons_of_pos hspace'] at hc
        cases hc
      · rw [List.dropWhile_cons_of_neg hspace'] at hc
        by_cases hsign : IsSign b
        · rw [splitSign_of_sign hsign] at hc
          cases hc
        · rw [splitSign_of_not_sign hsign, dropHexMark_short (s := [b]) (Nat.le_succ 1)] at hc
          cases hc
          exact hnot
    · rw [List.dropWhile_cons_of_neg hspace] at hc
      by_cases hsign : IsSign a
      · rw [splitSign_of_sign hsign, dropHexMark_short (s := [b]) (Nat.le_succ 1)] at hc
        cases hc
        exact fun hhex => hb ⟨Or.inr hsign, hhex⟩
      · rw [splitSign_of_not_sign hsign, dropHexMark_short le_rfl] at hc
        cases hc
        exact ha
  exact ⟨_, by rw [stoi, hnone]⟩

theorem stoi_hexDigits {a b : UInt8} (ha : IsHexDigit a) (hb : IsHexDigit b) :
    ∃ d < 16, ∃ e < 16, stoi 16 [a, b] = .ok ((16 * d + e : Nat) : Int) ∧
      kHex.getD d 0 = toLower a ∧ kHex.getD e 0 = toLower b := by
  obtain ⟨d, hd, hda, hlowerA⟩ := digitIn_of_isHexDigit ha
  obtain ⟨e, he, heb, hlowerB⟩ := digitIn_of_isHexDigit hb
  refine ⟨d, hd, e, he, ?_, hlowerA, hlowerB⟩
  have hspace : ¬ isSpace a = true := fun hspace => not_isHexDigit_of_isSpace hspace ha
  have hdigits : [a, b].takeWhile (fun c => (digitIn 16 c).isSome) = [a, b] := by
    simp [hda, heb]
  have hstrtol : strtol 16 [a, b] = some ((16 * d + e : Nat) : Int) := by
    simp only [strtol, ↓reduceIte, List.dropWhile_cons_of_neg hspace,
      splitSign_of_not_sign (not_sign_of_isHexDigit ha), dropHexMark_short (le_refl [a, b].length),
      hdigits, List.foldl_cons, List.foldl_nil, hda, heb, Option.getD_some, List.cons_ne_nil,
      Bool.false_eq_true, Nat.mul_zero, Nat.zero_add]
  rw [stoi, hstrtol]
  exact if_neg (by omega)

theorem hexPair_of_digits {a b : UInt8} {d e : Nat} (hd : d < 16) (he : e < 16)
    (ha : kHex.getD d 0 = toLower a) (hb : kHex.getD e 0 = toLower b) :
    hexPair (UInt8.ofNat (((16 * d + e : Nat) : Int) % 256).toNat) = [toLower a, toLower b] := by
  have hbyte : (UInt8.ofNat (((16 * d + e : Nat) : Int) % 256).toNat).toNat = 16 * d + e := by
    rw [UInt8.toNat_ofNat']
    omega
  rw [hexPair, hbyte, ← ha, ← hb]
  have hhigh : (16 * d + e) / 16 = d := by omega
  have hlow : (16 * d + e) % 16 = e := by omega
  rw [hhigh, hlow]

/-- The pieces the decoder converts. -/
def pieces : Bytes → List (UInt8 × UInt8)
  | a :: b :: hex => (a, b) :: pieces hex
  | _ => []

theorem fromHexLoop_unreadable {s : Bytes} (hs : ∃ piece ∈ pieces s, Unreadable piece) :
    ∃ e, fromHexLoop s = .error e := by
  induction s using pieces.induct with
  | case1 a b hex ih =>
      cases hfirst : stoi 16 [a, b] with
      | error e => exact ⟨e, by rw [fromHexLoop, hfirst]; rfl⟩
      | ok v =>
          obtain ⟨piece, hmem, hpiece⟩ := hs
          rcases List.mem_cons.mp hmem with rfl | hmem
          · obtain ⟨e, he⟩ := stoi_unreadable hpiece
            rw [he] at hfirst
            cases hfirst
          · obtain ⟨e, he⟩ := ih ⟨piece, hmem, hpiece⟩
            exact ⟨e, by rw [fromHexLoop, hfirst, he]; rfl⟩
  | case2 s hshort =>
      obtain ⟨piece, hmem, -⟩ := hs
      rw [pieces] at hmem
      · exact absurd hmem List.not_mem_nil
      · exact hshort

theorem fromHexLoop_hexDigits {s : Bytes} (heven : s.length % 2 = 0)
    (hs : ∀ c ∈ s, IsHexDigit c) :
    ∃ out, fromHexLoop s = .ok out ∧ toHex out = s.map toLower := by
  induction s using pieces.induct with
  | case1 a b hex ih =>
      have heven' : hex.length % 2 = 0 := by
        simp only [List.length_cons] at heven
        omega
      obtain ⟨out, hout, htext⟩ := ih heven' fun c hc =>
        hs c (List.mem_cons_of_mem a (List.mem_cons_of_mem b hc))
      obtain ⟨d, hd, e, he, hfirst, ha, hb⟩ := stoi_hexDigits (hs a List.mem_cons_self)
        (hs b (List.mem_cons_of_mem a List.mem_cons_self))
      refine ⟨UInt8.ofNat (((16 * d + e : Nat) : Int) % 256).toNat :: out, ?_, ?_⟩
      · rw [fromHexLoop, hfirst, hout]
        rfl
      · rw [toHex_cons, hexPair_of_digits hd he ha hb, htext]
        rfl
  | case2 s hshort =>
      cases s with
      | nil => exact ⟨[], rfl, rfl⟩
      | cons a rest =>
          cases rest with
          | nil => cases heven
          | cons b rest => exact (hshort a b rest rfl).elim

theorem fromHex_odd {s : Bytes} (hodd : s.length % 2 = 1) : fromHex s = .ok [] :=
  if_pos (by omega)

theorem fromHex_even {s : Bytes} (heven : s.length % 2 = 0) : fromHex s = fromHexLoop s :=
  if_neg (by omega)

/-- **What is accepted as it is written.** A text is decoded to the bytes it is the hex of only if
it has an even number of characters and all of them are hex digits. -/
theorem fromHex_exact_iff (s : Bytes) :
    (∃ out, fromHex s = .ok out ∧ toHex out = s.map toLower) ↔
      s.length % 2 = 0 ∧ ∀ c ∈ s, IsHexDigit c := by
  constructor
  · rintro ⟨out, -, htext⟩
    have hlength := congrArg List.length htext
    rw [toHex_length, List.length_map] at hlength
    refine ⟨by omega, fun c hc => isHexDigit_of_toLower ?_⟩
    have hmem : toLower c ∈ toHex out := htext ▸ List.mem_map_of_mem hc
    exact isHexDigit_toHex hmem
  · rintro ⟨heven, hs⟩
    rw [fromHex_even heven]
    exact fromHexLoop_hexDigits heven hs

end Crypto

theorem Id.fromHex_toHex (id : Id) : Id.fromHex (Id.toHex id) = .ok id := by
  have hid : idFromBytes id.1 = id := Subtype.ext (List.take_left' id.2)
  unfold Id.fromHex Id.toHex hexToBytes bytesToHex
  rw [Crypto.fromHex_toHex]
  exact congrArg Except.ok hid

namespace Crypto

/-- **The decoders.** They invert the encoders, of either module. A text of odd length gives no
bytes; one of hex digits, in either case, the bytes it is the hex of; and where a piece has no
number in it the decoder throws. -/
theorem hex_decoders (data : Bytes) (id : Id) (s : Bytes) :
    fromHex (toHex data) = .ok data ∧ Id.fromHex (Id.toHex id) = .ok id ∧
    (s.length % 2 = 1 → fromHex s = .ok []) ∧
    (s.length % 2 = 0 → (∀ c ∈ s, IsHexDigit c) →
      ∃ out, fromHex s = .ok out ∧ toHex out = s.map toLower) ∧
    (s.length % 2 = 0 → (∃ piece ∈ pieces s, Unreadable piece) →
      ∃ e, fromHex s = .error e) := by
  refine ⟨fromHex_toHex data, Id.fromHex_toHex id, fromHex_odd, ?_, ?_⟩
  · intro heven hs
    exact (fromHex_exact_iff s).mpr ⟨heven, hs⟩
  · intro heven hs
    rw [fromHex_even heven]
    exact fromHexLoop_unreadable hs

/-- Three digits are taken for no bytes at all, and a digit and a letter for a byte. -/
theorem odd_text_accepted : fromHex (str "1g") = .ok [1] ∧
    ¬ ((∀ data, fromHex (toHex data) = .ok data) ∧
      (∀ id : Id, Id.fromHex (Id.toHex id) = .ok id) ∧
      ∀ s : Bytes, (∃ e, fromHex s = .error e) ∨
        ∃ out, fromHex s = .ok out ∧ toHex out = s.map toLower) := by
  refine ⟨by decide, ?_⟩
  rintro ⟨-, -, hall⟩
  have hodd : fromHex (str "abc") = .ok [] := fromHex_odd rfl
  rcases hall (str "abc") with ⟨e, he⟩ | hexact
  · rw [hodd] at he
    cases he
  · exact absurd ((fromHex_exact_iff _).mp hexact).1 (by decide)

end Crypto

end DecentStore
