import DecentStore.Lib.Bytes

/-!
# What every part of the program shares

The exceptions the code throws and the other ways in which it does not return, the buffers it can
make, and the endpoint of a peer.
-/

namespace DecentStore

open Bytes

/-- Why a call does not return: a C++ exception, by its class and with the text of `what()`, or one
of two ends that no handler sees. A signal ends the process, or a receive without a timeout waits
for ever. -/
inductive Exc where
  | runtimeError (what : Bytes)
  | invalidArgument (what : Bytes)
  | outOfRange (what : Bytes)
  | lengthError (what : Bytes)
  | filesystemError (what : Bytes)
  | badAlloc
  | killed
  | stuck
deriving DecidableEq

namespace Exc

def what : Exc → Bytes
  | .runtimeError what => what
  | .invalidArgument what => what
  | .outOfRange what => what
  | .lengthError what => what
  | .filesystemError what => what
  | .badAlloc => str "std::bad_alloc"
  | .killed => []
  | .stuck => []

/-- A handler sees it. -/
def caught : Exc → Bool
  | .killed => false
  | .stuck => false
  | _ => true

end Exc

/-! ### Buffers -/

/-- The `max_size()` of a container of bytes, `PTRDIFF_MAX`. -/
def maxSize : Nat := 2 ^ 63 - 1

/-- What the constructor of a longer vector throws. -/
def vectorTooLong : Exc := .lengthError (str "cannot create std::vector larger than max_size()")

/-- The memory of a process: the blocks that can be allocated, by their size. A string of 15 bytes
needs none. -/
class Memory where
  holds : Nat → Bool
  holds_of_le : ∀ {n m : Nat}, n ≤ m → holds m = true → holds n = true
  holds_small : holds 16 = true

/-- Where nothing else is said, memory has no end. -/
instance (priority := low) ampleMemory : Memory := ⟨fun _ => true, fun _ _ => rfl, rfl⟩

/-- A buffer of this many bytes can be had. `longest` is the `max_size()` of its container: that of
a vector is `maxSize`, and a string has one byte less and needs one byte more. -/
def Allocates [Memory] (longest size : Nat) : Prop :=
  size ≤ longest ∧ Memory.holds (size + (maxSize - longest)) = true

instance [Memory] (longest size : Nat) : Decidable (Allocates longest size) :=
  inferInstanceAs (Decidable (_ ∧ _))

def allocate [Memory] (longest : Nat) (tooLong : Exc) (size : Nat) : Except Exc Unit :=
  if longest < size then .error tooLong
  else if Memory.holds (size + (maxSize - longest)) then .ok ()
  else .error .badAlloc

section Allocate

variable {longest size : Nat}

theorem allocate_ok [Memory] (tooLong : Exc) (hsize : Allocates longest size) :
    allocate longest tooLong size = .ok () := by
  rw [allocate, if_neg (Nat.not_lt.mpr hsize.1), if_pos hsize.2]

theorem allocate_error [Memory] (tooLong : Exc) (hsize : ¬ Allocates longest size) :
    allocate longest tooLong size =
      .error (if longest < size then tooLong else .badAlloc) := by
  unfold allocate
  split
  · rfl
  · rename_i hlength
    exact if_neg fun hholds => hsize ⟨Nat.not_lt.mp hlength, hholds⟩

theorem allocates_ample : Allocates longest size ↔ size ≤ longest := and_iff_left rfl

end Allocate

structure PeerEndpoint where
  ip : Bytes
  port : Int
deriving DecidableEq

/-- `static_cast<int>` of a `size_t`. -/
def castInt (n : Nat) : Int := Int.bmod n (2 ^ 32)

theorem castInt_of_lt {n : Nat} (hn : n < 2 ^ 31) : castInt n = n :=
  Int.bmod_eq_of_le (by omega) (by omega)

theorem castInt_neg {n : Nat} (hle : 2 ^ 31 ≤ n) (hlt : n < 2 ^ 32) : castInt n < 0 := by
  have hmod : (n : Int) % ((2 ^ 32 : Nat) : Int) = n := by
    exact_mod_cast Nat.mod_eq_of_lt hlt
  unfold castInt
  rw [Int.bmod_def, hmod, if_neg (by omega)]
  omega

theorem castInt_le (n : Nat) : castInt n ≤ n ∧ castInt n < 2 ^ 31 := by
  have hmod : (n : Int) % ((2 ^ 32 : Nat) : Int) ≤ n := by
    exact_mod_cast Nat.mod_le n (2 ^ 32)
  have hlt := @Int.bmod_le n (2 ^ 32) (Nat.two_pow_pos 32)
  have hle : Int.bmod n (2 ^ 32) ≤ (n : Int) % ((2 ^ 32 : Nat) : Int) := by
    rw [Int.bmod_def]
    split
    · exact le_refl _
    · exact Int.sub_le_self _ (Int.natCast_nonneg _)
  unfold castInt
  exact ⟨hle.trans hmod, by omega⟩

abbrev newline : UInt8 := 10

theorem isSpace_newline : isSpace newline = true := by decide

theorem isSpace_blank : isSpace 32 = true := by decide

theorem str_newline : str "\n" = [newline] := by decide

theorem str_space : str " " = [32] := by decide

/-! ### Chunk ids -/

def IsHexDigit (b : UInt8) : Prop := (digitIn 16 b).isSome

instance (b : UInt8) : Decidable (IsHexDigit b) := inferInstanceAs (Decidable (_ = true))

/-- 64 hex digits, the shape of a SHA-256 digest in text. -/
def IsHashHex (s : Bytes) : Prop := s.length = 64 ∧ ∀ b ∈ s, IsHexDigit b

instance (s : Bytes) : Decidable (IsHashHex s) := inferInstanceAs (Decidable (_ ∧ _))

theorem isHexDigit_class {b : UInt8} :
    IsHexDigit b → isSpace b = false ∧ b ≠ 47 ∧ b ≠ 46 ∧ b ≠ 13 :=
  forall_byte (p := fun b => IsHexDigit b → isSpace b = false ∧ b ≠ 47 ∧ b ≠ 46 ∧ b ≠ 13)
    (by decide +kernel) b

theorem IsHashHex.ne_nil {s : Bytes} (hs : IsHashHex s) : s ≠ [] := by
  rintro rfl
  exact absurd hs.1 (by decide)

theorem IsHashHex.token {s : Bytes} (hs : IsHashHex s) : Token s :=
  ⟨hs.ne_nil, fun b hb => (isHexDigit_class (hs.2 b hb)).1⟩

end DecentStore
