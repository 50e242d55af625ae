import Mathlib.Data.List.TakeWhile
import Mathlib.Data.Nat.Digits.Lemmas

/-!
# Byte strings and their C-locale text

A `std::string` and a `std::vector<char>` are both a list of bytes. This file has the character
classes of the C locale, decimal output and the number reader of `strtol`, which is what the
standard library's `operator<<`, `std::to_string` and `std::stoi` come down to.
-/

abbrev Bytes := List UInt8

namespace Bytes

-- along the string, not over all 256 bytes
instance (priority := 2000) (s : Bytes) (p : UInt8 → Prop) [DecidablePred p] :
    Decidable (∀ b ∈ s, p b) :=
  List.decidableBAll p s

/-- What holds of all 256 bytes holds of a byte. -/
theorem forall_byte {p : UInt8 → Prop} (hall : ∀ n : Fin 256, p (UInt8.ofNat n)) (b : UInt8) :
    p b := by
  have hb := hall ⟨b.toNat, b.toNat_lt⟩
  rwa [UInt8.ofNat_toNat] at hb

/-- The bytes of an ASCII literal. -/
def str (s : String) : Bytes := s.toList.map fun c => UInt8.ofNat c.toNat

def isSpace (b : UInt8) : Bool := b == 32 || (9 ≤ b && b ≤ 13)

def isDigit (b : UInt8) : Bool := 48 ≤ b && b ≤ 57

/-- `std::tolower`. -/
def toLower (b : UInt8) : UInt8 := if 65 ≤ b && b ≤ 90 then b + 32 else b

/-- What `operator>>` into a string can produce: no blanks, and at least one character. -/
def Token (s : Bytes) : Prop := s ≠ [] ∧ ∀ b ∈ s, isSpace b = false

instance (s : Bytes) : Decidable (Token s) := inferInstanceAs (Decidable (_ ∧ _))

/-! ### Decimal output -/

def digitChar (d : Nat) : UInt8 := UInt8.ofNat (48 + d)

def digitVal (b : UInt8) : Nat := b.toNat - 48

def decimal (n : Nat) : Bytes :=
  if n = 0 then [48] else (Nat.digits 10 n).reverse.map digitChar

/-- The number a run of decimal digits denotes. -/
def value (ds : Bytes) : Nat := ds.foldl (fun acc b => 10 * acc + digitVal b) 0

def decimalInt (n : Int) : Bytes :=
  if n < 0 then 45 :: decimal n.natAbs else decimal n.natAbs

theorem digitVal_digitChar {d : Nat} (hd : d < 10) : digitVal (digitChar d) = d := by
  have hlt : 48 + d < 256 := by omega
  rw [digitVal, digitChar, UInt8.toNat_ofNat_of_lt' hlt]
  omega

theorem isDigit_digitChar {d : Nat} (hd : d < 10) : isDigit (digitChar d) = true := by
  have hall : ∀ d < 10, isDigit (digitChar d) = true := by decide
  exact hall d hd

theorem isSpace_of_isDigit {b : UInt8} (hb : isDigit b = true) : isSpace b = false := by
  simp only [isDigit, isSpace, Bool.and_eq_true, decide_eq_true_eq, Bool.or_eq_false_iff,
    UInt8.le_iff_toNat_le, Bool.and_eq_false_iff, decide_eq_false_iff_not, beq_eq_false_iff_ne,
    ne_eq, ← UInt8.toNat_inj] at hb ⊢
  simp only [UInt8.reduceToNat] at hb ⊢
  omega

theorem decimal_ne_nil (n : Nat) : decimal n ≠ [] := by
  unfold decimal
  split
  · simp
  · rename_i hn
    simp [Nat.digits_ne_nil_iff_ne_zero.mpr hn]

theorem isDigit_of_mem_decimal {n : Nat} {b : UInt8} (hb : b ∈ decimal n) : isDigit b = true := by
  unfold decimal at hb
  split at hb
  · simp only [List.mem_singleton] at hb
    subst hb
    decide
  · obtain ⟨d, hd, rfl⟩ := List.mem_map.mp hb
    exact isDigit_digitChar (Nat.digits_lt_base (by decide) (List.mem_reverse.mp hd))

theorem decimal_token (n : Nat) : Token (decimal n) :=
  ⟨decimal_ne_nil n, fun _ hb => isSpace_of_isDigit (isDigit_of_mem_decimal hb)⟩

theorem value_digits (ds : List Nat) (hds : ∀ d ∈ ds, d < 10) :
    value (ds.reverse.map digitChar) = Nat.ofDigits 10 ds := by
  induction ds with
  | nil => rfl
  | cons d ds ih =>
      have htail := ih fun x hx => hds x (List.mem_cons_of_mem d hx)
      simp only [value] at htail ⊢
      rw [List.reverse_cons, List.map_append, List.foldl_append, htail]
      simp only [List.map_cons, List.map_nil, List.foldl_cons, List.foldl_nil,
        digitVal_digitChar (hds d List.mem_cons_self), Nat.ofDigits_cons]
      exact Nat.add_comm _ _

@[simp]
theorem value_decimal (n : Nat) : value (decimal n) = n := by
  unfold decimal
  split
  · rename_i hn
    subst hn
    decide
  · rw [value_digits _ fun d hd => Nat.digits_lt_base (by decide) hd, Nat.ofDigits_digits]

theorem value_le_append (ds more : Bytes) : value ds ≤ value (ds ++ more) := by
  unfold value
  rw [List.foldl_append]
  generalize List.foldl _ 0 ds = n
  induction more generalizing n with
  | nil => exact le_rfl
  | cons b more ih => exact le_trans (by omega) (ih (10 * n + digitVal b))

theorem value_take_decimal_pos {n i : Nat} (hn : 0 < n) (hi : 0 < i) :
    0 < value ((decimal n).take i) := by
  have hne : Nat.digits 10 n ≠ [] := Nat.digits_ne_nil_iff_ne_zero.mpr hn.ne'
  have hlast := Nat.getLast_digit_ne_zero 10 hn.ne'
  have hlt : (Nat.digits 10 n).getLast hne < 10 :=
    Nat.digits_lt_base (by decide) (List.getLast_mem hne)
  obtain ⟨j, rfl⟩ : ∃ j, i = j + 1 := ⟨i - 1, by omega⟩
  have hfirst : (decimal n).take (j + 1) = digitChar ((Nat.digits 10 n).getLast hne) ::
      ((Nat.digits 10 n).dropLast.reverse.map digitChar).take j := by
    have hdigits := congrArg List.reverse (List.dropLast_append_getLast hne)
    rw [List.reverse_append, List.reverse_singleton, List.singleton_append] at hdigits
    rw [decimal, if_neg hn.ne', ← hdigits, List.map_cons, List.take_succ_cons]
  have hle := value_le_append [digitChar ((Nat.digits 10 n).getLast hne)]
    (((Nat.digits 10 n).dropLast.reverse.map digitChar).take j)
  rw [hfirst, ← List.singleton_append]
  refine lt_of_lt_of_le ?_ hle
  simp only [value, List.foldl_cons, List.foldl_nil, digitVal_digitChar hlt]
  omega

theorem decimal_injective : Function.Injective decimal := fun a b hab => by
  rw [← value_decimal a, hab, value_decimal]

/-! ### Number input -/

/-- The sign `strtol` and `num_get` accept in front of the digits. -/
def splitSign : Bytes → Bool × Bytes
  | 43 :: rest => (false, rest)
  | 45 :: rest => (true, rest)
  | rest => (false, rest)

theorem splitSign_of_isDigit {b : UInt8} (hb : isDigit b = true) (rest : Bytes) :
    splitSign (b :: rest) = (false, b :: rest) := by
  unfold splitSign
  split
  · rename_i heq
    simp only [List.cons.injEq] at heq
    simp [heq.1, isDigit] at hb
  · rename_i heq
    simp only [List.cons.injEq] at heq
    simp [heq.1, isDigit] at hb
  · rfl

/-- A letter or digit as a digit of the given base. -/
def digitIn (base : Nat) (b : UInt8) : Option Nat :=
  let d :=
    if isDigit b then b.toNat - 48
    else if 97 ≤ b && b ≤ 122 then b.toNat - 87
    else if 65 ≤ b && b ≤ 90 then b.toNat - 55
    else base
  if d < base then some d else none

/-- Base 16 lets a `0x` stand in front of the digits. -/
def dropHexMark : Bytes → Bytes
  | 48 :: x :: d :: rest =>
      if (x == 120 || x == 88) && (digitIn 16 d).isSome then d :: rest else 48 :: x :: d :: rest
  | s => s

def strtol (base : Nat) (s : Bytes) : Option Int :=
  let (negative, body) := splitSign (s.dropWhile isSpace)
  let body := if base = 16 then dropHexMark body else body
  let digits := body.takeWhile fun b => (digitIn base b).isSome
  let magnitude : Nat := digits.foldl (fun acc b => base * acc + (digitIn base b).getD 0) 0
  if digits = [] then none else some (if negative then -(magnitude : Int) else magnitude)

theorem digitIn_of_isDigit {b : UInt8} (hb : isDigit b = true) :
    digitIn 10 b = some (digitVal b) := by
  have hle : 48 ≤ b.toNat ∧ b.toNat ≤ 57 := by
    simpa [isDigit, UInt8.le_iff_toNat_le] using hb
  have hlt : b.toNat - 48 < 10 := by omega
  simp only [digitIn, hb, ↓reduceIte, hlt, digitVal]

theorem strtol_digits {ds : Bytes} (hne : ds ≠ []) (hdigits : ∀ b ∈ ds, isDigit b = true) :
    strtol 10 ds = some (value ds : Int) := by
  obtain ⟨b, rest, rfl⟩ := List.exists_cons_of_ne_nil hne
  have hb : isDigit b = true := hdigits b List.mem_cons_self
  have hskip : (b :: rest).dropWhile isSpace = b :: rest :=
    List.dropWhile_cons_of_neg (by rw [isSpace_of_isDigit hb]; exact Bool.false_ne_true)
  have hall : ∀ c ∈ b :: rest, (digitIn 10 c).isSome = true := by
    intro c hc
    rw [digitIn_of_isDigit (hdigits c hc)]
    rfl
  have hvalue : (b :: rest).foldl (fun acc c => 10 * acc + (digitIn 10 c).getD 0) 0 =
      value (b :: rest) := by
    apply List.foldl_ext
    intro acc c hc
    rw [digitIn_of_isDigit (hdigits c hc)]
    rfl
  have hbase : ¬ (10 : Nat) = 16 := by decide
  simp only [strtol, hskip, splitSign_of_isDigit hb, if_neg hbase,
    List.takeWhile_eq_self_iff.mpr hall, hne, ↓reduceIte, hvalue, Bool.false_eq_true]

end Bytes
