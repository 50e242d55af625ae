import DecentStore.Lib.Bytes

/-!
# Formatted input from a stream

`std::istream` as `operator>>` uses it: the unread text and the fail bit. An extractor takes the
variable's old value, because a stream that is already failed, or that has only blanks left, leaves
the variable alone; a number that does not parse sets it to zero, and one that does not fit sets it
to the largest value, each with the fail bit.

The lemmas read back what `operator<<` wrote: a token or a decimal number, up to the next blank.
-/

open Bytes

structure IStream where
  rest : Bytes
  failed : Bool := false
deriving DecidableEq

namespace IStream

def skipWs (is : IStream) : Bytes := is.rest.dropWhile isSpace

/-- `is >> s` for a `std::string`. -/
def getString (is : IStream) (old : Bytes) : Bytes × IStream :=
  if is.failed then (old, is)
  else match is.skipWs with
    | [] => (old, ⟨[], true⟩)
    | text => (text.takeWhile (!isSpace ·), ⟨text.dropWhile (!isSpace ·), false⟩)

/-- `is >> n` for a 64-bit unsigned `n`: a minus sign negates modulo `2 ^ 64`. -/
def getUInt64 (is : IStream) (old : UInt64) : UInt64 × IStream :=
  if is.failed then (old, is)
  else match is.skipWs with
    | [] => (old, ⟨[], true⟩)
    | text =>
        let (negative, body) := splitSign text
        let digits := body.takeWhile isDigit
        let after := body.dropWhile isDigit
        if digits = [] then (0, ⟨after, true⟩)
        else if 2 ^ 64 ≤ value digits then (UInt64.ofNat (2 ^ 64 - 1), ⟨after, true⟩)
        else
          let n := UInt64.ofNat (value digits)
          (if negative then 0 - n else n, ⟨after, false⟩)

/-- `is >> n` for an `int`: a number outside the range is clamped, with the fail bit. -/
def getInt (is : IStream) (old : Int) : Int × IStream :=
  if is.failed then (old, is)
  else match is.skipWs with
    | [] => (old, ⟨[], true⟩)
    | text =>
        let (negative, body) := splitSign text
        let digits := body.takeWhile isDigit
        let after := body.dropWhile isDigit
        let n : Int := if negative then -(value digits : Int) else value digits
        if digits = [] then (0, ⟨after, true⟩)
        else if n < -2 ^ 31 then (-2 ^ 31, ⟨after, true⟩)
        else if 2 ^ 31 - 1 < n then (2 ^ 31 - 1, ⟨after, true⟩)
        else (n, ⟨after, false⟩)

/-- `is.read(buffer, n)`: what it delivers. A block cut short sets the fail bit. -/
def read (is : IStream) (n : Nat) : Bytes × IStream :=
  if is.failed then ([], is) else (is.rest.take n, ⟨is.rest.drop n, is.rest.length < n⟩)

/-- The next byte, if there is one, ends a token. -/
def AtBreak (text : Bytes) : Prop := ∀ b ∈ text.head?, isSpace b = true

theorem atBreak_nil : AtBreak [] := by simp [AtBreak]

theorem atBreak_cons {b : UInt8} (hb : isSpace b = true) (text : Bytes) : AtBreak (b :: text) := by
  simpa [AtBreak] using hb

section Extractors

variable {b : UInt8} {tok text : Bytes}

theorem getString_space (hb : isSpace b = true) (old : Bytes) :
    getString ⟨b :: text, false⟩ old = getString ⟨text, false⟩ old := by
  simp [getString, skipWs, hb]

theorem getUInt64_space (hb : isSpace b = true) (old : UInt64) :
    getUInt64 ⟨b :: text, false⟩ old = getUInt64 ⟨text, false⟩ old := by
  simp [getUInt64, skipWs, hb]

theorem getInt_space (hb : isSpace b = true) (old : Int) :
    getInt ⟨b :: text, false⟩ old = getInt ⟨text, false⟩ old := by
  simp [getInt, skipWs, hb]

theorem skipWs_token (htok : Token tok) : skipWs ⟨tok ++ text, false⟩ = tok ++ text := by
  obtain ⟨b, bs, rfl⟩ := List.exists_cons_of_ne_nil htok.1
  have hb := htok.2 b List.mem_cons_self
  simp [skipWs, hb]

theorem takeWhile_run {p : UInt8 → Bool} (htok : ∀ b ∈ tok, p b = true)
    (hbreak : ∀ b ∈ text.head?, p b = false) :
    (tok ++ text).takeWhile p = tok ∧ (tok ++ text).dropWhile p = text := by
  rw [List.takeWhile_append_of_pos htok, List.dropWhile_append_of_pos htok]
  cases text with
  | nil => simp
  | cons b text =>
      have hb : p b = false := hbreak b rfl
      simp [hb]

theorem getString_token (htok : Token tok) (hbreak : AtBreak text) (old : Bytes) :
    getString ⟨tok ++ text, false⟩ old = (tok, ⟨text, false⟩) := by
  have hrun := @takeWhile_run tok text (!isSpace ·) (fun b hb => by simpa using htok.2 b hb)
    (fun b hb => by simpa using hbreak b hb)
  have hne : tok ++ text ≠ [] := by simp [htok.1]
  obtain ⟨c, cs, hcs⟩ := List.exists_cons_of_ne_nil hne
  simp only [getString, Bool.false_eq_true, ↓reduceIte, skipWs_token htok]
  rw [hcs] at hrun ⊢
  simp only [hrun.1, hrun.2]

theorem splitSign_decimal (n : Nat) (text : Bytes) :
    splitSign (decimal n ++ text) = (false, decimal n ++ text) := by
  obtain ⟨b, bs, hbs⟩ := List.exists_cons_of_ne_nil (decimal_ne_nil n)
  have hb : isDigit b = true :=
    isDigit_of_mem_decimal (n := n) (by rw [hbs]; exact List.mem_cons_self)
  rw [hbs, List.cons_append, splitSign_of_isDigit hb]

theorem run_decimal (n : Nat) (hbreak : AtBreak text) :
    (decimal n ++ text).takeWhile isDigit = decimal n ∧
      (decimal n ++ text).dropWhile isDigit = text := by
  refine takeWhile_run (fun b hb => isDigit_of_mem_decimal hb) fun b hb => ?_
  by_contra hdigit
  have hspace := hbreak b hb
  rw [isSpace_of_isDigit (by simpa using hdigit)] at hspace
  exact absurd hspace (by decide)

theorem getUInt64_decimal (n : UInt64) (hbreak : AtBreak text) (old : UInt64) :
    getUInt64 ⟨decimal n.toNat ++ text, false⟩ old = (n, ⟨text, false⟩) := by
  have hrun := run_decimal n.toNat hbreak
  have hsplit := splitSign_decimal n.toNat text
  have hne : decimal n.toNat ++ text ≠ [] := by simp [decimal_ne_nil]
  have hlt : ¬ 2 ^ 64 ≤ n.toNat := Nat.not_le.mpr n.toNat_lt
  obtain ⟨c, cs, hcs⟩ := List.exists_cons_of_ne_nil hne
  simp only [getUInt64, Bool.false_eq_true, ↓reduceIte, skipWs_token (decimal_token _)]
  rw [hcs] at hrun hsplit ⊢
  simp only [hsplit, hrun.1, hrun.2, decimal_ne_nil, ↓reduceIte, value_decimal, hlt,
    Bool.false_eq_true, UInt64.ofNat_toNat]

theorem getInt_decimal {n : Nat} (hn : n < 2 ^ 31) (hbreak : AtBreak text) (old : Int) :
    getInt ⟨decimal n ++ text, false⟩ old = ((n : Int), ⟨text, false⟩) := by
  have hrun := run_decimal n hbreak
  have hsplit := splitSign_decimal n text
  have hne : decimal n ++ text ≠ [] := by simp [decimal_ne_nil]
  have hlow : ¬ (n : Int) < -2 ^ 31 := by omega
  have hhigh : ¬ (2 ^ 31 - 1 : Int) < n := by omega
  obtain ⟨c, cs, hcs⟩ := List.exists_cons_of_ne_nil hne
  simp only [getInt, Bool.false_eq_true, ↓reduceIte, skipWs_token (decimal_token _)]
  rw [hcs] at hrun hsplit ⊢
  simp only [hsplit, hrun.1, hrun.2, decimal_ne_nil, ↓reduceIte, value_decimal, hlow, hhigh,
    Bool.false_eq_true]

theorem getInt_decimalInt {n : Int} (hlow : -2 ^ 31 ≤ n) (hhigh : n < 2 ^ 31)
    (hbreak : AtBreak text) (old : Int) :
    getInt ⟨decimalInt n ++ text, false⟩ old = (n, ⟨text, false⟩) := by
  by_cases hneg : n < 0
  · have hrun := run_decimal n.natAbs hbreak
    have hvalue : -(n.natAbs : Int) = n := by omega
    have hskip : skipWs ⟨45 :: (decimal n.natAbs ++ text), false⟩ =
        45 :: (decimal n.natAbs ++ text) := by
      simp [skipWs, show isSpace 45 = false by decide]
    have hlow' : ¬ n < -2 ^ 31 := by omega
    have hhigh' : ¬ (2 ^ 31 - 1 : Int) < n := by omega
    rw [decimalInt, if_pos hneg, List.cons_append]
    simp only [getInt, Bool.false_eq_true, ↓reduceIte, hskip, splitSign, hrun.1, hrun.2,
      decimal_ne_nil, value_decimal, hvalue, hlow', hhigh']
  · have hread := @getInt_decimal text n.natAbs (by omega) hbreak old
    have hvalue : (n.natAbs : Int) = n := by omega
    rwa [hvalue, ← show decimalInt n = decimal n.natAbs by rw [decimalInt, if_neg hneg]] at hread

end Extractors

/-- What a string extraction leaves in the variable, unless the stream was already unusable. -/
theorem getString_fst (is : IStream) (old : Bytes) :
    (is.getString old).1 = old ∨ ∀ b ∈ (is.getString old).1, isSpace b = false := by
  unfold getString
  split
  · exact Or.inl rfl
  · split
    · exact Or.inl rfl
    · exact Or.inr fun b hb => by simpa using List.mem_takeWhile_imp hb

theorem length_getString (is : IStream) :
    (is.getString []).1.length + (is.getString []).2.rest.length ≤ is.rest.length := by
  unfold getString
  split
  · exact (Nat.zero_add _).le
  · split
    · exact Nat.zero_le _
    · have hsplit := congrArg List.length
        (List.takeWhile_append_dropWhile (p := (!isSpace ·)) (l := is.skipWs))
      have hskip : is.skipWs.length ≤ is.rest.length := (List.dropWhile_sublist _).length_le
      rw [List.length_append] at hsplit
      exact hsplit.le.trans hskip

theorem length_getInt (is : IStream) (old : Int) :
    (is.getInt old).2.rest.length ≤ is.rest.length := by
  have hskip : is.skipWs.length ≤ is.rest.length := (List.dropWhile_sublist _).length_le
  have hsign : (splitSign is.skipWs).2.length ≤ is.skipWs.length := by
    unfold splitSign
    split <;> simp [*]
  have hdrop : ((splitSign is.skipWs).2.dropWhile isDigit).length ≤
      (splitSign is.skipWs).2.length := (List.dropWhile_sublist _).length_le
  unfold getInt
  split
  · exact le_rfl
  · split
    · exact Nat.zero_le _
    · dsimp only
      split_ifs <;> exact hdrop.trans (hsign.trans hskip)

/-- A string that is there has been taken off the text. -/
theorem length_getString_lt (is : IStream) (word : Bytes)
    (hok : (is.getString word).2.failed = false) :
    (is.getString word).2.rest.length < is.rest.length := by
  unfold getString at hok ⊢
  split at hok
  · rename_i hfailed
    rw [hfailed] at hok
    cases hok
  · rename_i hread
    rw [if_neg hread]
    have hskip : is.skipWs.length ≤ is.rest.length := (List.dropWhile_sublist _).length_le
    cases htext : is.skipWs with
    | nil => simp [htext] at hok
    | cons b text =>
        have hb : isSpace b = false := by
          have hhead := List.head?_dropWhile_not isSpace is.rest
          rw [← skipWs, htext] at hhead
          simpa using hhead
        have hdrop : (text.dropWhile (!isSpace ·)).length ≤ text.length :=
          (List.dropWhile_sublist _).length_le
        rw [htext, List.length_cons] at hskip
        simp only [hb, List.dropWhile_cons, Bool.not_false, ↓reduceIte]
        omega

/-- So the text gets shorter when a string and a number are both there. -/
theorem length_extract (is : IStream) (word : Bytes) (old : Int)
    (hok : ¬ ((is.getString word).2.getInt old).2.failed = true) :
    ((is.getString word).2.getInt old).2.rest.length < is.rest.length := by
  refine lt_of_le_of_lt (length_getInt _ _) (length_getString_lt is word ?_)
  by_contra hfailed
  have hfailed' : (is.getString word).2.failed = true := by simpa using hfailed
  refine hok ?_
  rw [getInt, if_pos hfailed']
  exact hfailed'

@[simp]
theorem getString_of_failed (text old : Bytes) :
    getString ⟨text, true⟩ old = (old, ⟨text, true⟩) := rfl

@[simp]
theorem getUInt64_of_failed (text : Bytes) (old : UInt64) :
    getUInt64 ⟨text, true⟩ old = (old, ⟨text, true⟩) := rfl

@[simp]
theorem getString_nil (old : Bytes) : getString ⟨[], false⟩ old = (old, ⟨[], true⟩) := rfl

@[simp]
theorem getUInt64_nil (old : UInt64) : getUInt64 ⟨[], false⟩ old = (old, ⟨[], true⟩) := rfl

/-! ### Streams with nothing left -/

/-- There is nothing left to read. -/
def Exhausted (is : IStream) : Prop := is.failed = true ∨ ∀ b ∈ is.rest, isSpace b = true

variable {is : IStream}

theorem skipWs_of_blank {text : Bytes} (hblank : ∀ b ∈ text, isSpace b = true) (failed : Bool) :
    skipWs ⟨text, failed⟩ = [] :=
  List.dropWhile_eq_nil_iff.mpr hblank

theorem Exhausted.getUInt64 (hnone : is.Exhausted) (old : UInt64) :
    (is.getUInt64 old).2.failed = true := by
  obtain ⟨text, failed⟩ := is
  cases failed with
  | true => rfl
  | false =>
      have hblank := hnone.resolve_left Bool.false_ne_true
      simp only [IStream.getUInt64, skipWs_of_blank hblank, Bool.false_eq_true, ↓reduceIte]

theorem Exhausted.getString (hnone : is.Exhausted) (old : Bytes) :
    (is.getString old).2.failed = true := by
  obtain ⟨text, failed⟩ := is
  cases failed with
  | true => rfl
  | false =>
      have hblank := hnone.resolve_left Bool.false_ne_true
      simp only [IStream.getString, skipWs_of_blank hblank, Bool.false_eq_true, ↓reduceIte]

theorem exhausted_nil (failed : Bool) : Exhausted ⟨[], failed⟩ :=
  Or.inr fun _ hb => absurd hb List.not_mem_nil

theorem exhausted_of_digits {digits : Bytes} (hdigits : ∀ b ∈ digits, isDigit b = true)
    (old : UInt64) : (getUInt64 ⟨digits, false⟩ old).2.Exhausted := by
  cases digits with
  | nil => exact Or.inl rfl
  | cons b rest =>
      have hspace := isSpace_of_isDigit (hdigits b List.mem_cons_self)
      have hsign := splitSign_of_isDigit (hdigits b List.mem_cons_self) rest
      have hdrop : (b :: rest).dropWhile isDigit = [] := List.dropWhile_eq_nil_iff.mpr hdigits
      have hskip : skipWs ⟨b :: rest, false⟩ = b :: rest := by simp [skipWs, hspace]
      simp only [getUInt64, Bool.false_eq_true, ↓reduceIte, hskip, hsign, hdrop]
      split
      · exact exhausted_nil true
      · split <;> exact exhausted_nil _

theorem exhausted_of_word {word : Bytes} (hword : ∀ b ∈ word, isSpace b = false) (old : Bytes) :
    (getString ⟨word, false⟩ old).2.Exhausted := by
  cases word with
  | nil => exact Or.inl rfl
  | cons b rest =>
      have htoken : Token (b :: rest) := ⟨List.cons_ne_nil b rest, hword⟩
      have hread := getString_token htoken atBreak_nil old
      rw [List.append_nil] at hread
      rw [hread]
      exact exhausted_nil false

/-- Of a number a part is read, if there is a digit of it. -/
theorem getUInt64_part (n : UInt64) {digits : Bytes} (hpart : digits <+: decimal n.toNat)
    (hne : digits ≠ []) (old : UInt64) :
    getUInt64 ⟨digits, false⟩ old = (UInt64.ofNat (value digits), ⟨[], false⟩) := by
  have hdigits : ∀ b ∈ digits, isDigit b = true := fun b hb =>
    isDigit_of_mem_decimal (hpart.subset hb)
  have hvalue : value digits < 2 ^ 64 := by
    obtain ⟨more, hmore⟩ := hpart
    have hle := value_le_append digits more
    rw [hmore, value_decimal] at hle
    exact lt_of_le_of_lt hle n.toNat_lt
  cases digits with
  | nil => exact absurd rfl hne
  | cons b rest =>
      have hspace := isSpace_of_isDigit (hdigits b List.mem_cons_self)
      have hsign := splitSign_of_isDigit (hdigits b List.mem_cons_self) rest
      have htake : (b :: rest).takeWhile isDigit = b :: rest :=
        List.takeWhile_eq_self_iff.mpr hdigits
      have hdrop : (b :: rest).dropWhile isDigit = [] := List.dropWhile_eq_nil_iff.mpr hdigits
      have hskip : skipWs ⟨b :: rest, false⟩ = b :: rest := by simp [skipWs, hspace]
      simp only [getUInt64, Bool.false_eq_true, ↓reduceIte, hskip, hsign, htake, hdrop,
        List.cons_ne_nil, Nat.not_le.mpr hvalue]

end IStream
