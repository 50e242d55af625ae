import DecentStore.Lib.IStream

/-!
# Extraction word by word

`operator>>` skips blanks and reads up to the next blank. So what a row of extractions leaves in its
variables is told by the words of the text: a string takes the next word, a number reads the next
word as far as it goes.
-/

open Bytes

/-- The words of a text, as its blanks cut it. -/
def Bytes.words (text : Bytes) : List Bytes := (text.splitOnP isSpace).filter (· ≠ [])

/-- What `operator>>` makes of a word for a 64-bit unsigned number. -/
def Bytes.numberOf (word : Bytes) : UInt64 :=
  let (negative, body) := splitSign word
  let digits := body.takeWhile isDigit
  if digits = [] then 0
  else if 2 ^ 64 ≤ value digits then UInt64.ofNat (2 ^ 64 - 1)
  else
    let n := UInt64.ofNat (value digits)
    if negative then 0 - n else n

namespace Bytes

variable {b : UInt8} {tok text : Bytes}

@[simp]
theorem words_nil : words [] = [] := rfl

theorem words_space (hb : isSpace b = true) (text : Bytes) : words (b :: text) = words text := by
  simp [words, List.splitOnP_cons_eq_if_modifyHead, hb]

theorem words_skipWs (text : Bytes) : words (text.dropWhile isSpace) = words text := by
  induction text with
  | nil => rfl
  | cons b text ih =>
      by_cases hb : isSpace b = true
      · rw [List.dropWhile_cons_of_pos hb, ih, words_space hb]
      · rw [List.dropWhile_cons_of_neg hb]

theorem words_token (htok : Token tok) (hbreak : IStream.AtBreak text) :
    words (tok ++ text) = tok :: words text := by
  cases text with
  | nil =>
      rw [List.append_nil, words, List.splitOnP_eq_singleton htok.2]
      simp [htok.1]
  | cons b text =>
      have hb : isSpace b = true := hbreak b rfl
      rw [words_space hb, words, List.splitOnP_append_cons_of_forall_mem htok.2 b hb]
      simp [htok.1, words]

/-- A text is blank, or it has a first word and goes on after it. -/
theorem words_cases (text : Bytes) :
    text.dropWhile isSpace = [] ∧ words text = [] ∨
      ∃ tok rest, Token tok ∧ IStream.AtBreak rest ∧ text.dropWhile isSpace = tok ++ rest ∧
        words text = tok :: words rest := by
  rcases hskip : text.dropWhile isSpace with _ | ⟨c, cs⟩
  · exact Or.inl ⟨rfl, by rw [← words_skipWs, hskip]; rfl⟩
  · have hc : isSpace c = false := by
      have hhead := List.head?_dropWhile_not isSpace text
      rw [hskip] at hhead
      simpa using hhead
    have htok : Token ((c :: cs).takeWhile (!isSpace ·)) := by
      refine ⟨by simp [hc], fun b hb => by simpa using List.mem_takeWhile_imp hb⟩
    have hbreak : IStream.AtBreak ((c :: cs).dropWhile (!isSpace ·)) := by
      intro b hb
      have hhead := List.head?_dropWhile_not (!isSpace ·) (c :: cs)
      rw [Option.mem_def.mp hb] at hhead
      simpa using hhead
    have hsplit := (List.takeWhile_append_dropWhile (p := (!isSpace ·)) (l := c :: cs)).symm
    refine Or.inr ⟨_, _, htok, hbreak, hsplit, ?_⟩
    rw [← words_skipWs, hskip]
    exact (congrArg words hsplit).trans (words_token htok hbreak)

end Bytes

namespace IStream

theorem getString_words (text : Bytes) :
    (words text = [] ∧ ∀ old, getString ⟨text, false⟩ old = (old, ⟨[], true⟩)) ∨
      ∃ tok rest, Token tok ∧ words text = tok :: words rest ∧
        ∀ old, getString ⟨text, false⟩ old = (tok, ⟨rest, false⟩) := by
  rcases words_cases text with ⟨hskip, hwords⟩ | ⟨tok, rest, htok, hbreak, hskip, hwords⟩
  · exact Or.inl ⟨hwords, fun old => by simp [getString, skipWs, hskip]⟩
  · refine Or.inr ⟨tok, rest, htok, hwords, fun old => ?_⟩
    have hread := getString_token htok hbreak old
    have hself : skipWs ⟨tok ++ rest, false⟩ = tok ++ rest := skipWs_token htok
    unfold getString at hread ⊢
    rw [hself] at hread
    rw [skipWs, hskip]
    exact hread

theorem splitSign_token {tok : Bytes} (htok : Token tok) (rest : Bytes) :
    splitSign (tok ++ rest) = ((splitSign tok).1, (splitSign tok).2 ++ rest) := by
  obtain ⟨b, bs, rfl⟩ := List.exists_cons_of_ne_nil htok.1
  by_cases hplus : b = 43
  · subst hplus
    rfl
  by_cases hminus : b = 45
  · subst hminus
    rfl
  have hother : ∀ cs, splitSign (b :: cs) = (false, b :: cs) := fun cs => by
    unfold splitSign
    split
    · simp_all
    · simp_all
    · rfl
  rw [List.cons_append, hother, hother]
  rfl

theorem takeWhile_isDigit_append (body : Bytes) {rest : Bytes} (hbreak : AtBreak rest) :
    (body ++ rest).takeWhile isDigit = body.takeWhile isDigit := by
  have hrest : rest.takeWhile isDigit = [] := by
    cases rest with
    | nil => rfl
    | cons b rest =>
        have hb : isDigit b = false := by
          by_contra hdigit
          have hspace := isSpace_of_isDigit (by simpa using hdigit)
          rw [hbreak b rfl] at hspace
          cases hspace
        exact List.takeWhile_cons_of_neg (by simp [hb])
  rw [List.takeWhile_append, hrest, List.append_nil]
  split
  · rename_i hlength
    exact ((List.takeWhile_prefix isDigit).eq_of_length hlength).symm
  · rfl

theorem getUInt64_words (text : Bytes) (old : UInt64) :
    (getUInt64 ⟨text, false⟩ old).1 = ((words text).head?.map numberOf).getD old := by
  rcases words_cases text with ⟨hskip, hwords⟩ | ⟨tok, rest, htok, hbreak, hskip, hwords⟩
  · simp [getUInt64, skipWs, hskip, hwords]
  · have hdigits := takeWhile_isDigit_append (splitSign tok).2 hbreak
    obtain ⟨c, cs, hcs⟩ := List.exists_cons_of_ne_nil htok.1
    have hsign := splitSign_token htok rest
    simp only [getUInt64, skipWs, hskip, hwords, hcs, List.cons_append] at hsign ⊢
    rw [← hcs] at hsign ⊢
    simp only [List.head?_cons, Option.map_some, Option.getD_some, numberOf, hsign, hdigits,
      Bool.false_eq_true, ↓reduceIte]
    split_ifs <;> rfl

theorem getString_getUInt64_words (text : Bytes) :
    (getString ⟨text, false⟩ []).1 = (words text).headD [] ∧
      ((getString ⟨text, false⟩ []).2.getUInt64 0).1 = ((words text)[1]?.map numberOf).getD 0 := by
  rcases getString_words text with ⟨hwords, hread⟩ | ⟨tok, rest, -, hwords, hread⟩
  · rw [hread, hwords]
    exact ⟨rfl, rfl⟩
  · rw [hread, hwords]
    exact ⟨rfl, (getUInt64_words rest 0).trans (by rw [List.head?_eq_getElem?]; rfl)⟩

end IStream
