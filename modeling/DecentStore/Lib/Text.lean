import Mathlib.Data.List.DropRight
import Mathlib.Data.List.TakeWhile

/-!
# Trimming, and the last of a character

A text is trimmed by taking characters of one kind off both ends. What is left begins and ends with
another character, and whatever of that kind was around a text does not matter. The last occurrence
of a character splits a text in one way only.
-/

namespace Text

variable {α : Type}

/-! ### Trimming -/

section Trimming

variable (p : α → Bool)

def trim (s : List α) : List α := (s.dropWhile p).rdropWhile p

structure Trimmed (s : List α) : Prop where
  first : ∀ a ∈ s.head?, p a = false
  last : ∀ a ∈ s.getLast?, p a = false

variable {p} {s lead trail : List α}

theorem dropWhile_of_first (hfirst : ∀ a ∈ s.head?, p a = false) : s.dropWhile p = s := by
  cases s with
  | nil => rfl
  | cons a s =>
      refine List.dropWhile_cons_of_neg ?_
      rw [hfirst a rfl]
      exact Bool.false_ne_true

theorem rdropWhile_of_last (hlast : ∀ a ∈ s.getLast?, p a = false) : s.rdropWhile p = s := by
  refine List.rdropWhile_eq_self_iff.mpr fun hne => ?_
  rw [hlast _ (List.getLast?_eq_some_getLast hne)]
  exact Bool.false_ne_true

theorem rdropWhile_append (htrail : ∀ a ∈ trail, p a = true) :
    (s ++ trail).rdropWhile p = s.rdropWhile p := by
  unfold List.rdropWhile
  rw [List.reverse_append, List.dropWhile_append_of_pos]
  exact fun a ha => htrail a (List.mem_reverse.mp ha)

theorem trim_nil : trim p [] = [] := rfl

theorem trim_of_trimmed (hs : Trimmed p s) : trim p s = s := by
  rw [trim, dropWhile_of_first hs.first, rdropWhile_of_last hs.last]

theorem trimmed_trim (p : α → Bool) (s : List α) : Trimmed p (trim p s) where
  first a ha := by
    obtain ⟨rest, hrest⟩ := List.rdropWhile_prefix p (s.dropWhile p)
    have hhead : (s.dropWhile p).head? = some a := by
      rw [← hrest, List.head?_append]
      change (trim p s).head?.or rest.head? = some a
      rw [Option.mem_def.mp ha]
      rfl
    have hnot := List.head?_dropWhile_not p s
    rw [hhead] at hnot
    exact hnot
  last a ha := by
    have hne : trim p s ≠ [] := by
      intro hnil
      rw [hnil] at ha
      cases ha
    have hnot := List.rdropWhile_last_not p (s.dropWhile p) hne
    rw [List.getLast?_eq_some_getLast hne] at ha
    cases ha
    exact Bool.eq_false_iff.mpr hnot

theorem trim_append (htrail : ∀ a ∈ trail, p a = true) (s : List α) :
    trim p (s ++ trail) = trim p s := by
  unfold trim
  rw [List.dropWhile_append]
  split
  · rename_i hempty
    rw [List.isEmpty_iff.mp hempty, List.dropWhile_eq_nil_iff.mpr htrail]
  · exact rdropWhile_append htrail

theorem append_trim (hlead : ∀ a ∈ lead, p a = true) (s : List α) :
    trim p (lead ++ s) = trim p s := by
  unfold trim
  rw [List.dropWhile_append_of_pos hlead]

/-- What stands around a text and is trimmed off does not matter. -/
theorem trim_pad (hlead : ∀ a ∈ lead, p a = true) (htrail : ∀ a ∈ trail, p a = true)
    (s : List α) : trim p (lead ++ s ++ trail) = trim p s :=
  (trim_append htrail (lead ++ s)).trans (append_trim hlead s)

theorem length_trim_le (p : α → Bool) (s : List α) : (trim p s).length ≤ s.length :=
  calc (trim p s).length ≤ (s.dropWhile p).length := (List.rdropWhile_prefix p _).length_le
    _ ≤ s.length := (List.dropWhile_sublist p).length_le

theorem exists_pad (p : α → Bool) (s : List α) : ∃ lead trail, (∀ a ∈ lead, p a = true) ∧
    (∀ a ∈ trail, p a = true) ∧ s = lead ++ trim p s ++ trail := by
  refine ⟨s.takeWhile p, (s.dropWhile p).rtakeWhile p, fun a ha => List.mem_takeWhile_imp ha,
    fun a ha => List.mem_rtakeWhile_imp ha, ?_⟩
  calc s = s.takeWhile p ++ s.dropWhile p := List.takeWhile_append_dropWhile.symm
    _ = s.takeWhile p ++ (trim p s ++ (s.dropWhile p).rtakeWhile p) := by
        rw [trim, List.rdropWhile_append_rtakeWhile]
    _ = s.takeWhile p ++ trim p s ++ (s.dropWhile p).rtakeWhile p := (List.append_assoc _ _ _).symm

theorem exists_trail (hfirst : ∀ a ∈ s.head?, p a = false) :
    ∃ trail, (∀ a ∈ trail, p a = true) ∧ s = trim p s ++ trail := by
  refine ⟨s.rtakeWhile p, fun a ha => List.mem_rtakeWhile_imp ha, ?_⟩
  rw [trim, dropWhile_of_first hfirst, List.rdropWhile_append_rtakeWhile]

theorem Trimmed.append (hs : ∀ a ∈ s.head?, p a = false) (hne : s ≠ [])
    (htrail : ∀ a ∈ trail.getLast?, p a = false) (hne' : trail ≠ []) :
    Trimmed p (s ++ trail) where
  first a ha := hs a (by rwa [List.head?_append_of_ne_nil s hne] at ha)
  last a ha := htrail a (by rwa [List.getLast?_append_of_ne_nil s hne'] at ha)

end Trimming

/-! ### The last of a character -/

theorem append_cons_inj_right {a a' b b' : List α} {x : α} (hb : x ∉ b) (hb' : x ∉ b')
    (hsame : a ++ x :: b = a' ++ x :: b') : a = a' ∧ b = b' := by
  rcases List.append_eq_append_iff.mp hsame with ⟨w, ha, hrest⟩ | ⟨w, ha, hrest⟩
  · cases w with
    | nil => simpa using And.intro ha.symm hrest
    | cons y w =>
        rw [List.cons_append] at hrest
        exact absurd (List.mem_append_right w List.mem_cons_self) ((List.cons.inj hrest).2 ▸ hb)
  · cases w with
    | nil => simpa using And.intro ha hrest.symm
    | cons y w =>
        rw [List.cons_append] at hrest
        exact absurd (List.mem_append_right w List.mem_cons_self) ((List.cons.inj hrest).2 ▸ hb')

/-- Trimming only shortens what stands before the last of a character that is not trimmed off. -/
theorem length_le_of_trim_eq {p : α → Bool} {a b l r : List α} {c : α} (hc : p c = false)
    (hb : c ∉ b) (hr : c ∉ r) (hsplit : trim p (a ++ c :: b) = l ++ c :: r) :
    l.length ≤ a.length := by
  obtain ⟨lead, trail, -, htrail, hpad⟩ := exists_pad p (a ++ c :: b)
  have hcTrail : c ∉ r ++ trail := by
    rw [List.mem_append, not_or]
    refine ⟨hr, fun hmem => ?_⟩
    rw [htrail c hmem] at hc
    cases hc
  have hsame : a ++ c :: b = (lead ++ l) ++ c :: (r ++ trail) := by
    rw [hsplit] at hpad
    simpa using hpad
  have hlength := congrArg List.length (append_cons_inj_right hb hcTrail hsame).1
  rw [List.length_append] at hlength
  omega

variable [DecidableEq α]

/-- Where the character stands last. -/
def rfind (c : α) : List α → Option Nat
  | [] => none
  | b :: s =>
      match rfind c s with
      | some i => some (i + 1)
      | none => if b = c then some 0 else none

theorem rfind_eq_none {c : α} {s : List α} (hs : c ∉ s) : rfind c s = none := by
  induction s with
  | nil => rfl
  | cons b s ih =>
      obtain ⟨hb, hrest⟩ := not_or.mp (mt List.mem_cons.mpr hs)
      rw [rfind, ih hrest]
      exact if_neg (Ne.symm hb)

theorem rfind_append {c : α} {r : List α} (hr : c ∉ r) (l : List α) :
    rfind c (l ++ c :: r) = some l.length := by
  induction l with
  | nil =>
      rw [List.nil_append, rfind, rfind_eq_none hr]
      exact if_pos rfl
  | cons b l ih => rw [List.cons_append, rfind, ih, List.length_cons]

theorem exists_of_rfind {c : α} {s : List α} {i : Nat} (hfind : rfind c s = some i) :
    ∃ l r, s = l ++ c :: r ∧ c ∉ r ∧ i = l.length := by
  by_cases hc : c ∈ s
  · obtain ⟨l, r, hs, hl⟩ := List.eq_append_cons_of_mem (List.mem_reverse.mpr hc)
    have hsplit : s = r.reverse ++ c :: l.reverse := by
      rw [← List.reverse_reverse s, hs]
      simp
    have hr : c ∉ l.reverse := fun hmem => hl (List.mem_reverse.mp hmem)
    rw [hsplit, rfind_append hr] at hfind
    exact ⟨_, _, hsplit, hr, (Option.some.inj hfind).symm⟩
  · rw [rfind_eq_none hc] at hfind
    cases hfind

/-- What follows the last of the character. -/
theorem rtakeWhile_append {c : α} {r : List α} (hr : c ∉ r) (l : List α) :
    (l ++ c :: r).rtakeWhile (· ≠ c) = r := by
  have hrun : ∀ a ∈ r.reverse, decide (a ≠ c) = true := by
    intro a ha
    refine decide_eq_true ?_
    rintro rfl
    exact hr (List.mem_reverse.mp ha)
  unfold List.rtakeWhile
  rw [List.reverse_append, List.reverse_cons, List.append_assoc,
    List.takeWhile_append_of_pos hrun, List.singleton_append,
    List.takeWhile_cons_of_neg (by simp), List.append_nil, List.reverse_reverse]

end Text
