import Mathlib.Algebra.BigOperators.Group.List.Basic
import Mathlib.Algebra.GroupWithZero.Nat
import Mathlib.Algebra.Order.BigOperators.Group.List

/-!
# Least recently used

A cache is a list of weighted items, most recently used first, under a budget. Eviction drops items
from the far end while the list is too heavy. What is left is `fit`: the longest run of most
recently used items whose weight is within the budget.
-/

namespace Lru

variable {α : Type*} (weight : α → Nat)

def total (items : List α) : Nat := (items.map weight).sum

def fit : Nat → List α → List α
  | _, [] => []
  | budget, x :: items =>
      if weight x ≤ budget then x :: fit (budget - weight x) items else []

@[simp]
theorem total_nil : total weight ([] : List α) = 0 := rfl

@[simp]
theorem total_cons (x : α) (items : List α) :
    total weight (x :: items) = weight x + total weight items := rfl

@[simp]
theorem total_append (items more : List α) :
    total weight (items ++ more) = total weight items + total weight more := by
  simp [total]

theorem total_perm {items items' : List α} (hperm : items.Perm items') :
    total weight items = total weight items' :=
  (hperm.map weight).sum_eq

theorem fit_isPrefix (budget : Nat) (items : List α) : fit weight budget items <+: items := by
  induction items generalizing budget with
  | nil => exact List.prefix_rfl
  | cons x items ih =>
      unfold fit
      split
      · exact (List.prefix_cons_inj x).mpr (ih _)
      · exact List.nil_prefix

theorem total_fit_le (budget : Nat) (items : List α) :
    total weight (fit weight budget items) ≤ budget := by
  induction items generalizing budget with
  | nil => exact Nat.zero_le _
  | cons x items ih =>
      unfold fit
      split
      · have hrest := ih (budget - weight x)
        simp only [total_cons]
        omega
      · exact Nat.zero_le _

/-- The longest initial run within the budget. -/
structure LongestRun (budget : Nat) (run items : List α) : Prop where
  isPrefix : run <+: items
  within : total weight run ≤ budget
  longest : ∀ other, other <+: items → total weight other ≤ budget → other <+: run

theorem prefix_fit {budget : Nat} {run items : List α} (hrun : run <+: items)
    (hbudget : total weight run ≤ budget) : run <+: fit weight budget items := by
  induction items generalizing budget run with
  | nil =>
      rw [List.prefix_nil.mp hrun]
      exact List.nil_prefix
  | cons x items ih =>
      cases run with
      | nil => exact List.nil_prefix
      | cons y run =>
          obtain ⟨rfl, hrest⟩ := List.cons_prefix_cons.mp hrun
          simp only [total_cons] at hbudget
          rw [fit, if_pos (by omega)]
          exact (List.prefix_cons_inj y).mpr (ih hrest (by omega))

theorem fit_longestRun (budget : Nat) (items : List α) :
    LongestRun weight budget (fit weight budget items) items :=
  ⟨fit_isPrefix weight budget items, total_fit_le weight budget items,
    fun _ hrun hwithin => prefix_fit weight hrun hwithin⟩

theorem fit_eq_self {budget : Nat} {items : List α} (hbudget : total weight items ≤ budget) :
    fit weight budget items = items :=
  List.IsPrefix.eq_of_length_le (fit_isPrefix weight budget items)
    (prefix_fit weight List.prefix_rfl hbudget).length_le

/-- **One eviction.** While the list is too heavy its last item is not in what is kept. -/
theorem fit_concat_of_lt {budget : Nat} {items : List α} {x : α}
    (hover : budget < total weight (items ++ [x])) :
    fit weight budget (items ++ [x]) = fit weight budget items := by
  have hkeep := fit_isPrefix weight budget (items ++ [x])
  have hbudget := total_fit_le weight budget (items ++ [x])
  have hshort : fit weight budget (items ++ [x]) <+: items := by
    rcases List.prefix_concat_iff.mp hkeep with hall | hinit
    · rw [hall] at hbudget
      exact absurd hbudget (by omega)
    · exact hinit
  refine List.IsPrefix.eq_of_length_le (prefix_fit weight hshort hbudget) ?_
  exact (prefix_fit weight ((fit_isPrefix weight budget items).trans (List.prefix_append _ _))
    (total_fit_le weight budget items)).length_le

end Lru
