import Mathlib.Data.List.Basic

/-!
# A cell with two kinds of writers

Some writers fill a cell if it is empty, others overwrite it. What a sequence of writers leaves
there depends on the last overwrite alone, and if there is none on what came first.
-/

/-- A writer and what it writes. -/
inductive Touch (α : Type) where
  | fill (data : α)
  | overwrite (data : α)

namespace Touch

variable {α : Type}

def data : Touch α → α
  | fill data => data
  | overwrite data => data

def Overwrites (touch : Touch α) : Prop := ∃ data, touch = overwrite data

def apply : Touch α → Option α → Option α
  | fill data, old => some (old.getD data)
  | overwrite data, _ => some data

def after (old : Option α) (touches : List (Touch α)) : Option α :=
  touches.foldl (fun cell touch => touch.apply cell) old

variable (old : Option α) {touches : List (Touch α)}

theorem after_append (first second : List (Touch α)) :
    after old (first ++ second) = after (after old first) second :=
  List.foldl_append

theorem after_some_of_fills (hfills : ∀ t ∈ touches, ¬ t.Overwrites) (x : α) :
    after (some x) touches = some x := by
  induction touches with
  | nil => rfl
  | cons t touches ih =>
      cases t with
      | fill data => exact ih fun t ht => hfills t (List.mem_cons_of_mem _ ht)
      | overwrite data => exact absurd ⟨data, rfl⟩ (hfills _ List.mem_cons_self)

theorem after_eq_of_overwrite (hover : ∃ t ∈ touches, t.Overwrites) (old' : Option α) :
    after old touches = after old' touches := by
  induction touches generalizing old old' with
  | nil => simp at hover
  | cons t touches ih =>
      cases t with
      | fill data =>
          obtain ⟨t', ht', data', rfl⟩ := hover
          rcases List.mem_cons.mp ht' with hfirst | hmem
          · cases hfirst
          · exact ih ((fill data).apply old) ⟨_, hmem, data', rfl⟩ ((fill data).apply old')
      | overwrite data => rfl

theorem after_isSome (hne : touches ≠ []) : (after old touches).isSome := by
  induction touches generalizing old with
  | nil => exact absurd rfl hne
  | cons t touches ih =>
      by_cases hnil : touches = []
      · subst hnil
        cases t <;> rfl
      · exact ih (t.apply old) hnil

theorem after_mem {x : α} (hafter : after old touches = some x) :
    old = some x ∨ ∃ t ∈ touches, t.data = x := by
  induction touches generalizing old with
  | nil => exact Or.inl hafter
  | cons t touches ih =>
      rcases ih (t.apply old) hafter with hnow | ⟨t', ht', hdata⟩
      · cases t with
        | fill data =>
            cases old with
            | none => exact Or.inr ⟨fill data, List.mem_cons_self, Option.some.inj hnow⟩
            | some y => exact Or.inl hnow
        | overwrite data => exact Or.inr ⟨overwrite data, List.mem_cons_self, Option.some.inj hnow⟩
      · exact Or.inr ⟨t', List.mem_cons_of_mem t ht', hdata⟩

/-- **After an overwrite** the cell holds what some overwrite has put there. -/
theorem after_of_overwrite (hover : ∃ t ∈ touches, t.Overwrites) :
    ∃ x, overwrite x ∈ touches ∧ after old touches = some x := by
  induction touches generalizing old with
  | nil => simp at hover
  | cons t touches ih =>
      by_cases hrest : ∃ t' ∈ touches, t'.Overwrites
      · obtain ⟨x, hx, hafter⟩ := ih (t.apply old) hrest
        exact ⟨x, List.mem_cons_of_mem t hx, hafter⟩
      · obtain ⟨t', ht', data, rfl⟩ := hover
        have hfills : ∀ t ∈ touches, ¬ t.Overwrites := fun t ht hover => hrest ⟨t, ht, hover⟩
        rcases List.mem_cons.mp ht' with rfl | hmem
        · exact ⟨data, List.mem_cons_self, after_some_of_fills hfills data⟩
        · exact absurd ⟨data, rfl⟩ (hfills _ hmem)

end Touch
