import Mathlib.Data.Nat.Find
import Mathlib.Logic.Function.Basic

/-!
# A table of descriptors

The numbers of a process's open descriptors, each with the one who opened it. Opening takes the
lowest number that is free; closing frees a number, whoever it belongs to. So a number that was
opened and closed is the next to be given out.
-/

structure Descriptors (Owner : Type) where
  owner : Nat → Option Owner
  bounded : ∃ bound, ∀ fd, bound ≤ fd → owner fd = none

namespace Descriptors

variable {Owner : Type}

@[ext]
theorem ext {table table' : Descriptors Owner} (howner : table.owner = table'.owner) :
    table = table' := by
  cases table
  cases table'
  cases howner
  rfl

def empty : Descriptors Owner where
  owner := fun _ => none
  bounded := ⟨0, fun _ _ => rfl⟩

theorem exists_free (table : Descriptors Owner) : ∃ fd, table.owner fd = none := by
  obtain ⟨bound, hbound⟩ := table.bounded
  exact ⟨bound, hbound bound (le_refl bound)⟩

def lowest (table : Descriptors Owner) : Nat := Nat.find table.exists_free

def set (table : Descriptors Owner) (fd : Nat) (owner : Option Owner) : Descriptors Owner where
  owner := Function.update table.owner fd owner
  bounded := by
    obtain ⟨bound, hbound⟩ := table.bounded
    refine ⟨max bound (fd + 1), ?_⟩
    intro fd' hle
    rw [Function.update_of_ne (by omega)]
    exact hbound fd' (by omega)

def install (table : Descriptors Owner) (owner : Owner) : Descriptors Owner :=
  table.set table.lowest (some owner)

def release (table : Descriptors Owner) (fd : Nat) : Descriptors Owner := table.set fd none

variable (table : Descriptors Owner) (fd : Nat) (owner : Owner)

@[simp]
theorem owner_lowest : table.owner table.lowest = none := Nat.find_spec table.exists_free

@[simp]
theorem owner_install_lowest : (table.install owner).owner table.lowest = some owner :=
  Function.update_self ..

@[simp]
theorem owner_release_self : (table.release fd).owner fd = none := Function.update_self ..

variable {table fd}

theorem owner_install_of_some {other : Owner} (hopen : table.owner fd = some other) :
    (table.install owner).owner fd = some other := by
  have hne : fd ≠ table.lowest := by
    intro heq
    rw [heq, owner_lowest] at hopen
    cases hopen
  exact (Function.update_of_ne hne ..).trans hopen

theorem owner_release_of_ne {fd' : Nat} (hne : fd ≠ fd') :
    (table.release fd').owner fd = table.owner fd :=
  Function.update_of_ne hne ..

@[simp]
theorem release_install : (table.install owner).release table.lowest = table := by
  apply ext
  simp only [release, install, set, Function.update_idem]
  exact Function.update_eq_self_iff.mpr table.owner_lowest.symm

end Descriptors
