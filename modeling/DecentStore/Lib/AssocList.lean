import Mathlib.Data.List.AList

/-!
# More on association lists

Erasing the entries that fail a test, and changing every value, as a loop over a map does. A lookup
sees both entry by entry.
-/

universe u v w

namespace AList

variable {α : Type u} {β : α → Type v} {γ : α → Type w}

/-- The entries that pass a test. -/
def keep (p : Sigma β → Bool) (s : AList β) : AList β where
  entries := s.entries.filter p
  nodupKeys := s.nodupKeys.sublist List.filter_sublist

/-- Every value changed. -/
def mapValues (f : ∀ a, β a → γ a) (s : AList β) : AList γ where
  entries := s.entries.map fun entry => ⟨entry.1, f entry.1 entry.2⟩
  nodupKeys := by
    have hkeys : (s.entries.map fun entry => (⟨entry.1, f entry.1 entry.2⟩ : Sigma γ)).keys =
        s.entries.keys := by
      simp [List.keys]
    rw [List.NodupKeys, hkeys]
    exact s.nodupKeys

variable [DecidableEq α]

theorem lookup_eq_some {s : AList β} {a : α} {b : β a} :
    s.lookup a = some b ↔ ⟨a, b⟩ ∈ s.entries :=
  mem_lookup_iff

theorem lookup_keep (p : Sigma β → Bool) (s : AList β) (a : α) :
    (s.keep p).lookup a = (s.lookup a).filter fun b => p ⟨a, b⟩ := by
  ext b
  rw [lookup_eq_some, Option.filter_eq_some_iff, lookup_eq_some]
  exact List.mem_filter

theorem lookup_mapValues (f : ∀ a, β a → γ a) (s : AList β) (a : α) :
    (s.mapValues f).lookup a = (s.lookup a).map (f a) := by
  ext c
  simp only [lookup_eq_some, Option.map_eq_some_iff, mapValues, List.mem_map]
  constructor
  · rintro ⟨⟨a', b⟩, hentry, heq⟩
    cases heq
    exact ⟨b, hentry, rfl⟩
  · rintro ⟨b, hentry, rfl⟩
    exact ⟨⟨a, b⟩, hentry, rfl⟩

end AList
