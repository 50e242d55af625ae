import Mathlib.Data.List.Basic

/-!
# What has been so since

A history is a list of events, and an event is judged by what came before it. `Since` is the past
operator of temporal logic: one event has happened, and none that ends it has happened after.
-/

namespace History

variable {α : Type} {start stop : List α → α → Prop} {history before after : List α} {a b : α}

/-- An event of the first kind has happened, and since then none of the second kind. -/
def Since (start stop : List α → α → Prop) (history : List α) : Prop :=
  ∃ before a after, history = before ++ a :: after ∧ start before a ∧
    ∀ mid b rest, after = mid ++ b :: rest → ¬ stop (before ++ a :: mid) b

/-- An event of a longer history is the last one or one of the shorter. -/
theorem concat_eq_append_cons : history ++ [a] = before ++ b :: after ↔
    history = before ∧ a = b ∧ after = [] ∨
      ∃ mid, after = mid ++ [a] ∧ history = before ++ b :: mid := by
  constructor
  · intro hhistory
    rcases List.eq_nil_or_concat' after with rfl | ⟨mid, c, rfl⟩
    · obtain ⟨rfl, hlast⟩ := List.append_inj' hhistory rfl
      exact Or.inl ⟨rfl, List.singleton_inj.mp hlast, rfl⟩
    · rw [← List.cons_append, ← List.append_assoc] at hhistory
      obtain ⟨rfl, hlast⟩ := List.append_inj' hhistory rfl
      exact Or.inr ⟨mid, by rw [List.singleton_inj.mp hlast], rfl⟩
  · rintro (⟨rfl, rfl, rfl⟩ | ⟨mid, rfl, rfl⟩)
    · rfl
    · simp

@[simp]
theorem not_since_nil : ¬ Since start stop [] := by
  rintro ⟨before, a, after, hhistory, -⟩
  exact List.cons_ne_nil _ _ (List.append_eq_nil_iff.mp hhistory.symm).2

/-- **One more event** either starts it, or it has been so and the event does not end it. -/
theorem since_concat : Since start stop (history ++ [a]) ↔
    start history a ∨ Since start stop history ∧ ¬ stop history a := by
  constructor
  · rintro ⟨before, b, after, hhistory, hstart, hnone⟩
    rcases concat_eq_append_cons.mp hhistory with ⟨rfl, rfl, rfl⟩ | ⟨mid, rfl, rfl⟩
    · exact Or.inl hstart
    · refine Or.inr ⟨⟨before, b, mid, rfl, hstart, fun mid' c rest hmid => ?_⟩, hnone mid a [] rfl⟩
      exact hnone mid' c (rest ++ [a]) (by rw [hmid, List.append_assoc, List.cons_append])
  · rintro (hstart | ⟨⟨before, b, after, rfl, hstart, hnone⟩, hlast⟩)
    · exact ⟨history, a, [], rfl, hstart, fun mid c rest hnil => by simp at hnil⟩
    · refine ⟨before, b, after ++ [a], by simp, hstart, fun mid c rest hafter => ?_⟩
      rcases concat_eq_append_cons.mp hafter with ⟨rfl, rfl, rfl⟩ | ⟨rest', rfl, rfl⟩
      · exact hlast
      · exact hnone mid c rest' rfl

end History
